import Mathlib.Algebra.Ring.Nat
import Mathlib.Data.Finset.Card
import Pincerbell.Queue.Invariant

/-!
# How long an entry waits

An entry whose lease has ended goes back to the front of the queue, so that entries which are
fetched over and over without an ack can keep a pending one waiting. Within the time of one lease
they cannot: each entry ahead of the pending one is handed out at most once. Polls that ask for more
entries than there are ahead get to it.

* `Op.demand`, `demand` — how many entries polls ask for.
* `position`, `leasesUntil`, `ahead` — the entries that can be handed out before an entry.
* `ahead_step` — a poll that does not get to the entry lowers this number by what it asks for.
* `exit_cases` — how an entry stops being pending.
* `not_starved` — what becomes of a pending entry under enough polls.
-/

namespace Pincerbell

/-- How many entries a call asks for. -/
def Op.demand : Op → ℕ
  | .takeAt _ max => max
  | _ => 0

/-- How many entries some calls ask for. -/
def demand (ops : List Op) : ℕ := (ops.map Op.demand).sum

namespace Inner

variable (inner : Inner)

/-- The number of pending entries in front of this one. -/
def position (e : Entry) : ℕ := (inner.pending.map Entry.id).idxOf e.id

/-- The leases that end by this time. -/
def leasesUntil (limit : Instant) : Finset ℕ :=
  (inner.leased.keys.filter fun id => (inner.leased.lookup id).any fun l => l.1 ≤ limit).toFinset

/-- The number of entries that can be handed out before this one, in a time that ends here. -/
def ahead (limit : Instant) (e : Entry) : ℕ := inner.position e + (inner.leasesUntil limit).card

variable {inner} {e : Entry} {limit : Instant} {id : ℕ}

theorem mem_leasesUntil :
    id ∈ inner.leasesUntil limit ↔ ∃ l, inner.leased.lookup id = some l ∧ l.1 ≤ limit := by
  rw [leasesUntil, List.mem_toFinset, List.mem_filter, Option.any_eq_true]
  simp only [decide_eq_true_eq]
  refine and_iff_right_of_imp ?_
  rintro ⟨l, hl, -⟩
  rw [← AList.mem_keys, ← AList.lookup_isSome, hl]
  rfl

end Inner

/-- Behind a list that it is not in, an id is further back by the length of the list. -/
theorem idxOf_id_append {l l' : List Entry} {e : Entry} (hnodup : ((l ++ l').map Entry.id).Nodup)
    (he : e ∈ l') : ((l ++ l').map Entry.id).idxOf e.id =
      l.length + (l'.map Entry.id).idxOf e.id := by
  rw [List.map_append] at hnodup ⊢
  have hnot : e.id ∉ l.map Entry.id := fun hid =>
    (List.nodup_append.mp hnodup).2.2 _ hid _ (List.mem_map_of_mem he) rfl
  rw [List.idxOf_append_of_notMem hnot, List.length_map]

namespace NotificationQueue

variable (q : NotificationQueue) {inner : Inner} {e : Entry} {limit now : Instant} {max : ℕ}
  {ops pre mid : List Op} {op : Op}

/-! ### One call -/

section Step

variable (h : inner.WF)

include h

/-- What an enqueue evicts in front of the entry is no longer ahead of it. -/
theorem position_enqueueAt_le {payload : Value} {countKey : Option CountKey}
    (he : e ∈ inner.pending) (he' : e ∈ (q.enqueueAt now payload countKey inner).pending) :
    (q.enqueueAt now payload countKey inner).position e ≤ inner.position e := by
  rw [enqueueAt_eq] at he' ⊢
  have hdrop : e ∈ inner.pending.drop (q.excess inner) := by
    rcases List.mem_append.mp he' with hdrop | hnew
    · exact hdrop
    · -- the new entry was not pending before
      obtain rfl := List.mem_singleton.mp hnew
      exact absurd (h.pending_lt he) (Nat.lt_irrefl _)
  have hsplit := List.take_append_drop (q.excess inner) inner.pending
  have hnodup := h.pending_nodup
  rw [← hsplit] at hnodup
  have hfront := idxOf_id_append hnodup hdrop
  rw [hsplit] at hfront
  simp only [Inner.position]
  rw [List.map_append, List.idxOf_append_of_mem (List.mem_map_of_mem hdrop), hfront]
  exact Nat.le_add_left _ _

/-- A poll that leaves the entry pending has gone through as many entries as it asks for, of what it
put back and what was in front of the entry. -/
theorem position_takeAt_add_le (he : e ∈ inner.pending)
    (he' : e ∈ (q.takeAt now max inner).2.pending) :
    (q.takeAt now max inner).2.position e + max ≤
      (q.requeued now inner).length + inner.position e := by
  have hnodup := q.nodup_requeued_append now h
  rw [q.takeAt_eq now max h] at he' ⊢
  -- the walk splits into what it has gone through and the rest
  obtain ⟨front, hfront⟩ : (q.scan now max inner).rest <:+ q.requeued now inner ++ inner.pending :=
    List.sift.rest_suffix _ _ _
  have hposition := idxOf_id_append hnodup he
  rw [← hfront] at hnodup hposition
  rw [idxOf_id_append hnodup he'] at hposition
  have hlength := List.sift.add_length_rest_le _ (List.ne_nil_of_mem he')
  rw [← scan, ← hfront, List.length_append] at hlength
  simp only [Inner.position]
  omega

/-- The leases that a poll puts back or drops are no longer ahead of the entry. -/
theorem card_leasesUntil_takeAt_add_le (hnow : now ≤ limit) (hlease : limit < now + q.lease) :
    ((q.takeAt now max inner).2.leasesUntil limit).card + (q.requeued now inner).length ≤
      (inner.leasesUntil limit).card := by
  have hids := List.pairwise_map.mpr ((q.pairwise_requeued now h).imp Nat.ne_of_lt)
  have hcard : ((q.requeued now inner).map Entry.id).toFinset.card =
      (q.requeued now inner).length := by
    rw [List.toFinset_card_of_nodup hids, List.length_map]
  rw [← hcard, ← Finset.card_union_of_disjoint]
  · refine Finset.card_le_card (Finset.union_subset ?_ ?_)
    · intro id hid
      obtain ⟨l, hl, hle⟩ := Inner.mem_leasesUntil.mp hid
      rcases q.lookup_takeAt_cases now max h hl with ⟨e, -, -, rfl⟩ | ⟨-, -, hl⟩
      · exact absurd hle (Nat.not_le_of_lt hlease)
      · exact Inner.mem_leasesUntil.mpr ⟨l, hl, hle⟩
    · intro id hid
      obtain ⟨e, he, rfl⟩ := List.mem_map.mp (List.mem_toFinset.mp hid)
      obtain ⟨⟨d, hl, hle⟩, -⟩ := (q.mem_requeued now h).mp he
      exact Inner.mem_leasesUntil.mpr ⟨_, hl, hle.trans hnow⟩
  · -- what is put back is handed out anew, or not leased
    refine Finset.disjoint_left.mpr fun id hid hid' => ?_
    obtain ⟨e, he, rfl⟩ := List.mem_map.mp (List.mem_toFinset.mp hid')
    obtain ⟨⟨d, hl, hle⟩, -⟩ := (q.mem_requeued now h).mp he
    obtain ⟨l, hl', hle'⟩ := Inner.mem_leasesUntil.mp hid
    rcases q.lookup_takeAt_cases now max h hl' with ⟨e', -, -, rfl⟩ | ⟨-, hlt, hl'⟩
    · exact absurd hle' (Nat.not_le_of_lt hlease)
    · rw [hl] at hl'
      cases hl'
      exact absurd hle (Nat.not_le_of_lt hlt)

/-- A call in the time of one lease that leaves the entry pending lowers the number of entries ahead
of it by what it asks for. -/
theorem ahead_step (he : e ∈ inner.pending) (he' : e ∈ (q.step inner op).pending)
    (hop : ∀ t, op.time? = some t → t ≤ limit ∧ limit < t + q.lease) :
    (q.step inner op).ahead limit e + op.demand ≤ inner.ahead limit e := by
  cases op with
  | enqueueAt now payload countKey =>
    have hposition := q.position_enqueueAt_le h he he'
    have hleases : (q.enqueueAt now payload countKey inner).leasesUntil limit =
        inner.leasesUntil limit := by
      rw [enqueueAt_eq]
      rfl
    simp only [Inner.ahead, step, Op.demand, hleases]
    omega
  | takeAt now max =>
    obtain ⟨hnow, hlease⟩ := hop now rfl
    have hposition := q.position_takeAt_add_le h he he'
    have hleases : ((q.takeAt now max inner).2.leasesUntil limit).card +
        (q.requeued now inner).length ≤ (inner.leasesUntil limit).card :=
      q.card_leasesUntil_takeAt_add_le h hnow hlease
    simp only [Inner.ahead, step, Op.demand]
    omega
  | ack ids =>
    have hposition : (ack ids inner).position e = inner.position e := by
      rw [Inner.position, (pending_ack ids inner).1, ← Inner.position]
    have hleases : (ack ids inner).leasesUntil limit ⊆ inner.leasesUntil limit := by
      intro id hid
      obtain ⟨l, hl, hle⟩ := Inner.mem_leasesUntil.mp hid
      rw [lookup_leased_ack] at hl
      split at hl
      next => cases hl
      next => exact Inner.mem_leasesUntil.mpr ⟨l, hl, hle⟩
    have hcard := Finset.card_le_card hleases
    simp only [Inner.ahead, step, Op.demand, hposition]
    omega

end Step

/-! ### A run of calls -/

/-- Under enough polls in the time of one lease, some call ends the wait of a pending entry. -/
theorem exists_exit (hpending : e ∈ (q.run pre).pending)
    (hmid : ∀ t ∈ mid.filterMap Op.time?, t ≤ limit ∧ limit < t + q.lease)
    (hdemand : (q.run pre).ahead limit e < demand mid) :
    ∃ mid₁ op mid₂, mid = mid₁ ++ op :: mid₂ ∧ e ∈ (q.run (pre ++ mid₁)).pending ∧
      e ∉ (q.step (q.run (pre ++ mid₁)) op).pending := by
  induction mid generalizing pre with
  | nil => exact absurd hdemand (Nat.not_lt_zero _)
  | cons op mid ih =>
    have hop : ∀ t, op.time? = some t → t ≤ limit ∧ limit < t + q.lease := fun t ht =>
      hmid t (List.mem_filterMap.mpr ⟨op, List.mem_cons_self, ht⟩)
    by_cases hstays : e ∈ (q.step (q.run pre) op).pending
    · -- the rest of the calls ask for more than what is still ahead
      have hstep := q.ahead_step (q.run_wf pre) hpending hstays hop
      rw [← run_concat] at hstays hstep
      have hrest : ∀ t ∈ mid.filterMap Op.time?, t ≤ limit ∧ limit < t + q.lease := fun t ht => by
        obtain ⟨op', hop', ht⟩ := List.mem_filterMap.mp ht
        exact hmid t (List.mem_filterMap.mpr ⟨op', List.mem_cons_of_mem _ hop', ht⟩)
      obtain ⟨mid₁, op', mid₂, rfl, hbefore, hafter⟩ := ih hstays hrest (by
        simp only [demand, List.map_cons, List.sum_cons] at hdemand ⊢
        omega)
      refine ⟨op :: mid₁, op', mid₂, rfl, ?_, ?_⟩
      · simpa using hbefore
      · simpa using hafter
    · exact ⟨[], op, mid, rfl, by simpa using hpending, by simpa using hstays⟩

/-- How an entry stops being pending: a poll hands it out or drops it because it is superseded or
too old, or an enqueue evicts it from a full buffer. -/
theorem exit_cases (hpending : e ∈ (q.run ops).pending)
    (hexit : e ∉ (q.step (q.run ops) op).pending) :
    (∃ now max, op = .takeAt now max ∧ (e.toPollEntry ∈ q.batch ops now max ∨ Superseded ops e ∨
      q.entryTtl ≤ now - e.enqueued)) ∨
    ∃ now payload countKey, op = .enqueueAt now payload countKey ∧
      q.maxEntries ≤ (q.run ops).pending.length := by
  have hwf := q.run_wf ops
  cases op with
  | enqueueAt now payload countKey =>
    refine Or.inr ⟨now, payload, countKey, rfl, ?_⟩
    by_contra hroom
    have hexcess : q.excess (q.run ops) = 0 := by
      rw [excess]
      omega
    rw [step, enqueueAt_eq, hexcess, List.drop_zero] at hexit
    exact hexit (List.mem_append_left _ hpending)
  | takeAt now max =>
    refine Or.inl ⟨now, max, rfl, ?_⟩
    rw [step, q.takeAt_eq now max hwf] at hexit
    have hwalk : e ∈ q.requeued now (q.run ops) ++ (q.run ops).pending :=
      List.mem_append_right _ hpending
    rcases (List.sift.mem_iff (n := max) (q.deliverable now (q.run ops).countIndex)).mp hwalk with
      htaken | hdropped | hrest
    · left
      rw [batch_eq]
      exact List.mem_map_of_mem htaken
    · right
      have hnot := List.sift.of_mem_dropped _ hdropped
      rcases (q.deliverable_eq_false_iff now).mp hnot with hstale | hold
      · left
        by_contra hs
        rw [(q.isLive_run_iff (Or.inl hpending)).mpr hs] at hstale
        cases hstale
      · exact Or.inr hold
    · exact absurd hrest hexit
  | ack ids =>
    rw [step, (pending_ack ids _).1] at hexit
    exact absurd hpending hexit

/-- No entry starves: when polls in the time of one lease ask for more entries than there are ahead
of a pending one, pending or leased until then, some call ends its wait. It is a poll that hands the
entry out or drops it because it is superseded or too old, or an enqueue that evicts it from a full
buffer. This holds for any calls in between, and without any ack. -/
theorem not_starved (pre mid : List Op) (hpending : e ∈ (q.run pre).pending)
    (hmid : ∀ t ∈ mid.filterMap Op.time?, t ≤ limit ∧ limit < t + q.lease)
    (hdemand : (q.run pre).ahead limit e < demand mid) :
    ∃ mid₁ op mid₂, mid = mid₁ ++ op :: mid₂ ∧ e ∈ (q.run (pre ++ mid₁)).pending ∧
      e ∉ (q.run (pre ++ mid₁ ++ [op])).pending ∧
      ((∃ now max, op = .takeAt now max ∧ (e.toPollEntry ∈ q.batch (pre ++ mid₁) now max ∨
        Superseded (pre ++ mid₁) e ∨ q.entryTtl ≤ now - e.enqueued)) ∨
      ∃ now payload countKey, op = .enqueueAt now payload countKey ∧
        q.maxEntries ≤ (q.run (pre ++ mid₁)).pending.length) := by
  obtain ⟨mid₁, op, mid₂, hmid, hbefore, hafter⟩ := q.exists_exit hpending hmid hdemand
  exact ⟨mid₁, op, mid₂, hmid, hbefore, by rwa [run_concat], q.exit_cases hbefore hafter⟩

/-- Two polls for two entries each get to the third one within a lease of 60. -/
theorem not_starved_third :
    let q : NotificationQueue := ⟨10, 3600, 60⟩
    let pre : List Op := [.enqueueAt 0 .null none, .enqueueAt 0 .null none, .enqueueAt 0 .null none]
    let mid : List Op := [.takeAt 10 2, .enqueueAt 20 .null none, .takeAt 30 2]
    ∃ mid₁ op mid₂, mid = mid₁ ++ op :: mid₂ ∧ ⟨2, 0, .null, none⟩ ∈ (q.run (pre ++ mid₁)).pending ∧
      ⟨2, 0, .null, none⟩ ∉ (q.run (pre ++ mid₁ ++ [op])).pending ∧
      ((∃ now max, op = .takeAt now max ∧
        ((⟨2, .null⟩ : PollEntry) ∈ q.batch (pre ++ mid₁) now max ∨
          Superseded (pre ++ mid₁) ⟨2, 0, .null, none⟩ ∨ 3600 ≤ now - 0)) ∨
      ∃ now payload countKey, op = .enqueueAt now payload countKey ∧
        10 ≤ (q.run (pre ++ mid₁)).pending.length) := by
  intro q pre mid
  have hpending : ⟨2, 0, .null, none⟩ ∈ (q.run pre).pending :=
    List.mem_append_right _ (List.mem_singleton.mpr rfl)
  have hmid : ∀ t ∈ mid.filterMap Op.time?, t ≤ 30 ∧ 30 < t + q.lease := by decide
  exact q.not_starved pre mid hpending hmid (by decide)

/-- Over more than a lease, an entry that is never acknowledged comes back before the other one. -/
example :
    let q : NotificationQueue := ⟨10, 3600, 60⟩
    (q.run [.enqueueAt 0 .null none, .enqueueAt 0 .null none, .takeAt 0 1, .takeAt 60 1,
      .takeAt 120 1]).pending.map Entry.id = [1] := by decide

end NotificationQueue

end Pincerbell
