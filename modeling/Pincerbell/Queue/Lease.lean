import Pincerbell.Queue.Invariant

/-!
# Leases and acknowledgements

A lease keeps its entry from every other poll until it ends, and an acknowledgement keeps it from
every later one.

* `lookup_step_of_lt` — what a call before the deadline can do to a lease: nothing, or settle it.
* `lookup_run_of_lt` — the same for a run of calls before the deadline.
* `lease_exclusive` — both guarantees over a run, with the age bound of what a poll returns.
-/

namespace Pincerbell

namespace NotificationQueue

variable {q : NotificationQueue} {inner : Inner} {ops : List Op} {op : Op} {e : Entry}
  {d : Instant}

/-- A call that reads no clock value past the deadline leaves a lease alone or settles it. -/
theorem lookup_step_of_lt (h : inner.WF) (hl : inner.leased.lookup e.id = some (d, e))
    (hop : ∀ t, op.time? = some t → t < d) :
    (q.step inner op).leased.lookup e.id = some (d, e) ∨ ¬ (q.step inner op).Held e := by
  cases op with
  | enqueueAt now payload countKey =>
    left
    rw [step, enqueueAt_eq]
    exact hl
  | takeAt now max =>
    -- the lease has not ended, so its entry is neither put back nor handed out
    left
    exact q.lookup_takeAt_of_running now max h hl (hop now rfl)
  | ack ids =>
    by_cases hid : e.id ∈ ids
    · -- the lease is settled
      right
      show ¬ (ack ids inner).Held e
      rw [q.held_ack ids h, q.mem_removed_ack h]
      exact fun hheld => hheld.2 ⟨hid, d, hl⟩
    · left
      show (ack ids inner).leased.lookup e.id = _
      rw [lookup_leased_ack, if_neg hid, hl]

/-- Before its deadline a lease is untouched, or its entry has been settled for good. -/
theorem lookup_run_of_lt (hl : (q.run ops).leased.lookup e.id = some (d, e)) (mid : List Op)
    (hmid : ∀ t ∈ mid.filterMap Op.time?, t < d) :
    (q.run (ops ++ mid)).leased.lookup e.id = some (d, e) ∨ ¬ (q.run (ops ++ mid)).Held e := by
  induction mid using List.reverseRecOn with
  | nil =>
    left
    simpa using hl
  | append_singleton mid op ih =>
    rw [List.filterMap_append] at hmid
    have hop : ∀ t, op.time? = some t → t < d := by
      intro t ht
      apply hmid
      simp [ht]
    rw [← List.append_assoc]
    rcases ih fun t ht => hmid t (List.mem_append_left _ ht) with hl' | hgone
    · rw [run_concat]
      exact lookup_step_of_lt (q.run_wf _) hl' hop
    · -- what is gone stays gone
      right
      have he := (q.inv_run ops).held_enqueued (Or.inr ⟨d, hl⟩)
      exact q.not_held_append (mem_enqueued_append he) hgone [op]

/-- An entry that two polls return is returned by the second no earlier than when the lease that
the first one gave has ended. -/
theorem lease_le_of_mem_batch {pre mid suf : List Op} {t t' : Instant} {max max' : ℕ}
    (hclock : Clocked (pre ++ .takeAt t max :: (mid ++ .takeAt t' max' :: suf))) {id : ℕ}
    (hid : id ∈ (q.batch pre t max).map PollEntry.id)
    (hid' : id ∈ (q.batch (pre ++ .takeAt t max :: mid) t' max').map PollEntry.id) :
    t + q.lease ≤ t' := by
  rw [map_id_batch] at hid hid'
  obtain ⟨e, he, rfl⟩ := List.mem_map.mp hid
  obtain ⟨e', he', hid'⟩ := List.mem_map.mp hid'
  obtain ⟨hheld', -, hlease'⟩ := q.of_mem_taken he'
  have hl : (q.run (pre ++ [.takeAt t max])).leased.lookup e.id = some (t + q.lease, e) := by
    rw [run_concat]
    exact q.lookup_takeAt_of_taken t max (q.run_wf pre) he
  -- otherwise every call in between comes before the deadline
  by_contra hlt
  have hmid : ∀ u ∈ mid.filterMap Op.time?, u < t + q.lease := fun u hu =>
    lt_of_le_of_lt (hclock.time_le rfl hu) (Nat.lt_of_not_le hlt)
  have hsplit : pre ++ .takeAt t max :: mid = pre ++ [.takeAt t max] ++ mid := by simp
  rw [hsplit] at hheld' hlease'
  rcases lookup_run_of_lt hl mid hmid with hl' | hgone
  -- still leased, or settled: the second poll could not have returned it
  · exact hlt (hlease' _ e (hid' ▸ hl'))
  · have hmem := (q.inv_run (pre ++ [.takeAt t max])).held_enqueued (Or.inr ⟨_, hl⟩)
    have hmem' := (q.inv_run _).held_enqueued hheld'
    exact hgone (enqueued_inj hmem' (mem_enqueued_append hmem) hid' ▸ hheld')

/-- What an acknowledgement names while it is leased is never returned again. -/
theorem notMem_batch_of_ack {pre mid : List Op} {ids : List ℕ} {id : ℕ} (hid : id ∈ ids)
    (hleased : ((q.run pre).leased.lookup id).isSome) (now : Instant) (max : ℕ) :
    id ∉ (q.batch (pre ++ .ack ids :: mid) now max).map PollEntry.id := by
  intro hin
  obtain ⟨⟨d, e⟩, hl⟩ := Option.isSome_iff_exists.mp hleased
  obtain rfl := (q.run_wf pre).own hl
  rw [map_id_batch] at hin
  obtain ⟨e', he', hid'⟩ := List.mem_map.mp hin
  have hheld' := (q.of_mem_taken he').1
  have hmem := (q.inv_run pre).held_enqueued (Or.inr ⟨d, hl⟩)
  -- the acknowledgement removes the entry for good
  have hgone : ¬ (q.run (pre ++ [.ack ids])).Held e := by
    rw [run_concat, q.held_step (q.run_wf pre), not_or]
    refine ⟨by simp [created], fun hkept => hkept.2 ?_⟩
    exact (q.mem_removed_ack (q.run_wf pre)).mpr ⟨hid, d, hl⟩
  have hsplit : pre ++ .ack ids :: mid = pre ++ [.ack ids] ++ mid := by simp
  rw [hsplit] at hheld'
  have hmem' := (q.inv_run _).held_enqueued hheld'
  -- what is returned later under the id is the same entry
  have hsame := enqueued_inj hmem' (mem_enqueued_append (mem_enqueued_append hmem)) hid'
  exact q.not_held_append (mem_enqueued_append hmem) hgone mid (hsame ▸ hheld')

/-- What a poll returns was enqueued less than the entry TTL ago. -/
theorem age_lt_of_mem_batch {now : Instant} {max : ℕ} {p : PollEntry}
    (hp : p ∈ q.batch ops now max) :
    ∃ e ∈ enqueued ops, e.toPollEntry = p ∧ now - e.enqueued < q.entryTtl := by
  rw [batch_eq] at hp
  obtain ⟨e, he, rfl⟩ := List.mem_map.mp hp
  obtain ⟨hheld, hdel, -⟩ := q.of_mem_taken he
  refine ⟨e, (q.inv_run ops).held_enqueued hheld, rfl, ?_⟩
  simp only [deliverable, Bool.and_eq_true, decide_eq_true_eq] at hdel
  exact hdel.2

variable (q)

/-- In a run whose clock does not go back, leases exclude other polls, an acknowledgement of a
leased entry is final, and no poll returns an entry that is too old. -/
theorem lease_exclusive (ops : List Op) (hclock : Clocked ops) :
    (∀ pre t max mid t' max' suf id,
      ops = pre ++ .takeAt t max :: (mid ++ .takeAt t' max' :: suf) →
      id ∈ (q.batch pre t max).map PollEntry.id →
      id ∈ (q.batch (pre ++ .takeAt t max :: mid) t' max').map PollEntry.id →
      t + q.lease ≤ t') ∧
    (∀ pre ids mid now max suf id,
      ops = pre ++ .ack ids :: (mid ++ .takeAt now max :: suf) →
      id ∈ ids → ((q.run pre).leased.lookup id).isSome →
      id ∉ (q.batch (pre ++ .ack ids :: mid) now max).map PollEntry.id) ∧
    (∀ pre now max suf, ops = pre ++ .takeAt now max :: suf →
      ∀ p ∈ q.batch pre now max,
        ∃ e ∈ enqueued pre, e.toPollEntry = p ∧ now - e.enqueued < q.entryTtl) := by
  refine ⟨?_, ?_, ?_⟩
  · rintro pre t max mid t' max' suf id rfl hid hid'
    exact lease_le_of_mem_batch hclock hid hid'
  · rintro pre ids mid now max suf id - hid hleased
    exact notMem_batch_of_ack hid hleased now max
  · rintro pre now max suf - p hp
    exact age_lt_of_mem_batch hp

/-- Entry `0` is returned at time `0`, again at time `70` when its lease of 60 has ended, and never
after the acknowledgement that follows. -/
theorem lease_exclusive_relet :
    let q : NotificationQueue := ⟨10, 3600, 60⟩
    let pre : List Op := [.enqueueAt 0 .null none]
    let mid : List Op := [.takeAt 0 1, .ack [7]]
    0 + 60 ≤ 70 ∧
      0 ∉ (q.batch (pre ++ mid ++ [.takeAt 70 1] ++ [.ack [0]]) 200 1).map PollEntry.id ∧
      ∃ e ∈ enqueued (pre ++ mid), e.id = 0 ∧ 70 - e.enqueued < 3600 := by
  intro q pre mid
  have h := q.lease_exclusive (pre ++ mid ++ [.takeAt 70 1, .ack [0], .takeAt 200 1]) (by decide)
  refine ⟨?_, ?_, ?_⟩
  · exact h.1 pre 0 1 [.ack [7]] 70 1 _ 0 rfl (by decide) (by decide)
  · have hack := h.2.1 (pre ++ mid ++ [.takeAt 70 1]) [0] [] 200 1 [] 0 rfl (by decide)
    exact hack (by decide)
  · have hid : 0 ∈ (q.batch (pre ++ mid) 70 1).map PollEntry.id := by decide
    obtain ⟨p, hp, hid⟩ := List.mem_map.mp hid
    obtain ⟨e, he, rfl, hage⟩ := h.2.2 (pre ++ mid) 70 1 _ rfl p hp
    exact ⟨e, he, hid, hage⟩

end NotificationQueue

end Pincerbell
