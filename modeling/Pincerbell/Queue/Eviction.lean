import Pincerbell.Queue.Invariant

/-!
# What an eviction costs

A superseded count-only entry stays in `pending` until it surfaces, and the capacity counts it like
any other entry. The oldest entry is evicted first, so that a superseded entry in front of a live
one never costs it its place, but one behind it does.

* `isLive_claimed_iff` — which pending entries are live when an enqueue starts to evict.
* `evicts_live_iff` — the exact condition under which an enqueue evicts a live entry.
* `not_evicts_live` — a stream of badge updates evicts the only event entry of a buffer for three.
-/

namespace Pincerbell.NotificationQueue

variable (q : NotificationQueue) {ops : List Op} {now : Instant} {payload : Value}
  {countKey : Option CountKey} {e : Entry}

/-- When an enqueue starts to evict, the live entries are those that no entry supersedes, the new
one included. -/
theorem isLive_claimed_iff (hheld : (q.run ops).Held e) :
    isLive (claimed countKey (q.run ops)) e = true ↔
      ¬ Superseded (ops ++ [.enqueueAt now payload countKey]) e := by
  have hlt := (q.run_wf ops).held_lt hheld
  rw [q.superseded_concat, not_or, ← q.isLive_run_iff hheld]
  cases countKey with
  | none =>
    -- an event entry claims no key
    show isLive (q.run ops).countIndex e = true ↔ _
    refine (and_iff_left ?_).symm
    rintro ⟨hsome, e', hc, hkey, -⟩
    cases hc
    rw [← hkey] at hsome
    cases hsome
  | some k =>
    rw [isLive_iff, isLive_iff, claimed]
    constructor
    · intro hlive
      have hne : e.countKey ≠ some k := by
        intro hkey
        have hown := hlive k hkey
        rw [HashMap.lookup_insert, if_pos rfl] at hown
        have := Option.some_inj.mp hown
        omega
      refine ⟨fun k' hk' => ?_, ?_⟩
      · have hk : k' ≠ k := fun heq => hne (heq ▸ hk')
        have hown := hlive k' hk'
        rwa [HashMap.lookup_insert, if_neg hk] at hown
      · rintro ⟨-, e', hc, hkey, -⟩
        cases hc
        exact hne hkey.symm
    · rintro ⟨hlive, hnew⟩ k' hk'
      have hk : k' ≠ k := by
        rintro rfl
        exact hnew ⟨by simp [hk'], _, rfl, hk'.symm, hlt⟩
      rw [HashMap.lookup_insert, if_neg hk]
      exact hlive k' hk'

/-- An enqueue evicts a pending entry exactly when that entry and those behind it fill the
buffer. -/
theorem notMem_pending_enqueueAt_iff {front behind : List Entry}
    (hp : (q.run ops).pending = front ++ e :: behind) :
    e ∉ (q.run (ops ++ [.enqueueAt now payload countKey])).pending ↔
      q.maxEntries ≤ (e :: behind).length := by
  have hwf := q.run_wf ops
  have hlt : e.id < (q.run ops).nextId := hwf.pending_lt (by simp [hp])
  have hnodup := hwf.pending_nodup
  rw [hp, List.map_append, List.map_cons, List.nodup_append] at hnodup
  have hfront : e ∉ front := fun hmem =>
    hnodup.2.2 _ (List.mem_map_of_mem hmem) _ List.mem_cons_self rfl
  have hbehind : e ∉ behind := fun hmem =>
    (List.nodup_cons.mp hnodup.2.1).1 (List.mem_map_of_mem hmem)
  have hnew : e ≠ ⟨(q.run ops).nextId, now, payload, countKey⟩ := by
    rintro rfl
    exact Nat.lt_irrefl _ hlt
  have hexcess : q.excess (q.run ops) = front.length + (e :: behind).length + 1 - q.maxEntries := by
    rw [excess, hp, List.length_append]
  rw [run_concat]
  show e ∉ (q.enqueueAt now payload countKey (q.run ops)).pending ↔ _
  rw [enqueueAt_eq]
  simp only [List.mem_append, List.mem_singleton, hnew, or_false, hp, List.drop_append]
  by_cases hfull : q.maxEntries ≤ (e :: behind).length
  · -- the front and the entry itself are dropped
    refine iff_of_true ?_ hfull
    obtain ⟨n, hn⟩ : ∃ n, q.excess (q.run ops) - front.length = n + 1 :=
      Nat.exists_eq_succ_of_ne_zero (by omega)
    rw [hn, List.drop_succ_cons]
    rintro (hmem | hmem)
    · exact hfront (List.mem_of_mem_drop hmem)
    · exact hbehind (List.mem_of_mem_drop hmem)
  · -- there is room before the entry is reached
    refine iff_of_false (not_not.mpr (Or.inr ?_)) hfull
    have hzero : q.excess (q.run ops) - front.length = 0 := by omega
    rw [hzero, List.drop_zero]
    exact List.mem_cons_self

/-- An enqueue evicts a live entry exactly when the live entries of `pending` from that entry on,
together with the superseded entries behind it, fill the buffer. The superseded entries in front of
it are gone before it is popped, and do not count. -/
theorem evicts_live_iff (ops : List Op) (now : Instant) (payload : Value)
    (countKey : Option CountKey) :
    let live := isLive (claimed countKey (q.run ops))
    let ops' := ops ++ [.enqueueAt now payload countKey]
    (∀ e ∈ (q.run ops).pending, live e = true ↔ ¬ Superseded ops' e) ∧
    ∀ front e behind, (q.run ops).pending = front ++ e :: behind → live e = true →
      (e ∉ (q.run ops').pending ↔
        q.maxEntries ≤ (e :: behind).countP live + behind.countP fun e' => !live e') := by
  intro live ops'
  refine ⟨fun e hp => q.isLive_claimed_iff (Or.inl hp), fun front e behind hp hlive => ?_⟩
  -- each entry from this one on is live or not
  have hcount : (e :: behind).countP live + (behind.countP fun e' => !live e') =
      (e :: behind).length := by
    have hlen := List.length_eq_countP_add_countP live (l := behind)
    rw [List.countP_cons, hlive, if_pos rfl, List.length_cons, hlen]
    simp only [Bool.not_eq_true, Bool.decide_eq_false]
    omega
  rw [hcount]
  exact q.notMem_pending_enqueueAt_iff hp

/-- A buffer for three holds an event entry and two count-only entries of one device. The third
count-only entry of the device evicts the event entry, with one live entry pending. -/
theorem not_evicts_live :
    ¬ ∀ (q : NotificationQueue) (ops : List Op) (now : Instant) (payload : Value)
        (countKey : Option CountKey) (e : Entry),
      let ops' := ops ++ [.enqueueAt now payload countKey]
      1 ≤ q.maxEntries → Clocked ops' → e ∈ (q.run ops).pending → ¬ Superseded ops' e →
        e ∉ (q.run ops').pending →
        q.maxEntries ≤ (q.run ops).pending.countP fun e' => decide (¬ Superseded ops' e') := by
  intro h
  let k : CountKey := ("app", "pk")
  let ops : List Op :=
    [.enqueueAt 0 .null none, .enqueueAt 1 .null (some k), .enqueueAt 2 .null (some k)]
  let ops' := ops ++ [.enqueueAt 3 .null (some k)]
  let e : Entry := ⟨0, 0, .null, none⟩
  have hmem : e ∈ ((NotificationQueue.mk 3 3600 60).run ops).pending := List.mem_cons_self
  -- the oldest entry makes room, although those behind it are superseded
  have hgone : e ∉ ((NotificationQueue.mk 3 3600 60).run ops').pending := by
    intro hin
    have hid : e.id ∈ ((NotificationQueue.mk 3 3600 60).run ops').pending.map Entry.id :=
      List.mem_map_of_mem hin
    exact absurd hid (by decide)
  have hle := h ⟨3, 3600, 60⟩ ops 3 .null (some k) e (by decide) (by decide) hmem (by decide) hgone
  exact absurd hle (by decide)

end Pincerbell.NotificationQueue
