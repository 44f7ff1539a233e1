import Pincerbell.Queue.Invariant

/-!
# Every entry is accounted for

At the end of a run each entry that was ever enqueued is in exactly one situation: it is stored in
one of the two containers, or one call of the run removed it, for one of four reasons. The reasons
are read off the call and the state before it, and for a poll they follow the order of its checks:
a stale entry is dropped as such, whatever its age.

* `Leaves` — the call of the run at which an entry leaves the queue.
* `InSituation` — the six situations.
* `existsUnique_inSituation` — every enqueued entry is in exactly one of them.
-/

namespace Pincerbell

namespace NotificationQueue

/-- Where an entry of a run can be at its end. -/
inductive Situation
  | pending | leased | settled | evicted | expired | superseded
  deriving DecidableEq

variable (q : NotificationQueue)

/-- The call `op` after the calls `pre` is the one of the run at which `e` leaves the queue. -/
def Leaves (ops : List Op) (e : Entry) (pre : List Op) (op : Op) : Prop :=
  (∃ suf, ops = pre ++ op :: suf) ∧ (q.run pre).Held e ∧ ¬ (q.run (pre ++ [op])).Held e

/-- What each situation means. -/
def InSituation (ops : List Op) (e : Entry) : Situation → Prop
  | .pending =>
    e ∈ (q.run ops).pending ∧ ((q.run ops).pending.map Entry.id).count e.id = 1
  | .leased =>
    (∃ d, (q.run ops).leased.lookup e.id = some (d, e)) ∧
      ((q.run ops).leased.values.map fun l => l.2.id).count e.id = 1
  | .settled =>
    ∃ pre ids, q.Leaves ops e pre (.ack ids) ∧ e.id ∈ ids ∧
      ∃ d, (q.run pre).leased.lookup e.id = some (d, e)
  | .evicted =>
    ∃ pre now payload countKey, q.Leaves ops e pre (.enqueueAt now payload countKey) ∧
      e ∈ (q.run pre).pending ∧ q.maxEntries ≤ (q.run pre).pending.length
  | .expired =>
    ∃ pre now max, q.Leaves ops e pre (.takeAt now max) ∧
      isLive (q.run pre).countIndex e = true ∧ e.enqueued + q.entryTtl ≤ now
  | .superseded =>
    ∃ pre now max, q.Leaves ops e pre (.takeAt now max) ∧ Superseded pre e

variable {q} {ops pre pre' : List Op} {op op' : Op} {e : Entry}

/-- What leaves at a call is removed by it. -/
theorem Leaves.mem_removed (h : q.Leaves ops e pre op) : e ∈ q.removed (q.run pre) op := by
  obtain ⟨-, hheld, hgone⟩ := h
  rw [run_concat, q.held_step (q.run_wf pre), not_or] at hgone
  by_contra hkept
  exact hgone.2 ⟨hheld, hkept⟩

/-- An enqueued entry that is no longer stored has left at some call. -/
theorem exists_leaves (he : e ∈ enqueued ops) (hgone : ¬ (q.run ops).Held e) :
    ∃ pre op, q.Leaves ops e pre op := by
  induction ops using List.reverseRecOn with
  | nil => cases he
  | append_singleton ops op ih =>
    by_cases hheld : (q.run ops).Held e
    · exact ⟨ops, op, ⟨[], rfl⟩, hheld, hgone⟩
    · -- not stored before the last call either, so it is not the one that this call creates
      have hold : e ∈ enqueued ops := by
        rcases (q.mem_enqueued_concat).mp he with he | hc
        · exact he
        · apply absurd _ hgone
          rw [run_concat, q.held_step (q.run_wf ops)]
          exact Or.inl hc
      obtain ⟨pre, op', ⟨suf, rfl⟩, hleave⟩ := ih hold hheld
      exact ⟨pre, op', ⟨suf ++ [op], by simp⟩, hleave⟩

/-- After the call at which it leaves, an entry is not stored. -/
theorem Leaves.not_held (h : q.Leaves ops e pre op) : ¬ (q.run ops).Held e := by
  obtain ⟨⟨suf, rfl⟩, hheld, hgone⟩ := h
  have he : e ∈ enqueued (pre ++ [op]) :=
    mem_enqueued_append ((q.inv_run pre).held_enqueued hheld)
  simpa using q.not_held_append he hgone suf

/-- An entry leaves at one call only. -/
theorem Leaves.unique (h : q.Leaves ops e pre op) (h' : q.Leaves ops e pre' op') :
    pre = pre' ∧ op = op' := by
  -- the call that leaves first would leave nothing for the other one
  have hlt : ∀ {pre op pre' op'}, q.Leaves ops e pre op → q.Leaves ops e pre' op' →
      ¬ pre.length < pre'.length := by
    rintro pre op pre' op' ⟨⟨suf, rfl⟩, hheld, hgone⟩ ⟨⟨suf', heq⟩, hheld', -⟩ hlen
    have hsub : pre ++ [op] <+: pre' := by
      refine List.prefix_of_prefix_length_le ⟨suf, by simp⟩ ⟨op' :: suf', heq.symm⟩ ?_
      simpa [Nat.succ_le_iff] using hlen
    obtain ⟨mid, rfl⟩ := hsub
    have he : e ∈ enqueued (pre ++ [op]) :=
      mem_enqueued_append ((q.inv_run pre).held_enqueued hheld)
    exact q.not_held_append he hgone mid hheld'
  have hlen : pre.length = pre'.length :=
    Nat.le_antisymm (Nat.le_of_not_lt (hlt h' h)) (Nat.le_of_not_lt (hlt h h'))
  obtain ⟨⟨suf, hsplit⟩, -⟩ := h
  obtain ⟨⟨suf', hsplit'⟩, -⟩ := h'
  obtain ⟨hpre, hrest⟩ := List.append_inj (hsplit.symm.trans hsplit') hlen
  exact ⟨hpre, (List.cons.inj hrest).1⟩

variable (q) in
/-- The situation of an entry that left at the call `op` after `pre`. -/
def exitOf (pre : List Op) (e : Entry) : Op → Situation
  | .enqueueAt _ _ _ => .evicted
  | .ack _ => .settled
  | .takeAt _ _ => if isLive (q.run pre).countIndex e then .expired else .superseded

/-- An entry that left is in the situation that its last call and state tell. -/
theorem Leaves.inSituation_exitOf (hclock : Clocked ops) (h : q.Leaves ops e pre op) :
    q.InSituation ops e (q.exitOf pre e op) := by
  have hwf := q.run_wf pre
  have hr := h.mem_removed
  obtain ⟨suf, hsplit⟩ := h.1
  have hheld := h.2.1
  cases op with
  | enqueueAt now payload countKey =>
    refine ⟨pre, now, payload, countKey, h, List.mem_of_mem_take hr, ?_⟩
    -- with room for the new entry nothing is evicted
    by_contra hroom
    have hzero : q.excess (q.run pre) = 0 := by
      rw [excess]
      omega
    rw [removed, hzero] at hr
    cases hr
  | ack ids =>
    obtain ⟨hid, hl⟩ := (q.mem_removed_ack hwf).mp hr
    exact ⟨pre, ids, h, hid, hl⟩
  | takeAt now max =>
    -- dropped while reclaiming or while handing out, for the same two reasons
    have hdel : q.deliverable now (q.run pre).countIndex e = false := by
      rcases List.mem_append.mp hr with hl | hd
      · exact ((q.mem_lapsed now hwf).mp hl).2
      · exact List.sift.of_mem_dropped _ hd
    rw [exitOf]
    split
    next hlive =>
      -- staleness is checked first, so a live entry was dropped for its age
      have hold : q.entryTtl ≤ now - e.enqueued := by
        rcases (q.deliverable_eq_false_iff now).mp hdel with hstale | hold
        · rw [hlive] at hstale
          cases hstale
        · exact hold
      have hle : e.enqueued ≤ now :=
        Clocked.enqueued_le (hsplit ▸ hclock) rfl ((q.inv_run pre).held_enqueued hheld)
      exact ⟨pre, now, max, h, hlive, (Nat.le_sub_iff_add_le' hle).mp hold⟩
    next hstale =>
      rw [q.isLive_run_iff hheld, not_not] at hstale
      exact ⟨pre, now, max, h, hstale⟩

/-- An entry that left is in no other situation. -/
theorem Leaves.eq_exitOf {s : Situation} (h : q.Leaves ops e pre op)
    (hs : q.InSituation ops e s) : s = q.exitOf pre e op := by
  cases s with
  | pending => exact absurd (Or.inl hs.1) h.not_held
  | leased => exact absurd (Or.inr hs.1) h.not_held
  | settled =>
    obtain ⟨pre', ids, h', -⟩ := hs
    -- an entry leaves at one step only
    obtain ⟨rfl, rfl⟩ := h.unique h'
    rfl
  | evicted =>
    obtain ⟨pre', now, payload, countKey, h', -⟩ := hs
    obtain ⟨rfl, rfl⟩ := h.unique h'
    rfl
  | expired =>
    obtain ⟨pre', now, max, h', hlive, -⟩ := hs
    obtain ⟨rfl, rfl⟩ := h.unique h'
    rw [exitOf, if_pos hlive]
  | superseded =>
    obtain ⟨pre', now, max, h', hsup⟩ := hs
    obtain ⟨rfl, rfl⟩ := h.unique h'
    rw [exitOf, if_neg]
    rw [q.isLive_run_iff h.2.1, not_not]
    exact hsup

/-- A stored entry is stored once. -/
theorem exists_inSituation_of_held (hheld : (q.run ops).Held e) :
    ∃ s, q.InSituation ops e s := by
  have hwf := q.run_wf ops
  rcases hheld with hp | ⟨d, hl⟩
  · exact ⟨.pending, hp, List.count_eq_one_of_mem hwf.pending_nodup (List.mem_map_of_mem hp)⟩
  · -- leases are kept under the ids of their entries, and keys are distinct
    refine ⟨.leased, ⟨d, hl⟩, List.count_eq_one_of_mem ?_ ?_⟩
    · have hkeys : (q.run ops).leased.values.map (fun l => l.2.id) = (q.run ops).leased.keys := by
        rw [HashMap.values, AList.keys, List.keys, List.map_map]
        refine List.map_congr_left fun l hmem => ?_
        exact hwf.own (AList.mem_lookup_iff.mpr hmem)
      rw [hkeys]
      exact (q.run ops).leased.keys_nodup
    · exact List.mem_map.mpr ⟨(d, e), HashMap.mem_values_iff.mpr ⟨_, hl⟩, rfl⟩

/-- A stored entry is in no situation of one that left, and in one of the two containers. -/
theorem InSituation.unique_of_held {s s' : Situation} (hheld : (q.run ops).Held e)
    (h : q.InSituation ops e s) (h' : q.InSituation ops e s') : s = s' := by
  -- an entry that is held has not left
  have hstored : ∀ {s}, q.InSituation ops e s → s = .pending ∨ s = .leased := by
    intro s h
    cases s with
    | pending => exact Or.inl rfl
    | leased => exact Or.inr rfl
    | settled =>
      obtain ⟨pre, ids, hleave, -⟩ := h
      exact absurd hheld hleave.not_held
    | evicted =>
      obtain ⟨pre, now, payload, countKey, hleave, -⟩ := h
      exact absurd hheld hleave.not_held
    | expired =>
      obtain ⟨pre, now, max, hleave, -⟩ := h
      exact absurd hheld hleave.not_held
    | superseded =>
      obtain ⟨pre, now, max, hleave, -⟩ := h
      exact absurd hheld hleave.not_held
  -- and it is not in both places
  have hdisj : q.InSituation ops e .pending → q.InSituation ops e .leased → False := by
    rintro ⟨hp, -⟩ ⟨⟨d, hl⟩, -⟩
    rw [(q.run_wf ops).disjoint hp] at hl
    cases hl
  rcases hstored h with rfl | rfl <;> rcases hstored h' with rfl | rfl
  · rfl
  · exact (hdisj h h').elim
  · exact (hdisj h' h).elim
  · rfl

variable (q)

/-- In a run whose clock does not go back, every entry that was enqueued ends in exactly one
situation: none is lost, brought back or stored twice. -/
theorem existsUnique_inSituation (ops : List Op) (hclock : Clocked ops) (e : Entry)
    (he : e ∈ enqueued ops) : ∃! s, q.InSituation ops e s := by
  by_cases hheld : (q.run ops).Held e
  -- stored: pending or leased
  · obtain ⟨s, hs⟩ := exists_inSituation_of_held hheld
    exact ⟨s, hs, fun s' hs' => hs'.unique_of_held hheld hs⟩
  -- gone: the call at which it left tells the situation
  · obtain ⟨pre, op, hleave⟩ := exists_leaves he hheld
    exact ⟨_, hleave.inSituation_exitOf hclock, fun s' hs' => hleave.eq_exitOf hs'⟩

/-- Two entries are handed out, and the second is acknowledged. -/
theorem existsUnique_inSituation_acked :
    ∃! s, (NotificationQueue.mk 10 3600 60).InSituation
      [.enqueueAt 0 .null none, .enqueueAt 5 .null none, .takeAt 7 2, .ack [1]]
      ⟨1, 5, .null, none⟩ s :=
  existsUnique_inSituation _ _ (by decide) _ (by simp [enqueued, enqueuedFrom])

end NotificationQueue

end Pincerbell
