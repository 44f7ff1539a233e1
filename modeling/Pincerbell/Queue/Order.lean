import Pincerbell.Queue.Invariant

/-!
# The order of `pending`

`takeAt` puts reclaimed entries back in front of `pending`, as the oldest ones. They need not be:
a batch smaller than what was reclaimed leaves old entries pending, and a newer entry whose lease
ends later is then put in front of them.

* `OldestFirst` — the order that a run should keep.
* `ReclaimsOldest` — the reclaimed entries of a poll are older than all that stays pending.
* `oldestFirst_iff` — a run keeps the order exactly when each of its polls meets that condition.
* `not_oldestFirst` — a run of three leases that does not.
-/

namespace Pincerbell.NotificationQueue

variable (q : NotificationQueue) {inner : Inner} {ops : List Op}

/-- `pending` is in id order after every call, every batch is in id order and older than what it
leaves pending, and an enqueue evicts the oldest entries. -/
def OldestFirst (ops : List Op) : Prop :=
  (∀ pre, pre <+: ops → (q.run pre).pending.Pairwise fun e e' => e.id < e'.id) ∧
  (∀ pre now max, pre ++ [.takeAt now max] <+: ops →
    ((q.batch pre now max).map PollEntry.id).Pairwise (· < ·) ∧
      ∀ p ∈ q.batch pre now max, ∀ e ∈ (q.run (pre ++ [.takeAt now max])).pending, p.id < e.id) ∧
  (∀ pre now payload countKey, pre ++ [.enqueueAt now payload countKey] <+: ops →
    ∀ e ∈ (q.run pre).pending,
      e ∉ (q.run (pre ++ [.enqueueAt now payload countKey])).pending →
      ∀ e' ∈ (q.run (pre ++ [.enqueueAt now payload countKey])).pending, e.id < e'.id)

/-- Each entry that the poll puts back is older than each pending entry, except those that the poll
drops: they are not deliverable, and fewer than `max` deliverable entries are in front of them. -/
def ReclaimsOldest (now : Instant) (max : ℕ) (inner : Inner) : Prop :=
  ∀ e ∈ q.requeued now inner, ∀ e' ∈ inner.pending, e.id < e'.id ∨
    (q.deliverable now inner.countIndex e' = false ∧
      ((q.requeued now inner ++ inner.pending).takeWhile fun x => x.id ≠ e'.id).countP
        (q.deliverable now inner.countIndex) < max)

/-- If `pending` is in order, a poll keeps order exactly when what it puts back is older. -/
theorem pairwise_scan_iff (now : Instant) (max : ℕ) (h : inner.WF)
    (hsorted : inner.pending.Pairwise fun e e' => e.id < e'.id) :
    ((q.scan now max inner).taken ++ (q.scan now max inner).rest).Pairwise
        (fun e e' => e.id < e'.id) ↔ q.ReclaimsOldest now max inner := by
  have hnodup := q.nodup_requeued_append now h
  have hrequeued := q.pairwise_requeued now h
  rw [scan, List.sift.pairwise_taken_append_rest_iff _ Entry.id max hnodup, List.pairwise_append]
  have hdropped : ∀ e' ∈ inner.pending, _ := fun e' he' =>
    List.sift.mem_dropped_iff (q.deliverable now inner.countIndex) Entry.id max hnodup
      (List.mem_append_right _ he')
  constructor
  · rintro ⟨-, -, hcross⟩ e he e' he'
    rw [← hdropped e' he', or_iff_not_imp_right]
    refine hcross e he e' he' fun hdrop => ?_
    -- what is put back is deliverable, and nothing deliverable is dropped
    have hdel := ((q.mem_requeued now h).mp he).2
    rw [List.sift.of_mem_dropped _ hdrop] at hdel
    cases hdel
  · intro hcond
    refine ⟨?_, ?_, ?_⟩
    · exact hrequeued.imp fun hlt _ _ => hlt
    · exact hsorted.imp fun hlt _ _ => hlt
    · intro e he e' he' _ hkept
      have hor := hcond e he e' he'
      rw [← hdropped e' he'] at hor
      exact hor.resolve_right hkept

/-- A run whose polls put back only what is oldest keeps `pending` in order. -/
theorem pairwise_pending_run
    (hcond : ∀ pre now max, pre ++ [.takeAt now max] <+: ops →
      q.ReclaimsOldest now max (q.run pre)) :
    (q.run ops).pending.Pairwise fun e e' => e.id < e'.id := by
  induction ops using List.reverseRecOn with
  | nil => exact List.Pairwise.nil
  | append_singleton ops op ih =>
    have hsorted := ih fun pre now max hpre => hcond pre now max (hpre.trans ⟨[op], rfl⟩)
    have hwf := q.run_wf ops
    rw [run_concat]
    cases op with
    | enqueueAt now payload countKey =>
      -- the new id is above all others
      rw [step, enqueueAt_eq, List.pairwise_append]
      refine ⟨hsorted.sublist (List.drop_sublist _ _), List.pairwise_singleton _ _, ?_⟩
      intro e he e' he'
      obtain rfl := List.mem_singleton.mp he'
      exact hwf.pending_lt (List.mem_of_mem_drop he)
    | takeAt now max =>
      have horder := (q.pairwise_scan_iff now max hwf hsorted).mpr
        (hcond ops now max List.prefix_rfl)
      show (q.takeAt now max (q.run ops)).2.pending.Pairwise _
      rw [q.takeAt_eq now max hwf]
      exact (List.pairwise_append.mp horder).2.1
    | ack ids =>
      rw [step, (pending_ack ids _).1]
      exact hsorted

/-- A run keeps the order exactly when each of its polls puts back only what is older than all that
stays pending. -/
theorem oldestFirst_iff (ops : List Op) :
    q.OldestFirst ops ↔
      ∀ pre now max, pre ++ [.takeAt now max] <+: ops →
        q.ReclaimsOldest now max (q.run pre) := by
  have hrest : ∀ pre now max,
      (q.run (pre ++ [.takeAt now max])).pending = (q.scan now max (q.run pre)).rest := by
    intro pre now max
    rw [run_concat]
    show (q.takeAt now max (q.run pre)).2.pending = _
    rw [q.takeAt_eq now max (q.run_wf pre)]
  constructor
  -- order before and after a poll says that what it put back was older
  · rintro ⟨hpending, hbatch, -⟩ pre now max hpre
    have hsorted := hpending pre ((List.prefix_append _ _).trans hpre)
    rw [← q.pairwise_scan_iff now max (q.run_wf pre) hsorted, List.pairwise_append]
    obtain ⟨hids, hlt⟩ := hbatch pre now max hpre
    rw [map_id_batch] at hids
    refine ⟨List.pairwise_map.mp hids, hrest pre now max ▸ hpending _ hpre, ?_⟩
    intro e he e' he'
    refine hlt e.toPollEntry ?_ e' (hrest pre now max ▸ he')
    rw [batch_eq]
    exact List.mem_map_of_mem he
  · intro hcond
    have hsorted : ∀ pre, pre <+: ops →
        (q.run pre).pending.Pairwise fun e e' => e.id < e'.id := fun pre hpre =>
      q.pairwise_pending_run fun pre' now max hpre' => hcond pre' now max (hpre'.trans hpre)
    refine ⟨hsorted, ?_, ?_⟩
    -- a batch is in order, and in front of what stays pending
    · intro pre now max hpre
      have horder := (q.pairwise_scan_iff now max (q.run_wf pre)
        (hsorted pre ((List.prefix_append _ _).trans hpre))).mpr (hcond pre now max hpre)
      obtain ⟨htaken, -, hlt⟩ := List.pairwise_append.mp horder
      rw [map_id_batch, batch_eq, hrest]
      refine ⟨List.pairwise_map.mpr htaken, fun p hp e' he' => ?_⟩
      obtain ⟨e, he, rfl⟩ := List.mem_map.mp hp
      exact hlt e he e' he'
    -- what an enqueue evicts is in front of what stays, and the new entry comes last
    · intro pre now payload countKey hpre e he hgone e' he'
      have hpending : (q.run (pre ++ [.enqueueAt now payload countKey])).pending =
          (q.run pre).pending.drop (q.excess (q.run pre)) ++
            [⟨(q.run pre).nextId, now, payload, countKey⟩] := by
        rw [run_concat, step, enqueueAt_eq]
      rw [hpending, List.mem_append] at hgone he'
      rw [not_or] at hgone
      have hsplit := List.take_append_drop (q.excess (q.run pre)) (q.run pre).pending
      have hpre' := hsorted pre ((List.prefix_append _ _).trans hpre)
      rw [← hsplit] at he hpre'
      have hevicted := (List.mem_append.mp he).resolve_right hgone.1
      rcases he' with he' | he'
      · exact (List.pairwise_append.mp hpre').2.2 e hevicted e' he'
      · obtain rfl := List.mem_singleton.mp he'
        exact (q.run_wf pre).pending_lt (List.mem_of_mem_take hevicted)

/-- Entries `0` and `1` are leased until time `60`, entry `2` until time `70`. A poll at time `60`
takes only `0` and leaves `1` pending, so that the poll at time `70` puts `2` in front of `1` and
returns `[2, 1]`. -/
theorem not_oldestFirst :
    let ops : List Op := [.enqueueAt 0 .null none, .enqueueAt 0 .null none, .takeAt 0 2,
      .enqueueAt 10 .null none, .takeAt 10 1, .takeAt 60 1, .takeAt 70 2]
    Clocked ops ∧ (∀ op ∈ ops, ∀ now max, op = .takeAt now max → 1 ≤ max) ∧
      ¬ (NotificationQueue.mk 10000 3600 60).OldestFirst ops := by
  intro ops
  refine ⟨by decide, by simp [ops], ?_⟩
  rintro ⟨-, hbatch, -⟩
  have hids := (hbatch [.enqueueAt 0 .null none, .enqueueAt 0 .null none, .takeAt 0 2,
    .enqueueAt 10 .null none, .takeAt 10 1, .takeAt 60 1] 70 2 List.prefix_rfl).1
  exact absurd hids (by decide)

end Pincerbell.NotificationQueue
