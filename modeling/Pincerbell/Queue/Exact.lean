import Mathlib.Data.Set.Card
import Pincerbell.Queue.Invariant

/-!
# What a poll returns

A poll owes its caller the entries that are pending or whose lease has ended, as long as they are
live and younger than the entry TTL. It hands out as many of these as fit in the batch, keeps the
others pending, and touches no lease that is still running.

* `Due` — the entries that a poll owes.
* `mem_dueList` — they are what the walk of the poll finds deliverable.
* `takeAt_exact` — the whole guarantee, after any run.
-/

namespace Pincerbell.NotificationQueue

variable (q : NotificationQueue) {ops : List Op} {now : Instant} {max : ℕ} {inner : Inner}
  {e : Entry}

/-- The entry is pending or its lease has ended, and it is live and not too old. -/
def Due (now : Instant) (inner : Inner) (e : Entry) : Prop :=
  (e ∈ inner.pending ∨ ∃ d, inner.leased.lookup e.id = some (d, e) ∧ d ≤ now) ∧
    isLive inner.countIndex e = true ∧ now - e.enqueued < q.entryTtl

/-- The deliverable entries that a poll walks over, in their order. -/
def dueList (now : Instant) (inner : Inner) : List Entry :=
  (q.requeued now inner ++ inner.pending).filter (q.deliverable now inner.countIndex)

theorem deliverable_iff {countIndex : HashMap CountKey ℕ} :
    q.deliverable now countIndex e = true ↔
      isLive countIndex e = true ∧ now - e.enqueued < q.entryTtl := by
  simp [deliverable]

/-- The walk of a poll finds what is due. -/
theorem mem_dueList (h : inner.WF) : e ∈ q.dueList now inner ↔ q.Due now inner e := by
  rw [dueList, List.mem_filter, List.mem_append, q.mem_requeued now h, deliverable_iff, Due]
  constructor
  · rintro ⟨⟨hlease, -⟩ | hp, hdel⟩
    · exact ⟨Or.inr hlease, hdel⟩
    · exact ⟨Or.inl hp, hdel⟩
  · rintro ⟨hp | hlease, hdel⟩
    · exact ⟨Or.inr hp, hdel⟩
    · exact ⟨Or.inl ⟨hlease, hdel⟩, hdel⟩

/-- No entry is due twice. -/
theorem nodup_dueList (h : inner.WF) : (q.dueList now inner).Nodup :=
  List.Nodup.of_map Entry.id
    (List.Nodup.sublist (List.filter_sublist.map _) (q.nodup_requeued_append now h))

/-- The number of due entries. -/
theorem ncard_due (h : inner.WF) :
    {e | q.Due now inner e}.ncard = (q.dueList now inner).length := by
  classical
  have hset : {e | q.Due now inner e} = ((q.dueList now inner).toFinset : Set Entry) := by
    ext e
    simp [q.mem_dueList h]
  rw [hset, Set.ncard_coe_finset, List.toFinset_card_of_nodup (q.nodup_dueList h)]

/-- The batch is the first part of what is due. -/
theorem batch_eq_take (ops : List Op) (now : Instant) (max : ℕ) :
    q.batch ops now max =
      ((q.dueList now (q.run ops)).take max).map Entry.toPollEntry := by
  rw [batch_eq, scan, List.sift.taken_eq, dueList]

/-- A due entry is returned or stays pending. -/
theorem Due.returned_or_pending (hdue : q.Due now (q.run ops) e) (max : ℕ) :
    e.toPollEntry ∈ q.batch ops now max ∨
      e ∈ (q.run (ops ++ [.takeAt now max])).pending := by
  have hmem := (q.mem_dueList (q.run_wf ops)).mpr hdue
  obtain ⟨hwalk, hdel⟩ := List.mem_filter.mp hmem
  rcases (List.sift.mem_iff (n := max) (q.deliverable now (q.run ops).countIndex)).mp hwalk with
    ht | hd | hr
  · left
    rw [batch_eq]
    exact List.mem_map_of_mem ht
  · rw [List.sift.of_mem_dropped _ hd] at hdel
    cases hdel
  · right
    rw [run_concat]
    show e ∈ (q.takeAt now max (q.run ops)).2.pending
    rw [q.takeAt_eq now max (q.run_wf ops)]
    exact hr

/-- A poll supersedes nothing, so that what it leaves behind is as live as before. -/
theorem isLive_of_pending_takeAt (hlive : isLive (q.run ops).countIndex e = true)
    (hheld : (q.run ops).Held e) (hp : e ∈ (q.run (ops ++ [.takeAt now max])).pending) :
    isLive (q.run (ops ++ [.takeAt now max])).countIndex e = true := by
  rw [q.isLive_run_iff (Or.inl hp), q.superseded_concat]
  rintro (hs | ⟨-, e', hc, -⟩)
  · exact (q.isLive_run_iff hheld).mp hlive hs
  · cases hc

/-- After any run, a poll returns as many entries as it may of those that are due, each once and
with its own payload, and leases them. The due entries that do not fit stay pending and live, and
running leases are untouched. A batch is empty exactly when nothing is due. -/
theorem takeAt_exact (ops : List Op) (now : Instant) (max : ℕ) :
    let inner := q.run ops
    let after := q.run (ops ++ [.takeAt now max])
    let batch := q.batch ops now max
    batch.length = min max {e | q.Due now inner e}.ncard ∧
    (batch.map PollEntry.id).Nodup ∧
    (∀ p ∈ batch, ∃ e, q.Due now inner e ∧ e.toPollEntry = p ∧
      after.leased.lookup e.id = some (now + q.lease, e)) ∧
    (∀ e, q.Due now inner e → e.toPollEntry ∉ batch →
      e ∈ after.pending ∧ isLive after.countIndex e = true) ∧
    (∀ id d e, inner.leased.lookup id = some (d, e) → now < d →
      after.leased.lookup id = some (d, e)) ∧
    (1 ≤ max → (batch = [] ↔ ∀ e, ¬ q.Due now inner e)) := by
  intro inner after batch
  have hwf := q.run_wf ops
  have hbatch : batch = ((q.dueList now inner).take max).map Entry.toPollEntry :=
    q.batch_eq_take ops now max
  have hafter : after = (q.takeAt now max inner).2 := q.run_concat ops _
  refine ⟨?_, ?_, ?_, ?_, ?_, ?_⟩
  · rw [hbatch, q.ncard_due hwf, List.length_map, List.length_take]
  · show ((q.batch ops now max).map PollEntry.id).Nodup
    rw [map_id_batch]
    have hnodup := q.nodup_scan now max hwf
    rw [List.map_append, List.map_append] at hnodup
    exact (List.nodup_append.mp (List.nodup_append.mp hnodup).1).1
  · intro p hp
    rw [show batch = _ from q.batch_eq ops now max] at hp
    obtain ⟨e, he, rfl⟩ := List.mem_map.mp hp
    refine ⟨e, ?_, rfl, ?_⟩
    · rw [scan, List.sift.taken_eq] at he
      exact (q.mem_dueList hwf).mp (List.mem_of_mem_take he)
    · rw [hafter]
      exact q.lookup_takeAt_of_taken now max hwf he
  · intro e hdue hnot
    have hp := (hdue.returned_or_pending q max).resolve_left hnot
    refine ⟨hp, q.isLive_of_pending_takeAt hdue.2.1 ?_ hp⟩
    exact hdue.1.imp_right fun ⟨d, hl, _⟩ => ⟨d, hl⟩
  · intro id d e hl hlt
    rw [hafter]
    exact q.lookup_takeAt_of_running now max hwf hl hlt
  · intro hpos
    rw [hbatch, List.map_eq_nil_iff, List.take_eq_nil_iff, List.eq_nil_iff_forall_not_mem]
    refine ⟨fun h e hdue => ?_, fun h => Or.inr fun e he => ?_⟩
    · rcases h with hzero | hnone
      · exact absurd hpos (by omega)
      · exact hnone e ((q.mem_dueList hwf).mpr hdue)
    · exact h e ((q.mem_dueList hwf).mp he)

end Pincerbell.NotificationQueue
