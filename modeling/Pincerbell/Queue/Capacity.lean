import Pincerbell.Queue.Invariant

/-!
# The capacity of `pending`

`enqueueAt` evicts until `pending` has room for its entry, so that it never leaves more than
`maxEntries` behind. `takeAt` puts reclaimed entries back without looking at the capacity, and only
what its batch then removes can make up for it.

* `WithinCapacity` — the bound, in every state of a run.
* `RemovesExcess` — the poll hands out or drops what is beyond the capacity.
* `withinCapacity_iff` — a run keeps the bound exactly when each of its polls does that.
* `not_withinCapacity` — a run that does not.
-/

namespace Pincerbell.NotificationQueue

variable (q : NotificationQueue) {ops : List Op}

/-- `pending` never holds more than `maxEntries`. -/
def WithinCapacity (ops : List Op) : Prop :=
  ∀ pre, pre <+: ops → (q.run pre).pending.length ≤ q.maxEntries

/-- What the poll puts back and what is pending fit in the buffer, or the poll gets past all but
`maxEntries` of them: of the others, apart from the last one, fewer than `max` are deliverable. -/
def RemovesExcess (now : Instant) (max : ℕ) (inner : Inner) : Prop :=
  let walk := q.requeued now inner ++ inner.pending
  walk.length ≤ q.maxEntries ∨
    (walk.take (walk.length - q.maxEntries - 1)).countP (q.deliverable now inner.countIndex) < max

instance (now : Instant) (max : ℕ) (inner : Inner) : Decidable (q.RemovesExcess now max inner) := by
  unfold RemovesExcess
  infer_instance

/-- A poll leaves at most `maxEntries` pending exactly when it removes the excess. -/
theorem length_pending_takeAt_iff (pre : List Op) (now : Instant) (max : ℕ) :
    (q.run (pre ++ [.takeAt now max])).pending.length ≤ q.maxEntries ↔
      q.RemovesExcess now max (q.run pre) := by
  have hrest : (q.run (pre ++ [.takeAt now max])).pending = (q.scan now max (q.run pre)).rest := by
    rw [run_concat]
    show (q.takeAt now max (q.run pre)).2.pending = _
    rw [q.takeAt_eq now max (q.run_wf pre)]
  rw [hrest, scan, List.sift.length_rest_le_iff, RemovesExcess]

/-- Whatever was pending, an enqueue leaves at most `maxEntries`. -/
theorem length_pending_enqueueAt_le (hpos : 1 ≤ q.maxEntries) (now : Instant) (payload : Value)
    (countKey : Option CountKey) (inner : Inner) :
    (q.enqueueAt now payload countKey inner).pending.length ≤ q.maxEntries := by
  rw [enqueueAt_eq]
  simp only [List.length_append, List.length_drop, List.length_singleton, excess]
  omega

/-- With room for at least one entry, a run keeps `pending` within its capacity exactly when each
of its polls hands out or drops what is beyond. -/
theorem withinCapacity_iff (hpos : 1 ≤ q.maxEntries) (ops : List Op) :
    q.WithinCapacity ops ↔
      ∀ pre now max, pre ++ [.takeAt now max] <+: ops → q.RemovesExcess now max (q.run pre) := by
  constructor
  · intro hcap pre now max hpre
    exact (q.length_pending_takeAt_iff pre now max).mp (hcap _ hpre)
  -- by induction on the run: an enqueue always makes room, and an ack leaves `pending` alone
  · intro hcond pre hpre
    induction pre using List.reverseRecOn with
    | nil => exact Nat.zero_le _
    | append_singleton pre op ih =>
      have hle := ih ((List.prefix_append pre [op]).trans hpre)
      cases op with
      | enqueueAt now payload countKey =>
        rw [run_concat]
        exact q.length_pending_enqueueAt_le hpos now payload countKey _
      | takeAt now max => exact (q.length_pending_takeAt_iff pre now max).mpr (hcond _ _ _ hpre)
      | ack ids =>
        rw [run_concat, step, (pending_ack ids _).1]
        exact hle

/-- A buffer for one entry, and two polls. -/
theorem withinCapacity_iff_one :
    (NotificationQueue.mk 1 3600 60).WithinCapacity
        [.enqueueAt 0 .null none, .takeAt 2 1, .enqueueAt 3 .null none, .takeAt 4 1] ↔
      ∀ pre now max, pre ++ [.takeAt now max] <+:
        [.enqueueAt 0 .null none, .takeAt 2 1, .enqueueAt 3 .null none, .takeAt 4 1] →
        (NotificationQueue.mk 1 3600 60).RemovesExcess now max
          ((NotificationQueue.mk 1 3600 60).run pre) :=
  withinCapacity_iff _ (by decide) _

/-- A buffer for one entry. Entries `0` and `1` are leased one after the other, `2` is pending when
both leases have ended, and the poll at time `70` puts two entries back but hands out one: `1` and
`2` stay pending. -/
theorem not_withinCapacity :
    let ops : List Op := [.enqueueAt 0 .null none, .takeAt 0 1, .enqueueAt 1 .null none,
      .takeAt 1 1, .enqueueAt 2 .null none, .takeAt 70 1]
    Clocked ops ∧ (∀ op ∈ ops, ∀ now max, op = .takeAt now max → 1 ≤ max) ∧
      ¬ (NotificationQueue.mk 1 3600 60).WithinCapacity ops := by
  intro ops
  refine ⟨by decide, by simp [ops], fun hcap => ?_⟩
  exact absurd (hcap ops List.prefix_rfl) (by decide)

end Pincerbell.NotificationQueue
