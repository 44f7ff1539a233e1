import Mathlib.Data.List.Sort
import Pincerbell.Queue.Invariant

/-!
# The queue refines a shelf

What the queue is for, without its representation. A shelf knows what was enqueued, which of it
waits in which order, and until when the rest is lent. It has no count index and forgets nothing: a
count-only entry is stale when the history has a newer one of its key. A poll takes back what is
overdue, oldest first, by looking through the history instead of sorting the keys of a map.

* `Shelf` — the abstract queue.
* `Shelf.enqueue`, `Shelf.take`, `Shelf.settle` — its operations.
* `Represents` — how a state of the queue and a shelf are related.
* `refines_shelf` — after any calls with any clock values, a poll of the queue returns what a poll
  of the shelf returns.
-/

namespace Pincerbell.NotificationQueue

/-! ### The shelf -/

/-- What was enqueued, what waits and what is lent. -/
structure Shelf where
  /-- Everything that was enqueued, oldest first. -/
  history : List Entry := []
  /-- What waits, in the order in which it is handed out. -/
  waiting : List Entry := []
  /-- Until when the entry of an id is lent. -/
  lent : ℕ → Option Instant := fun _ => none

namespace Shelf

variable (q : NotificationQueue) (shelf : Shelf)

/-- The history has no newer count-only entry of the key. -/
def isNewest (e : Entry) : Bool :=
  shelf.history.all fun e' => e.countKey = none ∨ e'.countKey ≠ e.countKey ∨ e'.id ≤ e.id

/-- A poll may hand out the entry. -/
def isDue (now : Instant) (e : Entry) : Bool :=
  shelf.isNewest e && decide (now - e.enqueued < q.entryTtl)

/-- Put a new entry behind the others, and give up the first ones when the shelf is full. -/
def enqueue (now : Instant) (payload : Value) (countKey : Option CountKey) : Shelf :=
  let e : Entry := ⟨shelf.history.length, now, payload, countKey⟩
  { shelf with
    history := shelf.history ++ [e]
    waiting := shelf.waiting.drop (shelf.waiting.length + 1 - q.maxEntries) ++ [e] }

/-- What is overdue and may be handed out again, oldest first. -/
def overdue (now : Instant) : List Entry :=
  shelf.history.filter fun e => (shelf.lent e.id).any (· ≤ now) && shelf.isDue q now e

/-- The walk of a poll. -/
def walk (now : Instant) (max : ℕ) : List.Sifted Entry :=
  (shelf.overdue q now ++ shelf.waiting).sift (shelf.isDue q now) max

/-- Lend what a poll hands out, and take back what is overdue. -/
def take (now : Instant) (max : ℕ) : List PollEntry × Shelf :=
  ((shelf.walk q now max).taken.map Entry.toPollEntry,
    { shelf with
      waiting := (shelf.walk q now max).rest
      lent := fun id =>
        if id ∈ (shelf.walk q now max).taken.map Entry.id then some (now + q.lease)
        else (shelf.lent id).filter (now < ·) })

/-- What is settled is no longer lent. -/
def settle (ids : List ℕ) : Shelf :=
  { shelf with lent := fun id => if id ∈ ids then none else shelf.lent id }

/-- The shelf after a call. -/
def step : Op → Shelf
  | .enqueueAt now payload countKey => shelf.enqueue q now payload countKey
  | .takeAt now max => (shelf.take q now max).2
  | .ack ids => shelf.settle ids

/-- The shelf after the calls. -/
def run (ops : List Op) : Shelf := ops.foldl (Shelf.step q) {}

theorem run_concat (ops : List Op) (op : Op) : run q (ops ++ [op]) = (run q ops).step q op := by
  simp [run]

end Shelf

/-! ### The representation -/

variable {q : NotificationQueue} {ops : List Op} {shelf : Shelf} {e : Entry} {now : Instant}
  {max : ℕ}

/-- The shelf that the queue represents after the calls. -/
structure Represents (q : NotificationQueue) (ops : List Op) (shelf : Shelf) : Prop where
  history : shelf.history = enqueued ops
  waiting : shelf.waiting = (q.run ops).pending
  lent : ∀ id, shelf.lent id = ((q.run ops).leased.lookup id).map Prod.fst

theorem Represents.nil (q : NotificationQueue) : Represents q [] {} :=
  ⟨rfl, rfl, fun _ => rfl⟩

/-- The history tells what is stale. -/
theorem Represents.isNewest_iff (h : Represents q ops shelf) :
    shelf.isNewest e = true ↔ ¬ Superseded ops e := by
  rw [Shelf.isNewest, h.history, List.all_eq_true, Superseded, not_and']
  constructor
  · rintro hall ⟨e', he', hkey, hlt⟩
    have he' := hall e' he'
    simp only [decide_eq_true_eq] at he'
    rcases he' with hnone | hne | hle
    · simp [hnone]
    · exact absurd hkey hne
    · omega
  · intro hnot e' he'
    by_contra hno
    simp only [decide_eq_true_eq, not_or, not_not, Nat.not_le] at hno
    obtain ⟨hsome, hkey, hlt⟩ := hno
    exact hnot ⟨e', he', hkey, hlt⟩ (Option.isSome_iff_ne_none.mpr hsome)

/-- For what is stored, the count index tells the same. -/
theorem Represents.isDue_eq (h : Represents q ops shelf) (hheld : (q.run ops).Held e) :
    shelf.isDue q now e = q.deliverable now (q.run ops).countIndex e := by
  have hlive : shelf.isNewest e = isLive (q.run ops).countIndex e := by
    rw [Bool.eq_iff_iff, h.isNewest_iff, q.isLive_run_iff hheld]
  rw [Shelf.isDue, hlive, deliverable]

/-- What is lent in the history is what is leased. -/
theorem Represents.mem_overdue (h : Represents q ops shelf) :
    e ∈ shelf.overdue q now ↔ e ∈ q.requeued now (q.run ops) := by
  rw [q.mem_requeued now (q.run_wf ops), Shelf.overdue, List.mem_filter, h.history, h.lent,
    Bool.and_eq_true]
  constructor
  · rintro ⟨he, hover, hdue⟩
    obtain ⟨d, hd, hle⟩ := (Option.any_eq_true _ _).mp hover
    obtain ⟨⟨d, e'⟩, hl, rfl⟩ := Option.map_eq_some_iff.mp hd
    -- the lease under the id of the entry is its own
    obtain ⟨he', hid⟩ := q.enqueued_of_leased hl
    obtain rfl := enqueued_inj he' he hid
    refine ⟨⟨d, hl, of_decide_eq_true hle⟩, ?_⟩
    rwa [← h.isDue_eq (Or.inr ⟨d, hl⟩)]
  · rintro ⟨⟨d, hl, hle⟩, hdel⟩
    refine ⟨(q.enqueued_of_leased hl).1, ?_, ?_⟩
    · rw [hl]
      exact decide_eq_true hle
    · rwa [h.isDue_eq (Or.inr ⟨d, hl⟩)]

/-- In the same order. -/
theorem Represents.overdue_eq (h : Represents q ops shelf) (now : Instant) :
    shelf.overdue q now = q.requeued now (q.run ops) := by
  have hsorted : (shelf.overdue q now).Pairwise fun e e' => e.id < e'.id := by
    rw [Shelf.overdue, h.history]
    exact (pairwise_enqueued ops).filter _
  -- a list in strict order is determined by its elements
  have : Std.Antisymm fun e e' : Entry => e.id < e'.id :=
    ⟨fun _ _ hlt hgt => absurd hlt (Nat.lt_asymm hgt)⟩
  have : Std.Irrefl fun e e' : Entry => e.id < e'.id := ⟨fun _ => Nat.lt_irrefl _⟩
  exact hsorted.eq_of_mem_iff (q.pairwise_requeued now (q.run_wf ops)) fun e => h.mem_overdue

/-- A poll walks over the same entries with the same result. -/
theorem Represents.walk_eq (h : Represents q ops shelf) (now : Instant) (max : ℕ) :
    shelf.walk q now max = q.scan now max (q.run ops) := by
  rw [Shelf.walk, scan, h.overdue_eq, h.waiting]
  refine List.sift.congr _ fun e he => h.isDue_eq ?_
  rcases List.mem_append.mp he with hrequeued | hpending
  · obtain ⟨⟨d, hl, -⟩, -⟩ := (q.mem_requeued now (q.run_wf ops)).mp hrequeued
    exact Or.inr ⟨d, hl⟩
  · exact Or.inl hpending

/-! ### The calls -/

theorem Represents.enqueue (h : Represents q ops shelf) (now : Instant) (payload : Value)
    (countKey : Option CountKey) :
    Represents q (ops ++ [.enqueueAt now payload countKey])
      (shelf.enqueue q now payload countKey) where
  history := by
    rw [Shelf.enqueue, q.enqueued_concat, h.history, created, q.nextId_run]
    rfl
  waiting := by
    rw [run_concat, step, enqueueAt_eq, Shelf.enqueue, h.waiting, h.history, q.nextId_run, excess]
  lent id := by
    rw [run_concat, step, enqueueAt_eq]
    exact h.lent id

theorem Represents.take (h : Represents q ops shelf) (now : Instant) (max : ℕ) :
    Represents q (ops ++ [.takeAt now max]) (shelf.take q now max).2 where
  history := by
    rw [q.enqueued_concat]
    simpa [created, Shelf.take] using h.history
  waiting := by
    rw [run_concat, step, q.takeAt_eq now max (q.run_wf ops), Shelf.take, h.walk_eq]
  lent id := by
    have hwf := q.run_wf ops
    rw [run_concat, step, Shelf.take, h.walk_eq]
    by_cases hid : id ∈ (q.scan now max (q.run ops)).taken.map Entry.id
    · -- handed out
      simp only [if_pos hid]
      obtain ⟨e, he, rfl⟩ := List.mem_map.mp hid
      rw [q.lookup_takeAt_of_taken now max hwf he]
      rfl
    · -- taken back when its time is over
      simp only [if_neg hid]
      rw [q.lookup_takeAt_of_not_taken now max hwf hid, h.lent]
      cases hl : (q.run ops).leased.lookup id with
      | none => simp
      | some l =>
        by_cases hle : l.1 ≤ now
        · have hmem : id ∈ expiredIds now (q.run ops) := (mem_expiredIds now).mpr ⟨l, hl, hle⟩
          simp [hmem, hle]
        · have hnot : id ∉ expiredIds now (q.run ops) := by
            rw [mem_expiredIds]
            rintro ⟨l', hl', hle'⟩
            cases hl.symm.trans hl'
            exact hle hle'
          simp [hnot, Nat.lt_of_not_le hle]

theorem Represents.settle (h : Represents q ops shelf) (ids : List ℕ) :
    Represents q (ops ++ [.ack ids]) (shelf.settle ids) where
  history := by
    rw [q.enqueued_concat]
    simpa [created, Shelf.settle] using h.history
  waiting := by
    rw [run_concat, step, (pending_ack ids _).1]
    exact h.waiting
  lent id := by
    rw [run_concat, step, lookup_leased_ack, Shelf.settle]
    simp only [h.lent]
    split <;> rfl

/-! ### Runs -/

/-- After the same calls, the queue represents the shelf. -/
theorem represents_run (q : NotificationQueue) (ops : List Op) :
    Represents q ops (Shelf.run q ops) := by
  induction ops using List.reverseRecOn with
  | nil => exact .nil q
  | append_singleton ops op ih =>
    rw [Shelf.run_concat]
    cases op with
    | enqueueAt now payload countKey => exact ih.enqueue now payload countKey
    | takeAt now max => exact ih.take now max
    | ack ids => exact ih.settle ids

/-- After any calls, whatever clock values they have read, a poll of the queue returns what a poll
of the shelf returns. So neither the count index nor what is forgotten of it can be observed, nor
the order of the map of leases. -/
theorem refines_shelf (q : NotificationQueue) (ops : List Op) (now : Instant) (max : ℕ) :
    q.batch ops now max = ((Shelf.run q ops).take q now max).1 := by
  rw [batch_eq, Shelf.take, (represents_run q ops).walk_eq]

end Pincerbell.NotificationQueue
