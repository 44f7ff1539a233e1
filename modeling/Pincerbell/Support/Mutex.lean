import Pincerbell.Support.History

/-!
# A lock that a panic poisons

A call on a locked value either returns with a new value or panics, and then leaves the value as it
was at that moment. The lock is poisoned from there on, so that every later call panics as well and
finds nothing it could change.

* `Mutex.call`, `Mutex.calls` — one call, and a list of calls.
* `Mutex.Returns` — every body returns, with the value of a total function.
* `Mutex.not_poisoned_calls_iff` — that is exactly when the lock is free of poison.
-/

variable {σ α : Type}

/-- A value behind a lock. -/
structure Mutex (σ : Type) where
  value : σ
  poisoned : Bool := false

namespace Mutex

/-- One call. The body returns the new value, or panics and leaves a value behind. -/
def call (body : σ → Except σ σ) (m : Mutex σ) : Mutex σ :=
  if m.poisoned then m
  else
    match body m.value with
    | .ok s => ⟨s, false⟩
    | .error s => ⟨s, true⟩

/-- A list of calls, one after the other. -/
def calls (body : α → σ → Except σ σ) (m : Mutex σ) (as : List α) : Mutex σ :=
  as.foldl (fun m a => m.call (body a)) m

theorem calls_concat (body : α → σ → Except σ σ) (m : Mutex σ) (as : List α) (a : α) :
    m.calls body (as ++ [a]) = (m.calls body as).call (body a) := by
  simp [calls]

/-- A poisoned lock stays as it is. -/
theorem call_of_poisoned {m : Mutex σ} (h : m.poisoned = true) (body : σ → Except σ σ) :
    m.call body = m := if_pos h

variable {body : α → σ → Except σ σ} {f : σ → α → σ} {s : σ}

/-- Every body of a list of calls returns, with the value that the total function `f` gives. -/
def Returns (body : α → σ → Except σ σ) (f : σ → α → σ) (s : σ) (as : List α) : Prop :=
  ∀ pre a post, as = pre ++ a :: post → body a (pre.foldl f s) = .ok (f (pre.foldl f s) a)

/-- A split of a longer list is a split of the shorter one, or the last call. -/
theorem returns_concat (as : List α) (a : α) :
    Returns body f s (as ++ [a]) ↔
      Returns body f s as ∧ body a (as.foldl f s) = .ok (f (as.foldl f s) a) :=
  History.forall_splits_concat (P := fun pre a _ =>
    body a (pre.foldl f s) = .ok (f (pre.foldl f s) a))

/-- When every body returns, the lock holds what the total function computes. -/
theorem calls_of_returns {as : List α} (h : Returns body f s as) :
    calls body ⟨s, false⟩ as = ⟨as.foldl f s, false⟩ := by
  induction as using List.reverseRecOn with
  | nil => rfl
  | append_singleton as a ih =>
    obtain ⟨hpre, hlast⟩ := (returns_concat as a).mp h
    rw [calls_concat, ih hpre, call, if_neg Bool.false_ne_true, hlast, List.foldl_append]
    rfl

/-- If a body only ever returns what the total function `f` gives, then the lock is free of poison
after a list of calls exactly when every one of them returns. -/
theorem not_poisoned_calls_iff
    (hbody : ∀ (as : List α) a s', body a (as.foldl f s) = .ok s' → s' = f (as.foldl f s) a)
    (as : List α) : (calls body ⟨s, false⟩ as).poisoned = false ↔ Returns body f s as := by
  induction as using List.reverseRecOn with
  | nil => simp [calls, Returns]
  | append_singleton as a ih =>
    rw [calls_concat, returns_concat, ← ih]
    cases hp : (calls body ⟨s, false⟩ as).poisoned with
    | true => simp [call_of_poisoned hp, hp]
    | false =>
      rw [calls_of_returns (ih.mp hp), call, if_neg Bool.false_ne_true]
      dsimp only
      split
      next s' hcall =>
        rw [hcall, hbody as a s' hcall]
        simp
      next s' hcall => simp [hcall]

end Mutex
