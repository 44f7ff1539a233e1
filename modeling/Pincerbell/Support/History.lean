import Mathlib.Data.List.Induction

/-!
# Histories of a step function

A system takes steps that may be impossible in its present state. Its history is the list of the
steps that it has taken, and what holds of a run is proved along its history, one step at a time.

* `run` — the state after a list of steps, if they are all possible.
* `run_induction` — what holds at the start and is kept by each step holds of every run.
* `countP_le_of_weight` — a weight bounds how often one kind of step can be taken by how often
  another one is.
* `forall_splits_concat` — a statement about every place in a history that is one step longer.
-/

namespace History

variable {σ α : Type}

/-- A place in a list with one more element is a place in the list, or the new end. -/
theorem concat_eq_append_cons_iff {as pre post : List α} {a x : α} :
    as ++ [a] = pre ++ x :: post ↔
      (as = pre ∧ a = x ∧ post = []) ∨ ∃ post', post = post' ++ [a] ∧ as = pre ++ x :: post' := by
  constructor
  · intro has
    rcases List.eq_nil_or_concat post with rfl | ⟨post', b, rfl⟩
    · obtain ⟨rfl, heq⟩ := List.append_inj' has rfl
      exact Or.inl ⟨rfl, by simpa using heq, rfl⟩
    · rw [List.concat_eq_append, ← List.cons_append, ← List.append_assoc] at has
      obtain ⟨rfl, heq⟩ := List.append_inj' has rfl
      obtain rfl : a = b := by simpa using heq
      exact Or.inr ⟨post', List.concat_eq_append, rfl⟩
  · rintro (⟨rfl, rfl, rfl⟩ | ⟨post', rfl, rfl⟩)
    · rfl
    · rw [List.append_assoc, List.cons_append]

/-- Where only the last element can be such, it is the one. -/
theorem exists_mem_concat_iff {P : α → Prop} {as : List α} {a : α} (h : ∀ b ∈ as, ¬ P b) :
    (∃ b ∈ as ++ [a], P b) ↔ P a := by
  constructor
  · rintro ⟨b, hb, hP⟩
    rcases List.mem_append.mp hb with hb | hb
    · exact absurd hP (h b hb)
    · obtain rfl := List.mem_singleton.mp hb
      exact hP
  · intro hP
    exact ⟨a, by simp, hP⟩

/-- A statement about every place in a list with one more element. -/
theorem forall_splits_concat {P : List α → α → List α → Prop} {as : List α} {a : α} :
    (∀ pre x post, as ++ [a] = pre ++ x :: post → P pre x post) ↔
      (∀ pre x post, as = pre ++ x :: post → P pre x (post ++ [a])) ∧ P as a [] := by
  constructor
  · intro h
    refine ⟨fun pre x post has => ?_, h as a [] rfl⟩
    exact h pre x (post ++ [a]) (concat_eq_append_cons_iff.mpr (Or.inr ⟨post, rfl, has⟩))
  · rintro ⟨hpre, hlast⟩ pre x post has
    rcases concat_eq_append_cons_iff.mp has with ⟨rfl, rfl, rfl⟩ | ⟨post', rfl, heq⟩
    · exact hlast
    · exact hpre pre x post' heq

/-! ### Runs -/

/-- The state after a list of steps, if each of them was possible. -/
def run (step : σ → α → Option σ) (s : σ) (as : List α) : Option σ := as.foldlM step s

variable {step : σ → α → Option σ} {s t : σ}

@[simp]
theorem run_nil : run step s [] = some s := rfl

/-- The last step of a run starts from where the others lead. -/
theorem run_concat_eq_some_iff {as : List α} {a : α} {t' : σ} :
    run step s (as ++ [a]) = some t' ↔ ∃ t, run step s as = some t ∧ step t a = some t' := by
  simp [run, List.foldlM_append, Option.bind_eq_some_iff]

/-- What holds at the start, and is kept by each step, holds of every run. -/
theorem run_induction {P : List α → σ → Prop} (hnil : P [] s)
    (hstep : ∀ as t a t', P as t → step t a = some t' → P (as ++ [a]) t') {as : List α}
    (hrun : run step s as = some t) : P as t := by
  induction as using List.reverseRecOn generalizing t with
  | nil =>
    obtain rfl : s = t := by simpa using hrun
    exact hnil
  | append_singleton as a ih =>
    obtain ⟨t', hpre, hlast⟩ := run_concat_eq_some_iff.mp hrun
    exact hstep as t' a t (ih hpre) hlast

/-- A run goes on from where its first part leads. -/
theorem run_append_eq_some_iff {as as' : List α} {t' : σ} :
    run step s (as ++ as') = some t' ↔ ∃ t, run step s as = some t ∧ run step t as' = some t' := by
  simp [run, List.foldlM_append, Option.bind_eq_some_iff]

/-- When each step that spends takes one off the weight, and only a step that earns adds one to it,
no more is spent than was there at the start and has been earned. -/
theorem countP_le_of_weight (weight : σ → ℕ) {spends earns : α → Bool}
    (hstep : ∀ t a t', step t a = some t' →
      weight t' + (spends a).toNat ≤ weight t + (earns a).toNat)
    {as : List α} (hrun : run step s as = some t) :
    weight t + as.countP spends ≤ weight s + as.countP earns := by
  refine run_induction (P := fun as t => weight t + as.countP spends ≤ weight s + as.countP earns)
    (by simp) ?_ hrun
  intro as t a t' ih h
  have hlast := hstep t a t' h
  have hspends : [a].countP spends = (spends a).toNat := by
    cases hs : spends a <;> simp [hs]
  have hearns : [a].countP earns = (earns a).toNat := by
    cases he : earns a <;> simp [he]
  rw [List.countP_append, List.countP_append, hspends, hearns]
  omega

end History
