import Mathlib.Data.List.DropRight

/-!
# Trimming a list

Dropping the elements that satisfy a predicate at both ends of a list.

* `List.trim` — the list without them.
* `List.Trimmed` — the list begins and ends with other elements.
* `List.trimmed_trim`, `List.Trimmed.trim_eq` — trimming leads to such lists, and keeps them.
-/

namespace List

variable {α : Type} {p : α → Bool} {l : List α}

/-- Drop the elements that satisfy `p` at both ends. -/
def trim (p : α → Bool) (l : List α) : List α := (l.dropWhile p).rdropWhile p

/-- Neither the first nor the last element satisfies `p`. -/
structure Trimmed (p : α → Bool) (l : List α) : Prop where
  head : ∀ a ∈ l.head?, p a = false
  last : ∀ a ∈ l.getLast?, p a = false

theorem head?_of_isPrefix {l' : List α} (h : l' <+: l) (hne : l' ≠ []) : l.head? = l'.head? := by
  obtain ⟨t, rfl⟩ := h
  rw [head?_append_of_ne_nil l' hne]

theorem trimmed_trim : Trimmed p (l.trim p) := by
  by_cases hne : l.trim p = []
  · rw [hne]
    constructor <;> simp
  constructor
  · intro a ha
    -- the first element is the first one that was not dropped in front
    have hprefix := rdropWhile_prefix p (l.dropWhile p)
    have hhead := head?_of_isPrefix hprefix hne
    have hnot := head?_dropWhile_not p l
    rw [hhead, ← trim, Option.mem_def.mp ha] at hnot
    exact hnot
  · intro a ha
    have hlast := rdropWhile_last_not p (l.dropWhile p) hne
    rw [Option.mem_def, getLast?_eq_some_getLast hne] at ha
    obtain rfl := Option.some_inj.mp ha
    exact Bool.eq_false_iff.mpr hlast

theorem Trimmed.trim_eq (h : Trimmed p l) : l.trim p = l := by
  have hfront : l.dropWhile p = l := by
    cases l with
    | nil => rfl
    | cons a l => rw [dropWhile_cons_of_neg (by simp [h.head a rfl])]
  rw [trim, hfront, rdropWhile_eq_self_iff]
  intro hne
  simp [h.last _ (getLast?_eq_some_getLast hne)]

end List
