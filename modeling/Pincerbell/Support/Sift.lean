import Mathlib.Data.List.Nodup
import Mathlib.Data.List.Perm.Basic

/-!
# Taking the first elements that pass a test

`sift p n l` walks `l` from the front until it has met `n` elements that satisfy `p`. It splits `l`
into what was `taken`, what was met and `dropped` because it fails `p`, and the `rest` that was
never looked at.

* `taken_eq` — what is taken are the first `n` elements of `l.filter p`.
* `perm` — the three parts together are `l`.
* `taken_append_rest_eq` — what is taken, followed by the rest, is `l` without what is dropped.
* `add_length_rest_le`, `length_rest_le_iff`, `mem_dropped_iff` — how far the walk gets, and so what
  it drops.
-/

namespace List

variable {α : Type}

/-- The three parts of a walk over a list. -/
structure Sifted (α : Type) where
  taken : List α
  dropped : List α
  rest : List α

/-- Walk `l` until `n` elements that satisfy `p` are taken. -/
def sift (p : α → Bool) : ℕ → List α → Sifted α
  | 0, l => ⟨[], [], l⟩
  | _ + 1, [] => ⟨[], [], []⟩
  | n + 1, a :: l =>
    if p a then
      let s := sift p n l
      { s with taken := a :: s.taken }
    else
      let s := sift p (n + 1) l
      { s with dropped := a :: s.dropped }

namespace sift

variable (p : α → Bool)

@[simp]
theorem zero (l : List α) : sift p 0 l = ⟨[], [], l⟩ := by
  cases l <;> rfl

@[simp]
theorem nil (n : ℕ) : sift p n [] = ⟨[], [], []⟩ := by
  cases n <;> rfl

/-- One step of the walk. -/
theorem succ_cons (n : ℕ) (a : α) (l : List α) :
    sift p (n + 1) (a :: l) =
      if p a then { sift p n l with taken := a :: (sift p n l).taken }
      else { sift p (n + 1) l with dropped := a :: (sift p (n + 1) l).dropped } := rfl

/-- Only the elements of the list are tested. -/
theorem congr {p p' : α → Bool} {l : List α} (n : ℕ) (h : ∀ a ∈ l, p a = p' a) :
    sift p n l = sift p' n l := by
  induction l generalizing n with
  | nil => simp
  | cons a l ih =>
    cases n with
    | zero => simp
    | succ n =>
      have hl : ∀ b ∈ l, p b = p' b := fun b hb => h b (List.mem_cons_of_mem a hb)
      rw [succ_cons, succ_cons, h a List.mem_cons_self, ih n hl, ih (n + 1) hl]

/-- The walk takes the first `n` elements that satisfy `p`. -/
theorem taken_eq (n : ℕ) (l : List α) : (sift p n l).taken = (l.filter p).take n := by
  induction l generalizing n with
  | nil => simp
  | cons a l ih =>
    cases n with
    | zero => simp
    | succ n =>
      rw [succ_cons]
      by_cases h : p a
      · simp [h, ih]
      · simp [h, ih]

/-- What is taken satisfies `p`. -/
theorem of_mem_taken {n : ℕ} {l : List α} {a : α} (h : a ∈ (sift p n l).taken) : p a = true := by
  rw [taken_eq] at h
  exact (List.mem_filter.mp (List.mem_of_mem_take h)).2

/-- What is dropped fails `p`. -/
theorem of_mem_dropped {n : ℕ} {l : List α} {a : α} (h : a ∈ (sift p n l).dropped) :
    p a = false := by
  induction l generalizing n with
  | nil => simp at h
  | cons b l ih =>
    cases n with
    | zero => simp at h
    | succ n =>
      rw [succ_cons] at h
      by_cases hb : p b
      · rw [if_pos hb] at h
        exact ih h
      · rw [if_neg hb] at h
        rcases List.mem_cons.mp h with rfl | hmem
        · simpa using hb
        · exact ih hmem

/-- The three parts together are the list. -/
theorem perm (n : ℕ) (l : List α) :
    (sift p n l).taken ++ (sift p n l).dropped ++ (sift p n l).rest ~ l := by
  induction l generalizing n with
  | nil => simp
  | cons a l ih =>
    cases n with
    | zero => simp
    | succ n =>
      rw [succ_cons]
      by_cases h : p a
      · rw [if_pos h]
        simpa using ih n
      · rw [if_neg h]
        have hcons := (ih (n + 1)).cons a
        simp only [List.append_assoc, List.cons_append] at hcons ⊢
        exact List.perm_middle.trans hcons

/-- Membership in the list is membership in one of the parts. -/
theorem mem_iff {n : ℕ} {l : List α} {a : α} :
    a ∈ l ↔ a ∈ (sift p n l).taken ∨ a ∈ (sift p n l).dropped ∨ a ∈ (sift p n l).rest := by
  rw [← (perm p n l).mem_iff]
  simp

/-- What is left is a suffix of the list. -/
theorem rest_suffix (n : ℕ) (l : List α) : (sift p n l).rest <:+ l := by
  induction l generalizing n with
  | nil => simp
  | cons a l ih =>
    cases n with
    | zero => simp
    | succ n =>
      rw [succ_cons]
      by_cases h : p a
      · rw [if_pos h]
        exact (ih n).trans (List.suffix_cons a l)
      · rw [if_neg h]
        exact (ih (n + 1)).trans (List.suffix_cons a l)

/-- A walk that leaves something has met `n` elements that it takes. -/
theorem add_length_rest_le {n : ℕ} {l : List α} (h : (sift p n l).rest ≠ []) :
    n + (sift p n l).rest.length ≤ l.length := by
  induction l generalizing n with
  | nil => simp at h
  | cons a l ih =>
    cases n with
    | zero => simp
    | succ n =>
      rw [succ_cons] at h ⊢
      rw [length_cons]
      by_cases ha : p a
      · rw [if_pos ha] at h ⊢
        have hlength := ih h
        dsimp only at hlength ⊢
        omega
      · rw [if_neg ha] at h ⊢
        exact Nat.le_succ_of_le (ih h)

/-- At most `c` elements are left exactly when there were no more than that, or the walk goes on
until only `c` are left: it has not taken `n` when it gets to the last of the others. -/
theorem length_rest_le_iff (n c : ℕ) (l : List α) :
    (sift p n l).rest.length ≤ c ↔
      l.length ≤ c ∨ (l.take (l.length - c - 1)).countP p < n := by
  induction l generalizing n with
  | nil => simp
  | cons a l ih =>
    cases n with
    | zero => simp
    | succ n =>
      rw [succ_cons]
      rcases Nat.lt_trichotomy l.length c with hlt | heq | hgt
      -- no more than `c` elements in all
      · have hrest : ∀ n, (sift p n l).rest.length ≤ c := fun n =>
          Nat.le_trans (rest_suffix _ n l).length_le (Nat.le_of_lt hlt)
        have hall : (a :: l).length ≤ c := hlt
        simp only [hall, true_or, iff_true]
        split
        · exact hrest n
        · exact hrest (n + 1)
      -- one element to get past, and the walk always does
      · have hrest : ∀ n, (sift p n l).rest.length ≤ c := fun n =>
          heq ▸ (rest_suffix _ n l).length_le
        have hzero : (a :: l).length - c - 1 = 0 := by
          simp only [List.length_cons]
          omega
        simp only [hzero, take_zero, countP_nil, Nat.zero_lt_succ, or_true, iff_true]
        split
        · exact hrest n
        · exact hrest (n + 1)
      -- the last of the others is in `l`
      · have hsucc : (a :: l).length - c - 1 = (l.length - c - 1) + 1 := by
          simp only [List.length_cons]
          omega
        have hmore : ¬ (a :: l).length ≤ c := by
          simp only [List.length_cons]
          omega
        have hmore' : ¬ l.length ≤ c := Nat.not_le_of_lt hgt
        rw [hsucc, take_succ_cons, countP_cons]
        by_cases h : p a
        · rw [if_pos h, ih n, or_iff_right hmore, or_iff_right hmore']
          simp [h]
        · rw [if_neg h, ih (n + 1), or_iff_right hmore, or_iff_right hmore']
          simp [h]

/-- What fails `p` is dropped exactly when fewer than `n` of the elements before it satisfy `p`. -/
theorem mem_dropped_iff {β : Type} [DecidableEq β] (f : α → β) (n : ℕ) {l : List α}
    (hnodup : (l.map f).Nodup) {a : α} (ha : a ∈ l) :
    a ∈ (sift p n l).dropped ↔
      p a = false ∧ (l.takeWhile fun b => f b ≠ f a).countP p < n := by
  induction l generalizing n with
  | nil => cases ha
  | cons b l ih =>
    rw [map_cons, nodup_cons] at hnodup
    have hsub : ∀ {n}, a ∈ (sift p n l).dropped → a ∈ l :=
      fun h => (mem_iff p).mpr (Or.inr (Or.inl h))
    have hne : a ∈ l → f b ≠ f a := fun hmem heq => hnodup.1 (heq ▸ mem_map_of_mem hmem)
    cases n with
    | zero => simp
    | succ n =>
      rw [succ_cons]
      rcases mem_cons.mp ha with rfl | hmem
      -- `a` is the first element: nothing is before it
      · by_cases h : p a
        · have hnot : a ∉ (sift p n l).dropped := fun hd => hne (hsub hd) rfl
          simp [h, hnot]
        · simp [h]
      · have hab : a ≠ b := fun heq => hne hmem (congrArg f heq.symm)
        by_cases h : p b
        · rw [if_pos h, ih n hnodup.2 hmem]
          simp [h, hne hmem]
        · rw [if_neg h, mem_cons, ih (n + 1) hnodup.2 hmem]
          simp [h, hne hmem, hab]

/-- What is taken, followed by what is left, is the list without what is dropped. -/
theorem taken_append_rest_eq {β : Type} [DecidableEq β] (f : α → β) (n : ℕ) {l : List α}
    (hnodup : (l.map f).Nodup) :
    (sift p n l).taken ++ (sift p n l).rest =
      l.filter fun a => f a ∉ (sift p n l).dropped.map f := by
  induction l generalizing n with
  | nil => simp
  | cons b l ih =>
    rw [map_cons, nodup_cons] at hnodup
    cases n with
    | zero => simp
    | succ n =>
      -- the first element is not dropped later, since it does not occur again
      have hb : ∀ n, f b ∉ (sift p n l).dropped.map f := by
        intro n hin
        obtain ⟨a, ha, hab⟩ := mem_map.mp hin
        exact hnodup.1 (hab ▸ mem_map_of_mem ((mem_iff p).mpr (Or.inr (Or.inl ha))))
      rw [succ_cons]
      by_cases h : p b
      · rw [if_pos h, filter_cons_of_pos (by simpa using hb n), ← ih n hnodup.2, cons_append]
      · rw [if_neg h, filter_cons_of_neg (by simp), ih (n + 1) hnodup.2]
        refine filter_congr fun a ha => ?_
        have hne : f a ≠ f b := fun heq => hnodup.1 (heq ▸ mem_map_of_mem ha)
        simp [hne]

/-- A relation between what is taken and what is left is one on the list that leaves out what is
dropped. -/
theorem pairwise_taken_append_rest_iff {β : Type} [DecidableEq β] (f : α → β) (n : ℕ) {l : List α}
    (hnodup : (l.map f).Nodup) {r : α → α → Prop} :
    ((sift p n l).taken ++ (sift p n l).rest).Pairwise r ↔
      l.Pairwise fun a b =>
        a ∉ (sift p n l).dropped → b ∉ (sift p n l).dropped → r a b := by
  have hkept : ∀ {a}, a ∈ l →
      ((decide (f a ∉ (sift p n l).dropped.map f)) = true ↔ a ∉ (sift p n l).dropped) := by
    intro a ha
    rw [decide_eq_true_eq, not_iff_not, mem_map]
    refine ⟨?_, fun hd => ⟨a, hd, rfl⟩⟩
    rintro ⟨b, hb, hab⟩
    have hbl : b ∈ l := (mem_iff p).mpr (Or.inr (Or.inl hb))
    exact inj_on_of_nodup_map hnodup hbl ha hab ▸ hb
  rw [taken_append_rest_eq p f n hnodup, pairwise_filter]
  refine Pairwise.iff_of_mem fun ha hb => ?_
  rw [hkept ha, hkept hb]

end sift

end List
