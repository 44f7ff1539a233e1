import Mathlib.Algebra.BigOperators.Group.List.Lemmas
import Mathlib.Algebra.Order.BigOperators.Group.List
import Mathlib.Algebra.Order.Ring.Nat
import Mathlib.Data.List.Count
import Mathlib.Data.List.Dedup
import Mathlib.Data.List.Perm.Subperm

/-!
# Occurrences of a key in a log

A log is a list of entries, each of them a stamp with a key. The stamps of one key, in the order of
the log, are its occurrences.

* `occurrences`, `mem_occurrences` — the stamps of a key.
* `length_le_mul` — a log is no longer than its keys, times the most occurrences of one of them.
* `Spaced` — each stamp of a list is at least `d` after the stamps before it.
* `Spaced.add_mul_le` — how far a spaced list reaches.
-/

namespace Log

variable {τ κ : Type} [DecidableEq κ] {l l' : List (τ × κ)} {k : κ} {t : τ}

/-- The stamps of a key, in the order of the log. -/
def occurrences (l : List (τ × κ)) (k : κ) : List τ :=
  l.filterMap fun r => if r.2 = k then some r.1 else none

@[simp]
theorem occurrences_nil (k : κ) : occurrences ([] : List (τ × κ)) k = [] := rfl

theorem occurrences_append (l l' : List (τ × κ)) (k : κ) :
    occurrences (l ++ l') k = occurrences l k ++ occurrences l' k := List.filterMap_append

/-- An entry of the key is its first occurrence. -/
theorem occurrences_cons_self (t : τ) (k : κ) (l : List (τ × κ)) :
    occurrences ((t, k) :: l) k = t :: occurrences l k := by
  simp [occurrences]

/-- An entry of another key does not count. -/
theorem occurrences_cons_ne {k' : κ} (h : k' ≠ k) (t : τ) (l : List (τ × κ)) :
    occurrences ((t, k') :: l) k = occurrences l k := by
  simp [occurrences, h]

/-- The stamps of a key are those of its entries. -/
theorem mem_occurrences : t ∈ occurrences l k ↔ (t, k) ∈ l := by
  simp [occurrences]

/-- A key without occurrences has no entry. -/
theorem occurrences_eq_nil_iff : occurrences l k = [] ↔ ∀ t, (t, k) ∉ l := by
  rw [List.eq_nil_iff_forall_not_mem]
  exact forall_congr' fun t => not_congr mem_occurrences

/-- A key occurs as often as the log lists it. -/
theorem length_occurrences (l : List (τ × κ)) (k : κ) :
    (occurrences l k).length = (l.map Prod.snd).count k := by
  induction l with
  | nil => rfl
  | cons r l ih =>
    obtain ⟨t, k'⟩ := r
    by_cases h : k' = k
    · subst h
      rw [occurrences_cons_self, List.length_cons, ih, List.map_cons, List.count_cons_self]
    · rw [occurrences_cons_ne h, ih, List.map_cons, List.count_cons_of_ne h]

/-- If no key occurs more than `n` times, and every key is among `ks`, then the log has at most `n`
entries for each of `ks`. -/
theorem length_le_mul {n : ℕ} {ks : List κ} (hkeys : ∀ r ∈ l, r.2 ∈ ks)
    (hle : ∀ k, (occurrences l k).length ≤ n) : l.length ≤ n * ks.length := by
  -- the log is counted key by key
  have hsum : l.length = (((l.map Prod.snd).dedup).map fun k => (l.map Prod.snd).count k).sum := by
    rw [List.sum_map_count_dedup_eq_length, List.length_map]
  have hcount : ∀ m ∈ (((l.map Prod.snd).dedup).map fun k => (l.map Prod.snd).count k),
      m ≤ n := by
    intro m hm
    obtain ⟨k, -, rfl⟩ := List.mem_map.mp hm
    rw [← length_occurrences]
    exact hle k
  have hdedup : (l.map Prod.snd).dedup.length ≤ ks.length := by
    apply List.Subperm.length_le
    apply List.subperm_of_subset (List.nodup_dedup _)
    intro k hk
    obtain ⟨r, hr, rfl⟩ := List.mem_map.mp (List.mem_dedup.mp hk)
    exact hkeys r hr
  calc l.length ≤ (l.map Prod.snd).dedup.length * n := by
        rw [hsum]
        simpa using List.sum_le_card_nsmul _ n hcount
    _ ≤ ks.length * n := Nat.mul_le_mul_right n hdedup
    _ = n * ks.length := Nat.mul_comm _ _

/-! ### Spaced lists -/

/-- Each number of the list is at least `d` above those before it. -/
def Spaced (d : ℕ) (l : List ℕ) : Prop := l.Pairwise fun t t' => t + d ≤ t'

/-- In a spaced list with a positive distance no number occurs twice. -/
theorem Spaced.nodup {d : ℕ} {l : List ℕ} (hd : 0 < d) (h : Spaced d l) : l.Nodup :=
  List.Pairwise.imp (fun hle => by omega) h

/-- The last number of a spaced list is the largest. -/
theorem Spaced.le_getLast? {d t u : ℕ} {l : List ℕ} (h : Spaced d l) (hu : l.getLast? = some u)
    (ht : t ∈ l) : t ≤ u := by
  obtain ⟨l, rfl⟩ := List.getLast?_eq_some_iff.mp hu
  rcases List.mem_append.mp ht with ht | ht
  · have hle : t + d ≤ u := (List.pairwise_append.mp h).2.2 t ht u (List.mem_singleton.mpr rfl)
    omega
  · exact Nat.le_of_eq (List.mem_singleton.mp ht)

/-- From the first number of a spaced list to any bound of the list there is room for all the
distances between them. -/
theorem Spaced.add_mul_le {d t hi : ℕ} {l : List ℕ} (h : Spaced d (t :: l))
    (hhi : ∀ t' ∈ t :: l, t' ≤ hi) : t + l.length * d ≤ hi := by
  induction l generalizing t with
  | nil => simpa using hhi t List.mem_cons_self
  | cons t' l ih =>
    obtain ⟨hle, htail⟩ := List.pairwise_cons.mp h
    have hstep : t + d ≤ t' := hle t' List.mem_cons_self
    have hrest : t' + l.length * d ≤ hi :=
      ih htail fun x hx => hhi x (List.mem_cons_of_mem t hx)
    rw [List.length_cons, Nat.succ_mul]
    omega

/-- A log whose keys have no stamp twice lists no entry twice. -/
theorem nodup_of_occurrences (h : ∀ k, (occurrences l k).Nodup) : l.Nodup := by
  induction l with
  | nil => exact List.nodup_nil
  | cons r l ih =>
    obtain ⟨t, k⟩ := r
    rw [List.nodup_cons]
    constructor
    · have hk := h k
      rw [occurrences_cons_self, List.nodup_cons, mem_occurrences] at hk
      exact hk.1
    · apply ih
      intro k'
      have hk := h k'
      -- the occurrences of the other keys are not touched
      by_cases heq : k = k'
      · subst heq
        rw [occurrences_cons_self, List.nodup_cons] at hk
        exact hk.2
      · rwa [occurrences_cons_ne heq] at hk

end Log
