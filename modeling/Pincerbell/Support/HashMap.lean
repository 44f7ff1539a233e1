import Mathlib.Data.List.AList

/-!
# Finite maps as association lists

A `HashMap` is Mathlib's `AList` at a constant family: a list of key-value pairs without duplicate
keys. Nothing here depends on the order of the pairs, which a real hash map does not fix either.

* `lookup_foldl_erase` — erasing a list of keys one after the other.
* `lookup_foldl_insert_of_mem`, `lookup_foldl_insert_of_notMem` — inserting a list of values one
  after the other under distinct keys.
* `len_erase_of_lookup`, `len_insert_of_lookup_none` — how the two operations move the size.
-/

/-- A finite map from `κ` to `υ`. -/
abbrev HashMap (κ υ : Type) := AList fun _ : κ => υ

namespace HashMap

variable {κ υ α : Type} [DecidableEq κ]

/-- `HashMap::len`. -/
def len (m : HashMap κ υ) : ℕ := m.entries.length

/-- The stored values. -/
def values (m : HashMap κ υ) : List υ := m.entries.map (·.2)

/-- A value is stored exactly when some key maps to it. -/
theorem mem_values_iff {m : HashMap κ υ} {v : υ} : v ∈ m.values ↔ ∃ k, m.lookup k = some v := by
  simp only [values, List.mem_map]
  constructor
  · rintro ⟨⟨k, w⟩, hmem, rfl⟩
    exact ⟨k, AList.mem_lookup_iff.mpr hmem⟩
  · rintro ⟨k, hk⟩
    exact ⟨⟨k, v⟩, AList.mem_lookup_iff.mp hk, rfl⟩

/-- Lookup after one erasure. -/
theorem lookup_erase (m : HashMap κ υ) (k k' : κ) :
    AList.lookup k (AList.erase k' m) = if k = k' then none else m.lookup k := by
  split
  next h => rw [h, AList.lookup_erase]
  next h => exact AList.lookup_erase_ne h

/-- Lookup after one insertion. -/
theorem lookup_insert (m : HashMap κ υ) (k k' : κ) (v : υ) :
    AList.lookup k (AList.insert k' v m) = if k = k' then some v else m.lookup k := by
  split
  next h => rw [h, AList.lookup_insert]
  next h => exact AList.lookup_insert_ne h

/-- Lookup after a list of erasures. -/
theorem lookup_foldl_erase (ks : List κ) (m : HashMap κ υ) (k : κ) :
    (ks.foldl (fun m k => AList.erase k m) m).lookup k =
      if k ∈ ks then none else m.lookup k := by
  induction ks generalizing m with
  | nil => simp
  | cons k' ks ih =>
    rw [List.foldl_cons, ih, lookup_erase]
    by_cases h : k ∈ ks <;> by_cases h' : k = k' <;> simp [h, h']

/-- A key that is not among the inserted ones keeps its value. -/
theorem lookup_foldl_insert_of_notMem (key : α → κ) (val : α → υ) (l : List α)
    (m : HashMap κ υ) {k : κ} (hk : k ∉ l.map key) :
    (l.foldl (fun m a => AList.insert (key a) (val a) m) m).lookup k = m.lookup k := by
  induction l generalizing m with
  | nil => rfl
  | cons a l ih =>
    simp only [List.map_cons, List.mem_cons, not_or] at hk
    rw [List.foldl_cons, ih _ hk.2, AList.lookup_insert_ne hk.1]

/-- Each of the inserted values is found under its key, when the keys are distinct. -/
theorem lookup_foldl_insert_of_mem (key : α → κ) (val : α → υ) (l : List α)
    (m : HashMap κ υ) (hnodup : (l.map key).Nodup) {a : α} (ha : a ∈ l) :
    (l.foldl (fun m a => AList.insert (key a) (val a) m) m).lookup (key a) = some (val a) := by
  induction l generalizing m with
  | nil => simp at ha
  | cons b l ih =>
    rw [List.map_cons, List.nodup_cons] at hnodup
    rw [List.foldl_cons]
    rcases List.mem_cons.mp ha with rfl | hmem
    · rw [lookup_foldl_insert_of_notMem key val l _ hnodup.1, AList.lookup_insert]
    · exact ih _ hnodup.2 hmem

/-- Erasing a stored key makes the map one smaller. -/
theorem len_erase_of_lookup {m : HashMap κ υ} {k : κ} {v : υ} (h : m.lookup k = some v) :
    len (AList.erase k m) + 1 = len m := by
  have hmem : k ∈ m := AList.lookup_isSome.mp (by rw [h]; rfl)
  have hkeys : (AList.erase k m).keys.length + 1 = m.keys.length := by
    rw [AList.keys_erase]
    exact List.length_erase_add_one (AList.mem_keys.mp hmem)
  simpa [len, AList.keys, List.keys] using hkeys

/-- Inserting a new key makes the map one larger. -/
theorem len_insert_of_lookup_none {m : HashMap κ υ} {k : κ} (v : υ) (h : m.lookup k = none) :
    len (AList.insert k v m) = len m + 1 := by
  rw [len, AList.entries_insert_of_notMem (AList.lookup_eq_none.mp h), List.length_cons, len]

/-- Erasing makes the map no larger. -/
theorem len_erase_le (m : HashMap κ υ) (k : κ) : len (AList.erase k m) ≤ len m :=
  (List.kerase_sublist k m.entries).length_le

/-- Inserting makes the map at most one larger. -/
theorem len_insert_le (m : HashMap κ υ) (k : κ) (v : υ) :
    len (AList.insert k v m) ≤ len m + 1 := by
  rw [len, AList.entries_insert, List.length_cons, len]
  exact Nat.succ_le_succ (List.kerase_sublist k m.entries).length_le

end HashMap
