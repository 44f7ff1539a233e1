import Pincerbell.Support.Utf8
import Pincerbell.WebPush

/-!
# The allowlist decides by whole labels

`endpoint_allowed` compares bytes: a wildcard entry covers a host that ends with its suffix, when
the byte in front of the suffix is a dot and there is something in front of that. Since the dot is
an ASCII character, this is the same as comparing the lists of the dot-separated labels from the
end.

* `labels` — the dot-separated labels of a name.
* `hostAllowed_iff` — what an entry covers, by labels.
* `hostAllowedChecked` — the check with its subtractions and its byte index, any of which could
  panic; `hostAllowedChecked_eq` says that none does.
* `endpointAllowed_iff` — the decision about an endpoint.
-/

namespace Pincerbell

open Utf8

/-- The dot-separated labels of a name. -/
def labels (name : String) : List (List Char) := name.toList.splitOn '.'

/-- The loopback hosts. -/
def Loopback (host : String) : Prop :=
  host = "localhost" ∨ host = "127.0.0.1" ∨ host = "[::1]" ∨ host = "::1"

/-- A name is covered by an entry: it is the entry, or the entry is a wildcard and the name has
further labels in front of the labels of its suffix. -/
def Covers (entry host : String) : Prop :=
  (¬ "*.".toList <+: entry.toList ∧ host = entry) ∨
    ∃ suffix, entry = "*." ++ suffix ∧
      ∃ ls, ls ≠ [] ∧ ls ≠ [[]] ∧ labels host = ls ++ labels suffix

variable {host entry suffix : String}

theorem bytes_eq (s : String) : bytes s = utf8 s.toList := toList_toUTF8 s

/-! ### The wildcard -/

/-- The bytes of an entry start like those of a wildcard exactly when the entry is one. -/
theorem isPrefixOf_bytes_iff :
    (bytes "*.").isPrefixOf (bytes entry) = true ↔ ∃ suffix, entry = "*." ++ suffix := by
  have hstar : bytes "*." = ['*'.toUInt8, '.'.toUInt8] := by
    rw [bytes_eq]
    rfl
  rw [List.isPrefixOf_iff_prefix, hstar, bytes_eq]
  constructor
  · rintro ⟨rest, hrest⟩
    -- each of the two bytes is a character
    have hfirst : utf8 entry.toList = [] ++ '*'.toUInt8 :: ('.'.toUInt8 :: rest) := hrest.symm
    obtain ⟨cs₁, cs₂, hentry, hcs₁, hcs₂⟩ := (utf8_eq_append_ascii_iff (by decide)).mp hfirst
    have hsecond : utf8 cs₂ = [] ++ '.'.toUInt8 :: rest := hcs₂
    obtain ⟨cs₃, cs₄, rfl, hcs₃, -⟩ := (utf8_eq_append_ascii_iff (by decide)).mp hsecond
    obtain rfl : cs₁ = [] := utf8_injective hcs₁
    obtain rfl : cs₃ = [] := utf8_injective hcs₃
    refine ⟨String.ofList cs₄, String.toList_injective ?_⟩
    simp [hentry]
  · rintro ⟨suffix, rfl⟩
    refine ⟨utf8 suffix.toList, ?_⟩
    rw [String.toList_append, utf8_append]
    rfl

/-- What is left of a wildcard without its first two bytes. -/
theorem drop_bytes_wildcard (suffix : String) :
    (bytes ("*." ++ suffix)).drop 2 = utf8 suffix.toList := by
  rw [bytes_eq, String.toList_append, utf8_append]
  rfl

/-- The three tests on the bytes find a dot in front of the suffix and something in front of the
dot. -/
theorem suffix_tests_iff (h s : List UInt8) (dot : UInt8) :
    (decide (s.length + 1 < h.length) && s.isSuffixOf h &&
        h[h.length - s.length - 1]? == some dot) = true ↔
      ∃ pre, pre ≠ [] ∧ h = pre ++ dot :: s := by
  simp only [Bool.and_eq_true, decide_eq_true_eq, List.isSuffixOf_iff_suffix, beq_iff_eq]
  constructor
  · rintro ⟨⟨hlen, front, rfl⟩, hdot⟩
    -- the byte in question is the last one in front of the suffix
    have hindex : (front ++ s).length - s.length - 1 = front.length - 1 := by
      rw [List.length_append]
      omega
    rw [List.length_append] at hlen
    rw [hindex, List.getElem?_append_left (by omega), ← List.getLast?_eq_getElem?] at hdot
    obtain ⟨pre, rfl⟩ := List.getLast?_eq_some_iff.mp hdot
    refine ⟨pre, ?_, by simp⟩
    rintro rfl
    simp only [List.nil_append, List.length_singleton] at hlen
    omega
  · rintro ⟨pre, hpre, rfl⟩
    have hpos : 0 < pre.length := List.length_pos_iff.mpr hpre
    have hindex : (pre ++ dot :: s).length - s.length - 1 = pre.length := by
      rw [List.length_append, List.length_cons]
      omega
    refine ⟨⟨?_, pre ++ [dot], by simp⟩, ?_⟩
    · rw [List.length_append, List.length_cons]
      omega
    · rw [hindex, List.getElem?_append_right (Nat.le_refl _), Nat.sub_self]
      rfl

/-- Joining two lists of labels. -/
theorem intercalate_append (sep : List Char) {ls ls' : List (List Char)} (hls : ls ≠ [])
    (hls' : ls' ≠ []) :
    sep.intercalate (ls ++ ls') = sep.intercalate ls ++ sep ++ sep.intercalate ls' := by
  induction ls with
  | nil => exact absurd rfl hls
  | cons l ls ih =>
    cases ls with
    | nil =>
      rw [List.singleton_append, List.intercalate_cons_of_ne_nil hls', List.intercalate_singleton]
    | cons l' ls =>
      have hcons : l' :: ls ≠ [] := List.cons_ne_nil l' ls
      have hrest : (l' :: ls) ++ ls' ≠ [] := List.append_ne_nil_of_left_ne_nil hcons ls'
      rw [List.cons_append, List.intercalate_cons_of_ne_nil hrest, ih hcons,
        List.intercalate_cons_of_ne_nil hcons]
      simp only [List.append_assoc]

/-- A name with a dot and something in front of a suffix has further labels in front of those of the
suffix. -/
theorem labels_append_iff :
    (∃ cs, cs ≠ [] ∧ host.toList = cs ++ '.' :: suffix.toList) ↔
      ∃ ls, ls ≠ [] ∧ ls ≠ [[]] ∧ labels host = ls ++ labels suffix := by
  constructor
  · rintro ⟨cs, hcs, hhost⟩
    refine ⟨cs.splitOn '.', List.splitOn_ne_nil _ _, ?_, ?_⟩
    · intro hempty
      apply hcs
      have hjoin : ['.'].intercalate (cs.splitOn '.') = cs := List.intercalate_splitOn '.'
      rw [← hjoin, hempty, List.intercalate_singleton]
    · rw [labels, hhost, List.splitOn_append_cons_self, labels]
  · rintro ⟨ls, hnil, hempty, hlabels⟩
    refine ⟨['.'].intercalate ls, ?_, ?_⟩
    · -- without a character there is one label, the empty one
      cases ls with
      | nil => exact absurd rfl hnil
      | cons l ls =>
        cases ls with
        | nil =>
          rw [List.intercalate_singleton]
          exact fun hl => hempty (by rw [hl])
        | cons l' ls => simp
    · have hhost : ['.'].intercalate (labels host) = host.toList := List.intercalate_splitOn '.'
      have hsuffix : ['.'].intercalate (labels suffix) = suffix.toList :=
        List.intercalate_splitOn '.'
      have hne : labels suffix ≠ [] := List.splitOn_ne_nil _ _
      rw [← hhost, hlabels, intercalate_append _ hnil hne, hsuffix]
      simp

/-- A wildcard covers the names with further labels in front of those of its suffix. -/
theorem hostAllowed_wildcard_iff (host suffix : String) :
    hostAllowed host ("*." ++ suffix) = true ↔
      ∃ ls, ls ≠ [] ∧ ls ≠ [[]] ∧ labels host = ls ++ labels suffix := by
  have hprefix : (bytes "*.").isPrefixOf (bytes ("*." ++ suffix)) = true :=
    isPrefixOf_bytes_iff.mpr ⟨suffix, rfl⟩
  rw [hostAllowed, if_pos hprefix, drop_bytes_wildcard, ← labels_append_iff]
  refine (suffix_tests_iff _ _ _).trans ?_
  rw [bytes_eq]
  constructor
  · rintro ⟨pre, hpre, hhost⟩
    obtain ⟨cs₁, cs₂, heq, rfl, hcs₂⟩ := (utf8_eq_append_ascii_iff (by decide)).mp hhost
    refine ⟨cs₁, ?_, by rw [heq, utf8_injective hcs₂]⟩
    rintro rfl
    exact hpre rfl
  · rintro ⟨cs, hcs, hhost⟩
    refine ⟨utf8 cs, fun hnil => hcs (utf8_injective hnil), ?_⟩
    exact (utf8_eq_append_ascii_iff (by decide)).mpr ⟨cs, suffix.toList, hhost, rfl, rfl⟩

/-- An entry allows the hosts that it covers. -/
theorem hostAllowed_iff (host entry : String) :
    hostAllowed host entry = true ↔ Covers entry host := by
  have hstar : "*.".toList <+: entry.toList ↔ ∃ suffix, entry = "*." ++ suffix := by
    constructor
    · rintro ⟨cs, hcs⟩
      exact ⟨String.ofList cs, String.toList_injective (by simp [← hcs])⟩
    · rintro ⟨suffix, rfl⟩
      exact ⟨suffix.toList, by simp⟩
  -- so the two cases of the code are those of the specification
  rw [Covers, hstar]
  by_cases hwild : ∃ suffix, entry = "*." ++ suffix
  · obtain ⟨suffix, rfl⟩ := hwild
    rw [hostAllowed_wildcard_iff]
    constructor
    · intro h
      exact Or.inr ⟨suffix, rfl, h⟩
    · rintro (⟨hnot, -⟩ | ⟨suffix', heq, h⟩)
      · exact absurd ⟨suffix, rfl⟩ hnot
      · obtain rfl : suffix = suffix' := by simpa using heq
        exact h
  · have hprefix : ¬ (bytes "*.").isPrefixOf (bytes entry) = true :=
      fun h => hwild (isPrefixOf_bytes_iff.mp h)
    rw [hostAllowed, if_neg hprefix, beq_iff_eq]
    constructor
    · intro h
      exact Or.inl ⟨hwild, h⟩
    · rintro (⟨-, h⟩ | ⟨suffix, heq, -⟩)
      · exact h
      · exact absurd ⟨suffix, heq⟩ hwild

/-! ### The byte index -/

/-- A subtraction of `usize`, which must not go below zero. -/
def checkedSub (a b : ℕ) : Option ℕ := if b ≤ a then some (a - b) else none

/-- `hostAllowed` with its subtractions and its byte index, which could all panic. As in the source,
a test is only made when those in front of it hold. -/
def hostAllowedChecked (host entry : String) : Option Bool :=
  if (bytes "*.").isPrefixOf (bytes entry) then
    let suffix := (bytes entry).drop 2
    let h := bytes host
    if suffix.length + 1 < h.length then
      if suffix.isSuffixOf h then do
        let i ← checkedSub h.length suffix.length
        let i ← checkedSub i 1
        let b ← h[i]?
        return b == '.'.toUInt8
      else some false
    else some false
  else some (host == entry)

/-- No subtraction goes below zero, and no byte index is out of range. -/
theorem hostAllowedChecked_eq (host entry : String) :
    hostAllowedChecked host entry = some (hostAllowed host entry) := by
  rw [hostAllowedChecked, hostAllowed]
  split
  next =>
    generalize (bytes entry).drop 2 = suffix
    dsimp only
    by_cases hlen : suffix.length + 1 < (bytes host).length
    · cases hsuffix : suffix.isSuffixOf (bytes host) with
      | false => simp [hlen]
      | true =>
        -- the host is long enough for both subtractions
        have hsub : checkedSub (bytes host).length suffix.length =
            some ((bytes host).length - suffix.length) := if_pos (by omega)
        have hsub' : checkedSub ((bytes host).length - suffix.length) 1 =
            some ((bytes host).length - suffix.length - 1) := if_pos (by omega)
        have hindex : (bytes host).length - suffix.length - 1 < (bytes host).length := by omega
        simp [hlen, hsub, hsub', List.getElem?_eq_getElem hindex]
    · simp [hlen]
  next => rfl

/-! ### The decision -/

/-- An endpoint with a host is allowed exactly when its scheme is https, or http for a loopback
host, and some entry of the list covers the host; and no entry makes the check panic. -/
theorem endpointAllowed_iff (scheme host : String) (allowlist : List String) :
    (endpointAllowed ⟨scheme, some host⟩ allowlist = .ok () ↔
      (scheme = "https" ∨ scheme = "http" ∧ Loopback host) ∧
        ∃ entry ∈ allowlist, Covers entry host) ∧
    ∀ entry, hostAllowedChecked host entry = some (hostAllowed host entry) := by
  refine ⟨?_, hostAllowedChecked_eq host⟩
  have hscheme : (scheme == "https" || (scheme == "http" && (host == "localhost" ||
      host == "127.0.0.1" || host == "[::1]" || host == "::1"))) = true ↔
        (scheme = "https" ∨ scheme = "http" ∧ Loopback host) := by
    simp [Loopback, or_assoc]
  have hany : allowlist.any (hostAllowed host) = true ↔ ∃ entry ∈ allowlist, Covers entry host := by
    simp only [List.any_eq_true, hostAllowed_iff]
  rw [← hscheme, ← hany, endpointAllowed]
  dsimp only
  split
  next hok =>
    split
    next hallowed => simp [hok, hallowed]
    next hnot => simp [hnot]
  next hnot => simp [hnot]

end Pincerbell
