import Mathlib.Data.List.Basic

/-!
# The bytes of a string

A string is the list of its characters, and its bytes are those of their UTF-8 encodings. The bytes
of the ASCII characters occur nowhere else, so that a string can be split at one of them as well by
looking at its bytes as by looking at its characters.

* `utf8` — the bytes of a list of characters; `toList_toUTF8` says that they are those of a string.
* `utf8_eq_append_ascii_iff` — splitting at an ASCII character.
* `utf8_injective` — a list of characters is determined by its bytes.
-/

/-- What the loop of `ByteArray.toList` still has to collect. -/
theorem ByteArray.toList_loop_eq (bs : ByteArray) (i : ℕ) (r : List UInt8) :
    ByteArray.toList.loop bs i r = r.reverse ++ bs.data.toList.drop i := by
  have hsize : bs.data.toList.length = bs.size := Array.length_toList
  induction hleft : bs.size - i generalizing i r with
  | zero =>
    rw [ByteArray.toList.loop, if_neg (by omega), List.drop_eq_nil_of_le (by omega),
      List.append_nil]
  | succ n ih =>
    have hlt : i < bs.size := by omega
    have hlt' : i < bs.data.toList.length := by omega
    have hget : bs.get! i = bs.data.toList[i] := by simp [ByteArray.get!, hlt]
    rw [ByteArray.toList.loop, if_pos hlt, ih (i + 1) _ (by omega), hget, List.reverse_cons,
      List.append_assoc, List.singleton_append, ← List.drop_eq_getElem_cons]

/-- The bytes of a byte array are those of its data. -/
theorem ByteArray.toList_eq_toList_data (bs : ByteArray) : bs.toList = bs.data.toList := by
  simp [ByteArray.toList, ByteArray.toList_loop_eq]

namespace Utf8

variable {c : Char} {cs cs' : List Char} {b : UInt8} {pre post : List UInt8}

/-- The bytes of a list of characters. -/
def utf8 (cs : List Char) : List UInt8 := cs.flatMap String.utf8EncodeChar

@[simp]
theorem utf8_nil : utf8 [] = [] := rfl

@[simp]
theorem utf8_cons (c : Char) (cs : List Char) :
    utf8 (c :: cs) = String.utf8EncodeChar c ++ utf8 cs := List.flatMap_cons

@[simp]
theorem utf8_append (cs cs' : List Char) : utf8 (cs ++ cs') = utf8 cs ++ utf8 cs' :=
  List.flatMap_append

/-- The bytes of a string are those of its characters. -/
theorem toList_toUTF8 (s : String) : s.toUTF8.toList = utf8 s.toList := by
  have henc : s.toUTF8 = s.toList.utf8Encode := String.utf8Encode_toList.symm
  rw [ByteArray.toList_eq_toList_data, henc, List.utf8Encode, List.toList_data_toByteArray]
  rfl

/-- A list of characters is determined by its bytes. -/
theorem utf8_injective : Function.Injective utf8 := by
  intro cs cs' h
  have hofList : String.ofList cs = String.ofList cs' := by
    apply String.toByteArray_inj.mp
    rw [String.toByteArray_ofList, String.toByteArray_ofList, List.utf8Encode, List.utf8Encode]
    exact congrArg List.toByteArray h
  simpa using congrArg String.toList hofList

/-! ### ASCII characters -/

/-- An ASCII character is one byte. -/
theorem utf8EncodeChar_of_ascii (h : c.toNat < 128) :
    String.utf8EncodeChar c = [c.toUInt8] := by
  apply String.utf8EncodeChar_eq_singleton
  rw [Char.utf8Size_eq_one_iff, UInt32.le_iff_toNat_le]
  show c.toNat ≤ 127
  omega

/-- The bytes of any other character are not ASCII. -/
theorem le_of_mem_utf8EncodeChar (h : 128 ≤ c.toNat) (hb : b ∈ String.utf8EncodeChar c) :
    128 ≤ b.toNat := by
  have hlong : ¬ c.val.toNat ≤ 0x7f := by
    show ¬ c.toNat ≤ 127
    omega
  -- each byte is a remainder below the marker bits that are added to it
  have hmark : ∀ v m k : ℕ, 0 < m → 128 ≤ k → m + k ≤ 256 →
      128 ≤ (UInt8.ofNat (v % m + k)).toNat := by
    intro v m k hm hk hmk
    have hlt : v % m < m := Nat.mod_lt v hm
    rw [UInt8.toNat_ofNat_of_lt' (by show v % m + k < 256; omega)]
    omega
  simp only [String.utf8EncodeChar, if_neg hlong] at hb
  split at hb
  next =>
    simp only [List.mem_cons, List.not_mem_nil, or_false] at hb
    rcases hb with rfl | rfl <;> apply hmark <;> omega
  next =>
    split at hb
    next =>
      simp only [List.mem_cons, List.not_mem_nil, or_false] at hb
      rcases hb with rfl | rfl | rfl <;> apply hmark <;> omega
    next =>
      simp only [List.mem_cons, List.not_mem_nil, or_false] at hb
      rcases hb with rfl | rfl | rfl | rfl <;> apply hmark <;> omega

/-- An ASCII byte in the encoding of a character is the whole encoding, and the character is the
one of that byte. -/
theorem eq_of_mem_utf8EncodeChar {d : Char} (hc : c.toNat < 128)
    (hmem : c.toUInt8 ∈ String.utf8EncodeChar d) : d = c := by
  have hcode : ∀ {c : Char}, c.toNat < 128 → c.toUInt8.toNat = c.toNat := by
    intro c hc
    show c.toNat % 256 = c.toNat
    exact Nat.mod_eq_of_lt (by omega)
  by_cases hd : d.toNat < 128
  · rw [utf8EncodeChar_of_ascii hd, List.mem_singleton] at hmem
    apply Char.toNat_inj.mp
    rw [← hcode hc, ← hcode hd, hmem]
  · have hle := le_of_mem_utf8EncodeChar (Nat.le_of_not_lt hd) hmem
    rw [hcode hc] at hle
    omega

/-- A list of characters splits at an ASCII character as its bytes split at the byte of it. -/
theorem utf8_eq_append_ascii_iff (hc : c.toNat < 128) :
    utf8 cs = pre ++ c.toUInt8 :: post ↔
      ∃ cs₁ cs₂, cs = cs₁ ++ c :: cs₂ ∧ utf8 cs₁ = pre ∧ utf8 cs₂ = post := by
  constructor
  · intro h
    induction cs generalizing pre with
    | nil => simp at h
    | cons d cs ih =>
      rw [utf8_cons, List.append_eq_append_iff] at h
      rcases h with ⟨pre', rfl, h⟩ | ⟨post', hd, h⟩
      · -- the first character is in front of the byte
        obtain ⟨cs₁, cs₂, rfl, rfl, rfl⟩ := ih h
        exact ⟨d :: cs₁, cs₂, rfl, utf8_cons d cs₁, rfl⟩
      · cases post' with
        | nil =>
          -- and the byte is the first of the next character
          have hnext : utf8 cs = [] ++ c.toUInt8 :: post := h.symm
          obtain ⟨cs₁, cs₂, rfl, hcs₁, rfl⟩ := ih hnext
          rw [List.append_nil] at hd
          exact ⟨d :: cs₁, cs₂, rfl, by rw [utf8_cons, hcs₁, List.append_nil, hd], rfl⟩
        | cons b post' =>
          -- the byte is the first character
          obtain ⟨rfl, rfl⟩ := List.cons.inj h
          obtain rfl : d = c := eq_of_mem_utf8EncodeChar hc (by rw [hd]; simp)
          rw [utf8EncodeChar_of_ascii hc, List.singleton_eq_append_iff] at hd
          simp only [List.cons.injEq, true_and, List.cons_ne_nil, and_false, or_false] at hd
          obtain ⟨rfl, rfl⟩ := hd
          exact ⟨[], cs, rfl, rfl, rfl⟩
  · rintro ⟨cs₁, cs₂, rfl, rfl, rfl⟩
    rw [utf8_append, utf8_cons, utf8EncodeChar_of_ascii hc, List.singleton_append]

end Utf8
