import Mathlib.Data.List.Infix

/-!
# Percent-encoding

Percent-encoding replaces some bytes by a percent sign with two hexadecimal digits, and decoding
replaces every such triple by its byte, wherever it comes from. The percent sign itself need not be
among the bytes that are encoded, and then a text can have triples of its own: encoding and decoding
it gives what decoding alone would give, which is the text only when it has none.

* `percentEncode`, `percentDecode` — the two directions; `escaped?` is the byte of a triple.
* `percentDecode_percentEncode` — decoding undoes encoding, and the triples of the text with it.
* `percentDecode_eq_self_iff` — the texts that decoding leaves as they are.
-/

namespace PercentEncoding

/-- The hexadecimal digit of a number below 16, in upper case. -/
def hexDigit (n : ℕ) : UInt8 := UInt8.ofNat (if n < 10 then 48 + n else 55 + n)

/-- The number of a hexadecimal digit. -/
def hexValue (b : UInt8) : Option ℕ :=
  if 48 ≤ b.toNat ∧ b.toNat ≤ 57 then some (b.toNat - 48)
  else if 65 ≤ b.toNat ∧ b.toNat ≤ 70 then some (b.toNat - 55)
  else if 97 ≤ b.toNat ∧ b.toNat ≤ 102 then some (b.toNat - 87)
  else none

/-- The percent sign. -/
def percent : UInt8 := '%'.toUInt8

/-- The triple for a byte. -/
def percentEncodeByte (b : UInt8) : List UInt8 :=
  [percent, hexDigit (b.toNat / 16), hexDigit (b.toNat % 16)]

/-- Encode the bytes of a set. -/
def percentEncode (set : UInt8 → Bool) (bs : List UInt8) : List UInt8 :=
  bs.flatMap fun b => if set b then percentEncodeByte b else [b]

/-- The byte that a triple stands for. -/
def escaped? (b h l : UInt8) : Option UInt8 := do
  guard (b = percent)
  let x ← hexValue h
  let y ← hexValue l
  return UInt8.ofNat (16 * x + y)

/-- Replace every triple by its byte. -/
def percentDecode : List UInt8 → List UInt8
  | b :: h :: l :: bs =>
    match escaped? b h l with
    | some v => v :: percentDecode bs
    | none => b :: percentDecode (h :: l :: bs)
  -- what is shorter than a triple has none
  | bs => bs

/-- There is a triple in the text. -/
def HasEscape (bs : List UInt8) : Prop := ∃ b h l, [b, h, l] <:+: bs ∧ (escaped? b h l).isSome

/-- There is no triple that starts with the first byte. -/
def Literal (b : UInt8) (bs : List UInt8) : Prop :=
  ∀ h l rest, bs = h :: l :: rest → escaped? b h l = none

variable {b h l v : UInt8} {bs bs' : List UInt8} {set : UInt8 → Bool}

/-! ### One step of decoding -/

theorem percentDecode_escape (hv : escaped? b h l = some v) :
    percentDecode (b :: h :: l :: bs) = v :: percentDecode bs := by
  rw [percentDecode, hv]

theorem percentDecode_literal (hb : Literal b bs) :
    percentDecode (b :: bs) = b :: percentDecode bs := by
  match bs with
  | [] => rfl
  | [_] => rfl
  | h :: l :: rest => rw [percentDecode, hb h l rest rfl]

/-- A text is empty, or it starts with a triple, or with a byte that starts none. -/
theorem decode_induction {P : List UInt8 → Prop} (nil : P [])
    (escape : ∀ b h l v bs, escaped? b h l = some v → P bs → P (b :: h :: l :: bs))
    (literal : ∀ b bs, Literal b bs → P bs → P (b :: bs)) (bs : List UInt8) : P bs := by
  induction hn : bs.length using Nat.strongRecOn generalizing bs with
  | ind n ih =>
    subst hn
    match bs with
    | [] => exact nil
    -- what is shorter than a triple has none
    | [b] => exact literal b [] (by simp [Literal]) nil
    | [b, c] =>
      exact literal b [c] (by simp [Literal]) (literal c [] (by simp [Literal]) nil)
    | b :: h :: l :: rest =>
      cases hv : escaped? b h l with
      | some v => exact escape b h l v rest hv (ih _ (by simp; omega) rest rfl)
      | none =>
        refine literal b (h :: l :: rest) ?_ (ih _ (by simp) _ rfl)
        rintro h' l' rest' ⟨⟩
        exact hv

/-! ### Triples -/

/-- The digits of a triple are hexadecimal, and its first byte is the percent sign. -/
theorem escaped?_eq_some_iff :
    escaped? b h l = some v ↔
      b = percent ∧ ∃ x y, hexValue h = some x ∧ hexValue l = some y ∧
        UInt8.ofNat (16 * x + y) = v := by
  by_cases hb : b = percent
  · simp [escaped?, hb, guard, Option.bind_eq_some_iff]
  · simp [escaped?, hb, guard]

theorem hexValue_hexDigit : ∀ n < 16, hexValue (hexDigit n) = some n := by decide

/-- The triple of a byte stands for it. -/
theorem escaped?_percentEncodeByte (b : UInt8) :
    escaped? percent (hexDigit (b.toNat / 16)) (hexDigit (b.toNat % 16)) = some b := by
  have hlt : b.toNat < 256 := b.toNat_lt
  rw [escaped?_eq_some_iff]
  refine ⟨rfl, b.toNat / 16, b.toNat % 16, hexValue_hexDigit _ (by omega),
    hexValue_hexDigit _ (by omega), ?_⟩
  rw [Nat.div_add_mod]
  exact UInt8.ofNat_toNat

/-- The percent sign is no digit. -/
theorem escaped?_percent_left : escaped? b percent l = none := by
  cases hv : escaped? b percent l with
  | none => rfl
  | some v =>
    obtain ⟨-, x, y, hx, -⟩ := escaped?_eq_some_iff.mp hv
    cases hx

theorem escaped?_percent_right : escaped? b h percent = none := by
  cases hv : escaped? b h percent with
  | none => rfl
  | some v =>
    obtain ⟨-, x, y, -, hy, -⟩ := escaped?_eq_some_iff.mp hv
    cases hy

/-! ### Decoding what was encoded -/

/-- A set of bytes that can be encoded: not the percent sign, and no hexadecimal digit. -/
structure Encodable (set : UInt8 → Bool) : Prop where
  percent : set percent = false
  digit : ∀ b, (hexValue b).isSome → set b = false

@[simp]
theorem percentEncode_nil : percentEncode set [] = [] := rfl

@[simp]
theorem percentEncode_append :
    percentEncode set (bs ++ bs') = percentEncode set bs ++ percentEncode set bs' :=
  List.flatMap_append

theorem percentEncode_cons_of_mem (hb : set b = true) :
    percentEncode set (b :: bs) = percentEncodeByte b ++ percentEncode set bs := by
  rw [percentEncode, List.flatMap_cons, if_pos hb, ← percentEncode]

theorem percentEncode_cons_of_not_mem (hb : set b = false) :
    percentEncode set (b :: bs) = b :: percentEncode set bs := by
  rw [percentEncode, List.flatMap_cons, if_neg (by simp [hb]), ← percentEncode,
    List.singleton_append]

/-- The first byte of an encoded text is that of the text, or a percent sign. -/
theorem head_percentEncode (heq : percentEncode set bs = h :: bs') :
    h = percent ∨ ∃ rest, bs = h :: rest ∧ bs' = percentEncode set rest := by
  cases bs with
  | nil => cases heq
  | cons b rest =>
    cases hb : set b with
    | true =>
      rw [percentEncode_cons_of_mem hb] at heq
      exact Or.inl (List.cons.inj heq).1.symm
    | false =>
      rw [percentEncode_cons_of_not_mem hb] at heq
      obtain ⟨rfl, rfl⟩ := List.cons.inj heq
      exact Or.inr ⟨rest, rfl, rfl⟩

/-- A byte that starts no triple starts none after the rest is encoded. -/
theorem Literal.percentEncode (hb : Literal b bs) : Literal b (percentEncode set bs) := by
  intro h l rest heq
  rcases head_percentEncode heq with rfl | ⟨bs', rfl, hrest⟩
  · exact escaped?_percent_left
  · rcases head_percentEncode hrest.symm with rfl | ⟨bs'', rfl, -⟩
    · exact escaped?_percent_right
    · exact hb h l bs'' rfl

/-- Decoding undoes encoding, and replaces the triples that the text had before. -/
theorem percentDecode_percentEncode (hset : Encodable set) (bs : List UInt8) :
    percentDecode (percentEncode set bs) = percentDecode bs := by
  induction bs using decode_induction with
  | nil => rfl
  | escape b h l v bs hv ih =>
    -- nothing of a triple is encoded
    obtain ⟨hb, x, y, hx, hy, -⟩ := escaped?_eq_some_iff.mp hv
    rw [percentEncode_cons_of_not_mem (hb ▸ hset.percent),
      percentEncode_cons_of_not_mem (hset.digit h (by simp [hx])),
      percentEncode_cons_of_not_mem (hset.digit l (by simp [hy])),
      percentDecode_escape hv, percentDecode_escape hv, ih]
  | literal b bs hb ih =>
    rw [percentDecode_literal hb, ← ih]
    cases hmem : set b with
    | true =>
      rw [percentEncode_cons_of_mem hmem]
      exact percentDecode_escape (escaped?_percentEncodeByte b)
    | false =>
      rw [percentEncode_cons_of_not_mem hmem]
      exact percentDecode_literal hb.percentEncode

/-! ### Texts without triples -/

/-- Decoding makes no text longer. -/
theorem length_percentDecode_le (bs : List UInt8) : (percentDecode bs).length ≤ bs.length := by
  induction bs using decode_induction with
  | nil => exact Nat.le_refl 0
  | escape b h l v bs hv ih =>
    rw [percentDecode_escape hv]
    simp only [List.length_cons]
    omega
  | literal b bs hb ih =>
    rw [percentDecode_literal hb]
    exact Nat.succ_le_succ ih

/-- A triple is at the start of a text, or in the rest of it. -/
theorem hasEscape_cons_iff :
    HasEscape (b :: bs) ↔ ¬ Literal b bs ∨ HasEscape bs := by
  constructor
  · rintro ⟨b', h, l, hinfix, hv⟩
    rcases List.infix_cons_iff.mp hinfix with ⟨rest, hprefix⟩ | hinfix
    · left
      obtain ⟨rfl, rfl⟩ := List.cons.inj hprefix
      intro hb
      rw [hb h l rest rfl] at hv
      cases hv
    · exact Or.inr ⟨b', h, l, hinfix, hv⟩
  · rintro (hb | ⟨b', h, l, hinfix, hv⟩)
    · simp only [Literal, not_forall] at hb
      obtain ⟨h, l, rest, rfl, hv⟩ := hb
      exact ⟨b, h, l, ⟨[], rest, rfl⟩, Option.isSome_iff_ne_none.mpr hv⟩
    · exact ⟨b', h, l, List.infix_cons_iff.mpr (Or.inr hinfix), hv⟩

/-- Decoding leaves exactly the texts without triples as they are. -/
theorem percentDecode_eq_self_iff (bs : List UInt8) : percentDecode bs = bs ↔ ¬ HasEscape bs := by
  induction bs using decode_induction with
  | nil => simp [percentDecode, HasEscape]
  | escape b h l v bs hv ih =>
    have hescape : HasEscape (b :: h :: l :: bs) :=
      ⟨b, h, l, ⟨[], bs, rfl⟩, by simp [hv]⟩
    refine iff_of_false ?_ (not_not_intro hescape)
    -- the decoded text is shorter
    intro heq
    have hle := length_percentDecode_le bs
    rw [percentDecode_escape hv] at heq
    have hlength := congrArg List.length heq
    simp only [List.length_cons] at hlength
    omega
  | literal b bs hb ih =>
    rw [percentDecode_literal hb, hasEscape_cons_iff, List.cons.injEq, ih]
    simp [hb]

end PercentEncoding
