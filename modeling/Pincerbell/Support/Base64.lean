import Pincerbell.Support.ContentCoding

/-!
# Base64 with the URL-safe alphabet

The encoding without padding: three bytes become four digits, and a rest of two bytes or of one byte
becomes three digits or two, filled up with zero bits. The decoder is strict. It accepts no padding,
and no rest whose last digit has other bits set.

* `encode`, `decode` — the two directions.
* `decode_encode` — decoding undoes encoding.
* `value_of_mem_encode` — an encoded text consists of digits.
-/

namespace Base64

/-- The digit of a number below 64. -/
def digit (n : ℕ) : UInt8 :=
  .ofNat <|
    if n < 26 then 65 + n
    else if n < 52 then 71 + n
    else if n < 62 then n - 4
    else if n = 62 then 45
    else 95

/-- The number of a digit. -/
def value (b : UInt8) : Option ℕ :=
  if 65 ≤ b.toNat ∧ b.toNat ≤ 90 then some (b.toNat - 65)
  else if 97 ≤ b.toNat ∧ b.toNat ≤ 122 then some (b.toNat - 71)
  else if 48 ≤ b.toNat ∧ b.toNat ≤ 57 then some (b.toNat + 4)
  else if b.toNat = 45 then some 62
  else if b.toNat = 95 then some 63
  else none

/-- Write bytes as digits. -/
def encode : Bytes → Bytes
  | a :: b :: c :: rest =>
    let n := a.toNat * 65536 + b.toNat * 256 + c.toNat
    digit (n / 262144) :: digit (n / 4096 % 64) :: digit (n / 64 % 64) :: digit (n % 64) ::
      encode rest
  | [a, b] =>
    let n := a.toNat * 1024 + b.toNat * 4
    [digit (n / 4096), digit (n / 64 % 64), digit (n % 64)]
  | [a] =>
    let n := a.toNat * 16
    [digit (n / 64), digit (n % 64)]
  | [] => []

/-- Read digits as bytes. -/
def decode : Bytes → Option Bytes
  | w :: x :: y :: z :: rest => do
    let n := (((← value w) * 64 + (← value x)) * 64 + (← value y)) * 64 + (← value z)
    return .ofNat (n / 65536) :: .ofNat (n / 256 % 256) :: .ofNat (n % 256) :: (← decode rest)
  | [w, x, y] => do
    let n := ((← value w) * 64 + (← value x)) * 64 + (← value y)
    -- the bits that do not belong to a byte
    if n % 4 = 0 then some [.ofNat (n / 1024), .ofNat (n / 4 % 256)] else none
  | [w, x] => do
    let n := (← value w) * 64 + (← value x)
    if n % 16 = 0 then some [.ofNat (n / 16)] else none
  | [_] => none
  | [] => some []

variable {bs : Bytes} {b : UInt8} {n : ℕ}

/-! ### Digits -/

@[simp]
theorem value_digit (h : n < 64) : value (digit n) = some n := by
  have hall : ∀ n < 64, value (digit n) = some n := by decide
  exact hall n h

/-! ### The round trip -/

theorem ofNat_of_eq (h : n = b.toNat) : UInt8.ofNat n = b := by
  rw [h, UInt8.ofNat_toNat]

/-- Decoding undoes encoding. -/
theorem decode_encode (bs : Bytes) : decode (encode bs) = some bs := by
  induction bs using encode.induct with
  | case1 a b c rest ih =>
    have ha := a.toNat_lt
    have hb := b.toNat_lt
    have hc := c.toNat_lt
    rw [encode, decode, ih]
    generalize hn : a.toNat * 65536 + b.toNat * 256 + c.toNat = n
    -- the four digits of a number below 2 ^ 24
    have hdigits : ((n / 262144 * 64 + n / 4096 % 64) * 64 + n / 64 % 64) * 64 + n % 64 = n := by
      omega
    simp [value_digit (show n / 262144 < 64 by omega), value_digit (Nat.mod_lt _ _),
      hdigits, ofNat_of_eq (show n / 65536 = a.toNat by omega),
      ofNat_of_eq (show n / 256 % 256 = b.toNat by omega),
      ofNat_of_eq (show n % 256 = c.toNat by omega)]
  | case2 a b =>
    have ha := a.toNat_lt
    have hb := b.toNat_lt
    rw [encode, decode]
    generalize hn : a.toNat * 1024 + b.toNat * 4 = n
    have hdigits : (n / 4096 * 64 + n / 64 % 64) * 64 + n % 64 = n := by omega
    simp [value_digit (show n / 4096 < 64 by omega), value_digit (Nat.mod_lt _ _), hdigits,
      show n % 4 = 0 by omega, ofNat_of_eq (show n / 1024 = a.toNat by omega),
      ofNat_of_eq (show n / 4 % 256 = b.toNat by omega)]
  | case3 a =>
    have ha := a.toNat_lt
    rw [encode, decode]
    generalize hn : a.toNat * 16 = n
    have hdigits : n / 64 * 64 + n % 64 = n := by omega
    simp [value_digit (show n / 64 < 64 by omega), value_digit (Nat.mod_lt _ _), hdigits,
      show n % 16 = 0 by omega, ofNat_of_eq (show n / 16 = a.toNat by omega)]
  | case4 => rfl

/-- An encoded text consists of digits. -/
theorem value_of_mem_encode (hb : b ∈ encode bs) : (value b).isSome = true := by
  induction bs using encode.induct with
  | case1 x y z rest ih =>
    have hx := x.toNat_lt
    have hy := y.toNat_lt
    have hz := z.toNat_lt
    rw [encode] at hb
    simp only [List.mem_cons] at hb
    rcases hb with rfl | rfl | rfl | rfl | hb
    · rw [value_digit (by omega)]
      rfl
    iterate 3
      rw [value_digit (Nat.mod_lt _ (by decide))]
      rfl
    · exact ih hb
  | case2 x y =>
    have hx := x.toNat_lt
    have hy := y.toNat_lt
    rw [encode] at hb
    simp only [List.mem_cons, List.not_mem_nil, or_false] at hb
    rcases hb with rfl | rfl | rfl
    · rw [value_digit (by omega)]
      rfl
    iterate 2
      rw [value_digit (Nat.mod_lt _ (by decide))]
      rfl
  | case3 x =>
    have hx := x.toNat_lt
    rw [encode] at hb
    simp only [List.mem_cons, List.not_mem_nil, or_false] at hb
    rcases hb with rfl | rfl
    · rw [value_digit (by omega)]
      rfl
    · rw [value_digit (Nat.mod_lt _ (by decide))]
      rfl
  | case4 => cases hb

end Base64
