import Mathlib.Algebra.Group.Nat.Defs
import Mathlib.Data.List.Basic

/-!
# The aes128gcm content coding

A message is a header followed by records. The header announces the record size, and a reader cuts
what follows into records of that size, the last of which may be shorter. Each record is sealed by
itself and loses a tag and the padding delimiter when it is opened.

* `Aead` — an authenticated cipher with a tag of 16 bytes.
* `Header` — the salt, the record size and the key id in front of the records.
* `unpad` — removing the padding of a record.
* `openRecords` — reading the records.
* `openRecords_encrypt_iff` — a single record reads back exactly when it is no longer than the
  record size.
-/

/-- A string of bytes. -/
abbrev Bytes := List UInt8

namespace ContentCoding

/-! ### The cipher -/

/-- An authenticated cipher: encryption appends a tag of 16 bytes, and nothing decrypts but what was
encrypted under the same key and nonce. -/
structure Aead where
  encrypt (key nonce plaintext : Bytes) : Bytes
  decrypt (key nonce ciphertext : Bytes) : Option Bytes
  length_encrypt : ∀ key nonce plaintext,
    (encrypt key nonce plaintext).length = plaintext.length + 16
  decrypt_eq_some_iff : ∀ {key nonce ciphertext plaintext},
    decrypt key nonce ciphertext = some plaintext ↔ ciphertext = encrypt key nonce plaintext

/-! ### The header -/

/-- A 32-bit number in big-endian order. -/
def be32 (n : ℕ) : Bytes :=
  [.ofNat (n / 256 ^ 3), .ofNat (n / 256 ^ 2), .ofNat (n / 256), .ofNat n]

/-- The header of a message. -/
structure Header where
  salt : Bytes
  recordSize : ℕ
  keyId : Bytes
  deriving DecidableEq, Repr

namespace Header

/-- The header as it is sent: salt, record size, the length of the key id, and the key id. -/
def write (h : Header) : Bytes :=
  h.salt ++ be32 h.recordSize ++ .ofNat h.keyId.length :: h.keyId

/-- Read a header, and what follows it. -/
def read (message : Bytes) : Option (Header × Bytes) :=
  match message.drop 16 with
  | a :: b :: c :: d :: idLength :: rest =>
    if rest.length < idLength.toNat then none
    else
      some
        (⟨message.take 16,
          a.toNat * 256 ^ 3 + b.toNat * 256 ^ 2 + c.toNat * 256 + d.toNat,
          rest.take idLength.toNat⟩, rest.drop idLength.toNat)
  | _ => none

/-- A header reads back as it was written. -/
theorem read_write (h : Header) (hsalt : h.salt.length = 16) (hsize : h.recordSize < 256 ^ 4)
    (hid : h.keyId.length < 256) (rest : Bytes) :
    read (h.write ++ rest) = some (h, rest) := by
  obtain ⟨salt, recordSize, keyId⟩ := h
  dsimp only at hsalt hsize hid
  have hlength : (UInt8.ofNat keyId.length).toNat = keyId.length := by
    simp only [UInt8.toNat_ofNat']
    omega
  -- the salt comes first, and its length is fixed
  have hdrop : (write ⟨salt, recordSize, keyId⟩ ++ rest).drop 16 =
      be32 recordSize ++ .ofNat keyId.length :: (keyId ++ rest) := by
    simp [write, hsalt]
  have htake : (write ⟨salt, recordSize, keyId⟩ ++ rest).take 16 = salt := by
    simp [write, hsalt]
  rw [read, hdrop, htake]
  simp only [be32, List.cons_append, List.nil_append, hlength, List.length_append]
  rw [if_neg (by omega), List.take_left, List.drop_left]
  simp only [UInt8.toNat_ofNat']
  congr 3
  omega

end Header

/-! ### Records -/

/-- Remove the padding of a record: the zeros at its end, and the delimiter in front of them. -/
def unpad (delimiter : UInt8) (record : Bytes) : Option Bytes :=
  match record.reverse.dropWhile (· = 0) with
  | last :: rest => if last = delimiter then some rest.reverse else none
  | [] => none

theorem unpad_append {delimiter : UInt8} (h : delimiter ≠ 0) (m : Bytes) :
    unpad delimiter (m ++ [delimiter]) = some m := by
  simp [unpad, h]

/-- The delimiter at least is removed. -/
theorem length_lt_of_unpad {delimiter : UInt8} {record m : Bytes}
    (h : unpad delimiter record = some m) : m.length < record.length := by
  unfold unpad at h
  split at h
  next last rest heq =>
    have hle := (record.reverse.dropWhile_sublist (· = 0)).length_le
    rw [heq, List.length_cons, List.length_reverse] at hle
    split at h
    next =>
      cases h
      rw [List.length_reverse]
      omega
    next => cases h
  next => cases h

/-- The nonce of a record: the sequence number is added to the last bits, without carry. -/
def nonceAt (nonce : Bytes) (seq : ℕ) : Bytes :=
  List.zipWith (· ^^^ ·) nonce ((List.range 12).map fun i => .ofNat (seq / 256 ^ (11 - i)))

theorem nonceAt_zero {nonce : Bytes} (h : nonce.length = 12) : nonceAt nonce 0 = nonce := by
  have hzero : ((List.range 12).map fun i => UInt8.ofNat (0 / 256 ^ (11 - i))) =
      List.replicate 12 0 := by decide
  rw [nonceAt, hzero]
  refine List.ext_getElem (by simp [h]) fun i hi hi' => ?_
  rw [List.getElem_zipWith, List.getElem_replicate, UInt8.xor_zero]

variable (aead : Aead) (key nonce : Bytes) (recordSize : ℕ)

/-- Read the records, the first of which has the number `seq`. The last one, and it alone, has the
delimiter 2. -/
def openRecords (seq : ℕ) (records : Bytes) : Option Bytes :=
  if recordSize < records.length ∧ 0 < recordSize then do
    let record ← aead.decrypt key (nonceAt nonce seq) (records.take recordSize)
    let first ← unpad 1 record
    let rest ← openRecords (seq + 1) (records.drop recordSize)
    return first ++ rest
  else do
    let record ← aead.decrypt key (nonceAt nonce seq) records
    unpad 2 record
termination_by records.length
decreasing_by
  rw [List.length_drop]
  omega

variable {aead key nonce recordSize} {seq : ℕ} {records record m : Bytes}

/-- A record loses its tag and its delimiter. -/
theorem length_of_open {delimiter : UInt8}
    (h : aead.decrypt key nonce records = some record) (hm : unpad delimiter record = some m) :
    m.length + 17 ≤ records.length := by
  rw [aead.decrypt_eq_some_iff] at h
  rw [h, aead.length_encrypt]
  have := length_lt_of_unpad hm
  omega

/-- Reading loses at least one tag and one delimiter, and two of each when there is more than one
record. -/
theorem length_of_openRecords (h : openRecords aead key nonce recordSize seq records = some m) :
    m.length + 17 ≤ records.length ∧
      (recordSize < records.length → 0 < recordSize → m.length + 34 ≤ records.length) := by
  induction hlen : records.length using Nat.strongRecOn generalizing seq records m with
  | ind len ih =>
    subst hlen
    rw [openRecords] at h
    split at h
    next hmore =>
      obtain ⟨record, hrecord, h⟩ := Option.bind_eq_some_iff.mp h
      obtain ⟨first, hfirst, h⟩ := Option.bind_eq_some_iff.mp h
      obtain ⟨rest, hrest, h⟩ := Option.bind_eq_some_iff.mp h
      obtain rfl := Option.some_inj.mp h
      -- a record that is not the last one, and the rest after it
      have htake := length_of_open hrecord hfirst
      have hdrop := (ih _ (by rw [List.length_drop]; omega) hrest rfl).1
      rw [List.length_take] at htake
      rw [List.length_drop] at hdrop
      rw [List.length_append]
      omega
    next hlast =>
      obtain ⟨record, hrecord, hm⟩ := Option.bind_eq_some_iff.mp h
      exact ⟨length_of_open hrecord hm, fun hlt hpos => absurd ⟨hlt, hpos⟩ hlast⟩

/-- A message in a single record reads back exactly when the record is no longer than the record
size. -/
theorem openRecords_encrypt_iff (hnonce : nonce.length = 12) (hsize : 0 < recordSize) :
    openRecords aead key nonce recordSize 0 (aead.encrypt key nonce (m ++ [2])) = some m ↔
      m.length + 17 ≤ recordSize := by
  have hlen : (aead.encrypt key nonce (m ++ [2])).length = m.length + 17 := by
    rw [aead.length_encrypt, List.length_append, List.length_singleton]
  constructor
  · intro h
    -- more than one record would lose more than was added
    by_contra hlt
    have := (length_of_openRecords h).2 (by omega) hsize
    omega
  · intro hle
    rw [openRecords, if_neg (by omega), nonceAt_zero hnonce, aead.decrypt_eq_some_iff.mpr rfl]
    exact unpad_append (by decide) m

end ContentCoding
