import Pincerbell.Support.ContentCoding
import Pincerbell.Support.Trim
import Pincerbell.Support.Utf8
import Pincerbell.WebPush

/-!
# The shared token

The bearer token that lets a poll side use the endpoints of a queue side. Each of them loads it from
a file of its own. The HTTP library writes into a header whatever is not a control character, but
reads only visible ASCII characters back out of one.

* `Token`, `Token.load` — a token as `QueueState::new` and `Upstream::load` load it.
* `Token.bearer`, `transmit` — the header that a poll side sends, and what arrives of it.
* `authorized` — the check of `queue_auth` and `verify_token`.
* `authorized_bearer_iff` — which token of a poll side is accepted.
* `accepted_iff` — the same for the contents of the two files.
-/

namespace Pincerbell

/-! ### Loading it -/

/-- `char::is_whitespace`: the `White_Space` property of Unicode. -/
def isWhitespace (c : Char) : Bool :=
  let n := c.toNat
  (9 ≤ n && n ≤ 13) || (0x2000 ≤ n && n ≤ 0x200a) ||
    n ∈ [0x20, 0x85, 0xa0, 0x1680, 0x2028, 0x2029, 0x202f, 0x205f, 0x3000]

/-- `str::trim`. -/
def trim (s : String) : String := String.ofList (s.toList.trim isWhitespace)

/-- A token that has been loaded. -/
structure Token where
  text : String
  trimmed : text.toList.Trimmed isWhitespace
  nonempty : text ≠ ""

/-- Load the token file of a table. -/
def Token.load (table path : String) (contents : Except String String) : Except String Token :=
  match contents with
  | .error e => .error (table ++ " auth_token_file " ++ path ++ ": " ++ e)
  | .ok raw =>
    if h : trim raw = "" then .error (table ++ " auth_token_file " ++ path ++ " is empty")
    else .ok ⟨trim raw, by rw [trim, String.toList_ofList]; exact List.trimmed_trim, h⟩

/-! ### Presenting it -/

/-- A byte that may stand in a header: no control character but the tab. -/
def isHeaderByte (b : UInt8) : Bool := (32 ≤ b && b ≠ 127) || b = 9

/-- A visible ASCII character, a space or a tab. -/
def isVisible (b : UInt8) : Bool := (32 ≤ b && b < 127) || b = 9

/-- `HeaderValue::try_from`. -/
def headerValue (s : String) : Option Bytes :=
  if (bytes s).all isHeaderByte then some (bytes s) else none

/-- `HeaderValue::to_str`: the bytes of the text. -/
def toStr (value : Bytes) : Option Bytes := if value.all isVisible then some value else none

/-- `RequestBuilder::bearer_auth`. Without a header there is no request. -/
def Token.bearer (t : Token) : Option Bytes := headerValue ("Bearer " ++ t.text)

/-- What arrives of a header: the space around it is not part of the value. -/
def transmit (value : Bytes) : Bytes := value.trim fun b => b = 32 || b = 9

/-! ### Checking it -/

/-- `Sha256::digest`. -/
abbrev Digest := Bytes → Bytes

variable (digest : Digest)

/-- `QueueState::token_hash`. -/
def Token.hash (t : Token) : Bytes := digest (bytes t.text)

/-- `QueueState::verify_token`. -/
def verifyToken (tokenHash presented : Bytes) : Bool := digest presented == tokenHash

/-- Whether the first Authorization header presents the token. -/
def authorized (tokenHash : Bytes) (headers : List (String × Bytes)) : Bool :=
  match ((headers.lookup "authorization").bind toStr).bind
      (List.dropPrefix? · (bytes "Bearer ")) with
  | some token => verifyToken digest tokenHash token
  | none => false

/-! ### Visible characters -/

/-- A character that a header is read back with. -/
def IsVisible (c : Char) : Prop := c = '\t' ∨ 32 ≤ c.toNat ∧ c.toNat < 127

instance (c : Char) : Decidable (IsVisible c) := inferInstanceAs (Decidable (_ ∨ _))

variable {digest}

/-- Of all bytes, only the visible ones are read back. -/
theorem isHeaderByte_of_isVisible {b : UInt8} (h : isVisible b = true) : isHeaderByte b = true := by
  rw [isVisible, Bool.or_eq_true, Bool.and_eq_true] at h
  rw [isHeaderByte, Bool.or_eq_true, Bool.and_eq_true]
  refine h.imp_left fun h => ⟨h.1, ?_⟩
  exact decide_eq_true (UInt8.ne_of_lt (of_decide_eq_true h.2))

theorem isVisible_toUInt8_iff {c : Char} (h : c.toNat < 128) :
    isVisible c.toUInt8 = true ↔ IsVisible c := by
  have hnat : c.toUInt8.toNat = c.toNat := by
    show c.toNat % 256 = c.toNat
    omega
  have htab : c = '\t' ↔ c.toNat = 9 := by
    rw [← Char.toNat_inj]
    rfl
  simp only [isVisible, IsVisible, Bool.or_eq_true, Bool.and_eq_true, decide_eq_true_eq,
    UInt8.le_iff_toNat_le, UInt8.lt_iff_toNat_lt, ← UInt8.toNat_inj, hnat, htab]
  show (32 ≤ c.toNat ∧ c.toNat < 127) ∨ c.toNat = 9 ↔ _
  rw [or_comm]

/-- The bytes of a text are visible exactly when its characters are. -/
theorem all_isVisible_iff {cs : List Char} :
    (∀ b ∈ Utf8.utf8 cs, isVisible b = true) ↔ ∀ c ∈ cs, IsVisible c := by
  induction cs with
  | nil => simp
  | cons c cs ih =>
    rw [Utf8.utf8_cons, List.forall_mem_append, List.forall_mem_cons, ih]
    refine and_congr_left fun _ => ?_
    by_cases hascii : c.toNat < 128
    · rw [Utf8.utf8EncodeChar_of_ascii hascii, List.forall_mem_singleton,
        isVisible_toUInt8_iff hascii]
    · -- all bytes of another character are too large
      constructor
      · intro h
        obtain ⟨b, hb⟩ := List.exists_mem_of_ne_nil _ (String.utf8EncodeChar_ne_nil (c := c))
        have hlarge := Utf8.le_of_mem_utf8EncodeChar (Nat.le_of_not_lt hascii) hb
        have hvisible := h b hb
        simp only [isVisible, Bool.or_eq_true, Bool.and_eq_true, decide_eq_true_eq,
          UInt8.lt_iff_toNat_lt] at hvisible
        rcases hvisible with ⟨-, hlt⟩ | rfl
        · have : b.toNat < 127 := hlt
          omega
        · exact absurd hlarge (by decide)
      · rintro (rfl | ⟨-, hlt⟩)
        · exact absurd (by decide) hascii
        · omega

/-! ### Which token is accepted -/

/-- The bytes of a header. -/
theorem bytes_bearer (s : String) : bytes ("Bearer " ++ s) = bytes "Bearer " ++ bytes s := by
  rw [bytes, bytes, bytes, Utf8.toList_toUTF8, Utf8.toList_toUTF8, Utf8.toList_toUTF8,
    String.toList_append, Utf8.utf8_append]

/-- A trimmed token arrives as it was sent. -/
theorem transmit_bearer {t : Token} :
    transmit (bytes ("Bearer " ++ t.text)) = bytes ("Bearer " ++ t.text) := by
  have hscheme : bytes "Bearer " = 66 :: bytes "earer " := by decide +kernel
  have hutf8 : bytes t.text = Utf8.utf8 t.text.toList := Utf8.toList_toUTF8 _
  have hne : Utf8.utf8 t.text.toList ≠ [] := by
    intro hnil
    have hempty := Utf8.utf8_injective (hnil.trans Utf8.utf8_nil.symm)
    exact t.nonempty (String.toList_inj.mp hempty)
  rw [bytes_bearer, hutf8]
  refine List.Trimmed.trim_eq ⟨?_, ?_⟩
  · rw [hscheme]
    rintro b ⟨⟩
    rfl
  · intro b hb
    rw [Option.mem_def, List.getLast?_append_of_ne_nil _ hne] at hb
    obtain ⟨pre, hpre⟩ := List.getLast?_eq_some_iff.mp hb
    -- a space at the end would be the last character of the token
    have hspace : ∀ c : Char, c.toNat < 128 → isWhitespace c = true → b ≠ c.toUInt8 := by
      rintro c hc hwhite rfl
      obtain ⟨cs₁, cs₂, hcs, -, hrest⟩ := (Utf8.utf8_eq_append_ascii_iff hc).mp hpre
      obtain rfl := Utf8.utf8_injective (hrest.trans Utf8.utf8_nil.symm)
      have hlast := t.trimmed.last c (by rw [hcs]; simp)
      rw [hwhite] at hlast
      cases hlast
    have h32 : b ≠ 32 := hspace ' ' (by decide) (by decide)
    have h9 : b ≠ 9 := hspace '\t' (by decide) (by decide)
    simp [h32, h9]

/-- The token of a poll side is accepted exactly when all of its characters are visible and it has
the digest of the token of the queue side. -/
theorem authorized_bearer_iff {ours theirs : Token} :
    (∃ value, theirs.bearer = some value ∧
      authorized digest (ours.hash digest) [("authorization", transmit value)] = true) ↔
      (∀ c ∈ theirs.text.toList, IsVisible c) ∧ theirs.hash digest = ours.hash digest := by
  have hutf8 : bytes theirs.text = Utf8.utf8 theirs.text.toList := Utf8.toList_toUTF8 _
  have hscheme : (bytes "Bearer ").all isVisible = true := by decide +kernel
  -- the header can be read exactly when the token is visible
  have hvisible : (bytes ("Bearer " ++ theirs.text)).all isVisible = true ↔
      ∀ c ∈ theirs.text.toList, IsVisible c := by
    rw [bytes_bearer, List.all_append, hscheme, Bool.true_and, List.all_eq_true, hutf8,
      all_isVisible_iff]
  have hvalid : (bytes ("Bearer " ++ theirs.text)).all isVisible = true →
      (bytes ("Bearer " ++ theirs.text)).all isHeaderByte = true := by
    simp only [List.all_eq_true]
    exact fun h b hb => isHeaderByte_of_isVisible (h b hb)
  -- and then the queue side reads the token out of it
  have hread : (bytes ("Bearer " ++ theirs.text)).dropPrefix? (bytes "Bearer ") =
      some (bytes theirs.text) := by
    rw [bytes_bearer, List.dropPrefix?_append_of_beq _ (beq_self_eq_true _)]
  constructor
  · rintro ⟨value, hvalue, hauthorized⟩
    obtain ⟨-, hvalue⟩ := Option.ite_none_right_eq_some.mp hvalue
    obtain rfl := Option.some_inj.mp hvalue
    rw [transmit_bearer] at hauthorized
    by_cases hall : (bytes ("Bearer " ++ theirs.text)).all isVisible = true
    · refine ⟨hvisible.mp hall, ?_⟩
      simpa [authorized, toStr, hall, hread, verifyToken, Token.hash] using hauthorized
    · simp [authorized, toStr, hall] at hauthorized
  · rintro ⟨hchars, hdigest⟩
    have hall := hvisible.mpr hchars
    refine ⟨_, if_pos (hvalid hall), ?_⟩
    rw [transmit_bearer]
    simpa [authorized, toStr, hall, hread, verifyToken, Token.hash] using hdigest

/-- A file with nothing but white space in it is refused, and any other one is trimmed. -/
theorem Token.load_eq_ok_iff {table path raw : String} {t : Token} :
    Token.load table path (.ok raw) = .ok t ↔ t.text = trim raw := by
  rw [Token.load]
  split
  next hempty =>
    rw [hempty]
    simpa using t.nonempty
  next =>
    obtain ⟨text, trimmed, nonempty⟩ := t
    simp [eq_comm]

/-- Which contents of the two token files let the poll side in: both files have something in them
apart from white space, that of the poll side is visible ASCII, and the digests of the two agree. -/
theorem accepted_iff {ourPath theirPath ourFile theirFile : String} :
    (∃ ours theirs value, Token.load "queue" ourPath (.ok ourFile) = .ok ours ∧
      Token.load "poll" theirPath (.ok theirFile) = .ok theirs ∧ theirs.bearer = some value ∧
      authorized digest (ours.hash digest) [("authorization", transmit value)] = true) ↔
      trim ourFile ≠ "" ∧ trim theirFile ≠ "" ∧ (∀ c ∈ (trim theirFile).toList, IsVisible c) ∧
        digest (bytes (trim theirFile)) = digest (bytes (trim ourFile)) := by
  simp only [Token.load_eq_ok_iff]
  constructor
  · rintro ⟨ours, theirs, value, hours, htheirs, hvalue, hauthorized⟩
    rw [← hours, ← htheirs]
    exact ⟨ours.nonempty, theirs.nonempty, authorized_bearer_iff.mp ⟨value, hvalue, hauthorized⟩⟩
  · rintro ⟨hours, htheirs, hchars, hdigest⟩
    -- the tokens that are loaded
    have hload : ∀ raw, trim raw ≠ "" → ∃ t : Token, t.text = trim raw := fun raw hne =>
      ⟨⟨trim raw, by rw [trim, String.toList_ofList]; exact List.trimmed_trim, hne⟩, rfl⟩
    obtain ⟨ours, hours⟩ := hload ourFile hours
    obtain ⟨theirs, htheirs⟩ := hload theirFile htheirs
    rw [← htheirs] at hchars hdigest
    rw [← hours] at hdigest
    obtain ⟨value, hvalue, hauthorized⟩ := authorized_bearer_iff.mpr ⟨hchars, hdigest⟩
    exact ⟨ours, theirs, value, hours, htheirs, hvalue, hauthorized⟩

end Pincerbell
