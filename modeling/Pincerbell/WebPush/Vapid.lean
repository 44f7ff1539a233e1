import Pincerbell.Api.Text
import Pincerbell.Gateway
import Pincerbell.Support.Base64

/-!
# The VAPID header

What `vapid_header` of `webpush.rs` writes when it signs a new token: a JSON web token whose claims
name the origin of the endpoint, and the public key that it can be verified with.

* `Signer.vapidValue` — the header.
* `Received`, `receive` — how a push service reads such a header.
* `receive_vapidValue` — it reads the claims that were signed, for any origin, contact and time.
-/

namespace Pincerbell

/-- VAPID token lifetime, in seconds. -/
def vapidLifetimeSecs : ℕ := 12 * 60 * 60

/-- What a backend signs its tokens with. -/
structure Signer where
  /-- The `sub` claim. -/
  contact : String
  /-- The uncompressed point. -/
  publicKey : Bytes
  /-- `SigningKey::sign`. -/
  sign : Bytes → Bytes
  /-- How the JSON library prints a float. -/
  formatFloat : UInt64 → Bytes

namespace Signer

variable (signer : Signer)

def jwtHeader : Bytes := bytes "\x7b\"typ\":\"JWT\",\"alg\":\"ES256\"\x7d"

/-- The claims of a token that is signed at `secs` after 1970. -/
def claims (audience : String) (secs : ℕ) : Value :=
  .object [
    ("aud", .string audience),
    ("exp", .number (.posInt (.ofNat (secs + vapidLifetimeSecs)))),
    ("sub", .string signer.contact)]

/-- The part of a token that is signed. -/
def signingInput (audience : String) (secs : ℕ) : Bytes :=
  Base64.encode jwtHeader ++
    '.'.toUInt8 :: Base64.encode ((signer.claims audience secs).text signer.formatFloat)

/-- A token. -/
def jwt (audience : String) (secs : ℕ) : Bytes :=
  let input := signer.signingInput audience secs
  input ++ '.'.toUInt8 :: Base64.encode (signer.sign input)

/-- The header for a new token. -/
def vapidValue (audience : String) (secs : ℕ) : Bytes :=
  bytes "vapid t=" ++ signer.jwt audience secs ++ bytes ", k=" ++ Base64.encode signer.publicKey

end Signer

/-! ### Reading it -/

/-- What a push service reads in a header. -/
structure Received where
  /-- The JSON texts of the token. -/
  header : Bytes
  claims : Bytes
  signature : Bytes
  /-- What the signature is of. -/
  input : Bytes
  /-- The key that it is verified with. -/
  publicKey : Bytes
  deriving DecidableEq, Repr

/-- Read a header: the scheme, the parameters `t` and `k`, and the three parts of the token. -/
def receive (value : Bytes) : Option Received := do
  let params ← value.dropPrefix? (bytes "vapid ")
  match params.splitOn ','.toUInt8 with
  | [t, k] =>
    let jwt ← t.dropPrefix? (bytes "t=")
    let key ← k.dropPrefix? (bytes " k=")
    match jwt.splitOn '.'.toUInt8 with
    | [header, claims, signature] =>
      return {
        header := ← Base64.decode header
        claims := ← Base64.decode claims
        signature := ← Base64.decode signature
        input := header ++ '.'.toUInt8 :: claims
        publicKey := ← Base64.decode key }
    | _ => none
  | _ => none

theorem dropPrefix?_append (p s : Bytes) : (p ++ s).dropPrefix? p = some s :=
  List.dropPrefix?_append_of_beq s (beq_self_eq_true p)

/-- What is no digit does not occur in an encoded text. -/
theorem notMem_encode {b : UInt8} (hb : Base64.value b = none) (bs : Bytes) :
    b ∉ Base64.encode bs := by
  intro hmem
  have hdigit := Base64.value_of_mem_encode hmem
  rw [hb] at hdigit
  cases hdigit

/-! ### What is read -/

section Parts

variable (header claims signature key : Bytes)

/-- A token of three parts. -/
def token : Bytes :=
  Base64.encode header ++ '.'.toUInt8 :: (Base64.encode claims ++
    '.'.toUInt8 :: Base64.encode signature)

theorem dot_notMem_encode : ∀ bs, '.'.toUInt8 ∉ Base64.encode bs := notMem_encode (by decide)

theorem comma_notMem_encode : ∀ bs, ','.toUInt8 ∉ Base64.encode bs := notMem_encode (by decide)

theorem splitOn_token : (token header claims signature).splitOn '.'.toUInt8 =
    [Base64.encode header, Base64.encode claims, Base64.encode signature] := by
  rw [token, List.splitOn_append_cons_self_of_not_mem (dot_notMem_encode _),
    List.splitOn_append_cons_self_of_not_mem (dot_notMem_encode _),
    List.splitOn_eq_singleton (dot_notMem_encode _)]

/-- The two parameters are told apart at the comma between them. -/
theorem splitOn_params : (bytes "t=" ++ token header claims signature ++
    ','.toUInt8 :: (bytes " k=" ++ Base64.encode key)).splitOn ','.toUInt8 =
      [bytes "t=" ++ token header claims signature, bytes " k=" ++ Base64.encode key] := by
  have hne : ','.toUInt8 ≠ '.'.toUInt8 := by decide
  have ht : ','.toUInt8 ∉ bytes "t=" ++ token header claims signature := by
    rw [List.mem_append, not_or]
    exact ⟨by decide +kernel, by simp [token, comma_notMem_encode, hne]⟩
  have hk : ','.toUInt8 ∉ bytes " k=" ++ Base64.encode key := by
    rw [List.mem_append, not_or]
    exact ⟨by decide +kernel, comma_notMem_encode _⟩
  rw [List.splitOn_append_cons_self_of_not_mem ht, List.splitOn_eq_singleton hk]

/-- Each part of a header is read as it was written. -/
theorem receive_parts : receive (bytes "vapid t=" ++ token header claims signature ++
    bytes ", k=" ++ Base64.encode key) = some {
      header, claims, signature
      input := Base64.encode header ++ '.'.toUInt8 :: Base64.encode claims
      publicKey := key } := by
  have hscheme : bytes "vapid t=" = bytes "vapid " ++ bytes "t=" := by decide +kernel
  have hcomma : bytes ", k=" = ','.toUInt8 :: bytes " k=" := by decide +kernel
  -- the header, cut where the reader cuts it
  have hvalue : bytes "vapid t=" ++ token header claims signature ++ bytes ", k=" ++
      Base64.encode key = bytes "vapid " ++ (bytes "t=" ++ token header claims signature ++
        ','.toUInt8 :: (bytes " k=" ++ Base64.encode key)) := by
    simp [hscheme, hcomma]
  rw [hvalue, receive, dropPrefix?_append]
  simp only [Option.bind_eq_bind, Option.bind_some, splitOn_params, dropPrefix?_append,
    splitOn_token, Base64.decode_encode]
  rfl

end Parts

namespace Signer

variable (signer : Signer) (audience : String) (secs : ℕ)

/-- A header is one of the parts that were signed. -/
theorem vapidValue_eq : signer.vapidValue audience secs =
    bytes "vapid t=" ++ token jwtHeader ((signer.claims audience secs).text signer.formatFloat)
      (signer.sign (signer.signingInput audience secs)) ++ bytes ", k=" ++
        Base64.encode signer.publicKey := by
  rw [vapidValue, jwt, token]
  conv_lhs =>
    enter [1, 1, 2, 1]
    rw [signingInput]
  simp

/-- A push service reads in the header what was written: the claims with the audience, the expiry
and the contact, a signature of the part that it covers, and the public key. -/
theorem receive_vapidValue :
    receive (signer.vapidValue audience secs) = some {
      header := jwtHeader
      claims := (signer.claims audience secs).text signer.formatFloat
      signature := signer.sign (signer.signingInput audience secs)
      input := signer.signingInput audience secs
      publicKey := signer.publicKey } := by
  rw [vapidValue_eq, receive_parts]
  rfl

end Signer

end Pincerbell
