import Pincerbell.Api.RoundTrip
import Pincerbell.Api.Text
import Pincerbell.Message

/-!
# Encrypted Web Push bodies

The body that `encrypt` in `webpush.rs` writes, and a receiver that reads it as RFC 8188 and RFC
8291 say. The body is one record, whatever its length, and the header always announces records of
4096 bytes.

* `Primitives` — the key agreement, the key derivation and the cipher.
* `encrypt` — the body for a plaintext.
* `receive` — what a conforming receiver reads.
* `receive_encrypt_iff` — the plaintexts that are read back.
* `decodable_iff` — the same for the payload of a notification.
* `not_decodable` — a notification with a long room name.
-/

namespace Pincerbell.WebPushApp

open ContentCoding (Aead Header be32 openRecords)

/-! ### Primitives -/

/-- Elliptic curve Diffie-Hellman, as agreeing on both sides. -/
structure Ecdh where
  Secret : Type
  publicKey : Secret → PublicKey
  /-- The uncompressed point. -/
  encode : PublicKey → Bytes
  decode : Bytes → Option PublicKey
  diffieHellman : Secret → PublicKey → Bytes
  length_encode : ∀ s, (encode (publicKey s)).length = 65
  decode_encode : ∀ s, decode (encode (publicKey s)) = some (publicKey s)
  agree : ∀ s t, diffieHellman s (publicKey t) = diffieHellman t (publicKey s)

/-- HKDF: extract with a salt, then expand to a length. -/
structure Hkdf where
  derive (salt ikm info : Bytes) (length : ℕ) : Bytes
  length_derive : ∀ salt ikm info length, (derive salt ikm info length).length = length

/-- The primitives of the encryption. -/
structure Primitives where
  ecdh : Ecdh
  hkdf : Hkdf
  aead : Aead

variable (P : Primitives)

/-! ### The sender -/

/-- The body for a plaintext. Derivation and cipher fail only on lengths that do not occur. -/
def encrypt (plaintext : Bytes) (uaPublic : PublicKey) (auth : Bytes) (asSecret : P.ecdh.Secret)
    (salt : Vector UInt8 16) : Bytes :=
  let uaPubBytes := P.ecdh.encode uaPublic
  let asPubBytes := P.ecdh.encode (P.ecdh.publicKey asSecret)
  let shared := P.ecdh.diffieHellman asSecret uaPublic
  let keyInfo := bytes "WebPush: info\x00" ++ uaPubBytes ++ asPubBytes
  let ikm := P.hkdf.derive auth shared keyInfo 32
  let cek := P.hkdf.derive salt.toList ikm (bytes "Content-Encoding: aes128gcm\x00") 16
  let nonce := P.hkdf.derive salt.toList ikm (bytes "Content-Encoding: nonce\x00") 12
  -- a single record: the plaintext, and the delimiter of the last record
  let ciphertext := P.aead.encrypt cek nonce (plaintext ++ [2])
  let rs := 4096
  salt.toList ++ be32 rs ++ [65] ++ asPubBytes ++ ciphertext

/-! ### The receiver -/

/-- The content encryption key and the nonce, from the input keying material. -/
def contentKeys (ikm salt : Bytes) : Bytes × Bytes :=
  (P.hkdf.derive salt ikm (bytes "Content-Encoding: aes128gcm\x00") 16,
    P.hkdf.derive salt ikm (bytes "Content-Encoding: nonce\x00") 12)

/-- The input keying material, from the shared secret of the two keys and the auth secret. -/
def keyingMaterial (uaSecret : P.ecdh.Secret) (auth : Bytes) (asPublic : PublicKey)
    (keyId : Bytes) : Bytes :=
  P.hkdf.derive auth (P.ecdh.diffieHellman uaSecret asPublic)
    (bytes "WebPush: info\x00" ++ P.ecdh.encode (P.ecdh.publicKey uaSecret) ++ keyId) 32

/-- What a receiver with this key and auth secret reads. The key id of the header is the public key
of the sender; a record size that leaves no room for data is refused. -/
def receive (uaSecret : P.ecdh.Secret) (auth message : Bytes) : Option Bytes := do
  let (header, records) ← Header.read message
  let asPublic ← P.ecdh.decode header.keyId
  let (cek, nonce) :=
    contentKeys P (keyingMaterial P uaSecret auth asPublic header.keyId) header.salt
  if header.recordSize < 18 then none
  else openRecords P.aead cek nonce header.recordSize 0 records

variable {P} {plaintext auth : Bytes} {uaSecret asSecret : P.ecdh.Secret} {salt : Vector UInt8 16}

/-- The header that the sender writes. -/
def header (P : Primitives) (asSecret : P.ecdh.Secret) (salt : Vector UInt8 16) : Header :=
  ⟨salt.toList, 4096, P.ecdh.encode (P.ecdh.publicKey asSecret)⟩

/-- The keys that a receiver derives for that header. -/
def keys (P : Primitives) (uaSecret : P.ecdh.Secret) (auth : Bytes) (asSecret : P.ecdh.Secret)
    (salt : Vector UInt8 16) : Bytes × Bytes :=
  contentKeys P
    (keyingMaterial P uaSecret auth (P.ecdh.publicKey asSecret) (header P asSecret salt).keyId)
    (header P asSecret salt).salt

/-- The sender seals the plaintext under the keys that the receiver derives. -/
theorem encrypt_eq :
    encrypt P plaintext (P.ecdh.publicKey uaSecret) auth asSecret salt =
      (header P asSecret salt).write ++
        P.aead.encrypt (keys P uaSecret auth asSecret salt).1
          (keys P uaSecret auth asSecret salt).2 (plaintext ++ [2]) := by
  -- the length byte of the key id
  have hid : UInt8.ofNat (P.ecdh.encode (P.ecdh.publicKey asSecret)).length = 65 := by
    rw [P.ecdh.length_encode]
    rfl
  simp only [encrypt, Header.write, header, keys, contentKeys, keyingMaterial, hid,
    P.ecdh.agree asSecret uaSecret]
  simp

/-- The receiver finds the header, and the record behind it. -/
theorem read_encrypt :
    Header.read (encrypt P plaintext (P.ecdh.publicKey uaSecret) auth asSecret salt) =
      some (header P asSecret salt,
        P.aead.encrypt (keys P uaSecret auth asSecret salt).1
          (keys P uaSecret auth asSecret salt).2 (plaintext ++ [2])) := by
  rw [encrypt_eq, Header.read_write]
  · simp [header]
  · exact (by decide : 4096 < 256 ^ 4)
  · rw [header, P.ecdh.length_encode]
    decide

/-- A receiver reads the plaintext back exactly when its record is no longer than announced. -/
theorem receive_encrypt_iff :
    receive P uaSecret auth (encrypt P plaintext (P.ecdh.publicKey uaSecret) auth asSecret salt) =
        some plaintext ↔ plaintext.length + 17 ≤ 4096 := by
  have hnonce : (keys P uaSecret auth asSecret salt).2.length = 12 := P.hkdf.length_derive _ _ _ _
  rw [← ContentCoding.openRecords_encrypt_iff hnonce (by decide : 0 < 4096)]
  rw [receive, read_encrypt]
  simp only [Option.bind_eq_bind, Option.bind_some, header, P.ecdh.decode_encode]
  rfl

/-! ### The payload of a notification -/

/-- The plaintext of a delivery. -/
def payloadText (formatFloat : UInt64 → Bytes) (n : Notification) : Bytes :=
  (buildPayload n).text formatFloat

/-- The text is no shorter than the name of the room. -/
theorem length_le_payloadText (formatFloat : UInt64 → Bytes) (n : Notification) {name : String}
    (hname : n.roomName = some name) :
    name.toList.length ≤ (payloadText formatFloat n).length := by
  obtain ⟨m, hm, hget⟩ : ∃ m, buildPayload n = .object m ∧
      Map.get m "room_name" = n.roomName.map .string :=
    ⟨_, rfl, by simp [Notification.putMetadata]⟩
  rw [hname] at hget
  have hle := Value.length_text_le_of_mem formatFloat (Map.mem_of_get hget)
  rw [payloadText, hm]
  exact Nat.le_trans (Value.length_le_quote name) hle

/-- For a subscription whose public key the receiver owns, the payload of a notification is read
back, and the record is as the header announces it, exactly when the text of the payload is no
longer than 4079 bytes. -/
theorem decodable_iff (P : Primitives) (formatFloat : UInt64 → Bytes) (n : Notification)
    (sub : Subscription) (uaSecret : P.ecdh.Secret) (hkey : P.ecdh.publicKey uaSecret = sub.p256dh)
    (asSecret : P.ecdh.Secret) (salt : Vector UInt8 16) :
    let message := encrypt P (payloadText formatFloat n) sub.p256dh sub.auth asSecret salt
    (receive P uaSecret sub.auth message = some (payloadText formatFloat n) ↔
      (payloadText formatFloat n).length ≤ 4079) ∧
    ∃ header record, Header.read message = some (header, record) ∧ header.recordSize = 4096 ∧
      (record.length ≤ header.recordSize ↔ (payloadText formatFloat n).length ≤ 4079) := by
  intro message
  have hmessage : message = encrypt P (payloadText formatFloat n) (P.ecdh.publicKey uaSecret)
      sub.auth asSecret salt := by rw [hkey]
  rw [hmessage]
  refine ⟨receive_encrypt_iff.trans ?_, _, _, read_encrypt, rfl, ?_⟩
  · omega
  · rw [P.aead.length_encrypt, List.length_append, List.length_singleton]
    show _ ≤ 4096 ↔ _
    omega

/-! #### A message that cannot be read -/

/-- A cipher for tests: the tag is zeros, and nothing is secret. -/
def plainAead : Aead where
  encrypt _ _ plaintext := plaintext ++ List.replicate 16 0
  decrypt _ _ ciphertext :=
    if ciphertext = ciphertext.take (ciphertext.length - 16) ++ List.replicate 16 0 then
      some (ciphertext.take (ciphertext.length - 16))
    else none
  length_encrypt _ _ plaintext := by simp
  decrypt_eq_some_iff := by
    intro _ _ ciphertext plaintext
    rw [Option.ite_none_right_eq_some, Option.some_inj]
    constructor
    · rintro ⟨heq, rfl⟩
      exact heq
    · rintro rfl
      simp

/-- One key pair, and keys of zeros. -/
def plainPrimitives : Primitives where
  ecdh :=
    { Secret := Unit
      publicKey := fun _ => ⟨4 :: List.replicate 64 0⟩
      encode := fun key => key.sec1
      decode := fun encoded => some ⟨encoded⟩
      diffieHellman := fun _ _ => List.replicate 32 0
      length_encode := fun _ => rfl
      decode_encode := fun _ => rfl
      agree := fun _ _ => rfl }
  hkdf :=
    { derive := fun _ _ _ length => List.replicate length 0
      length_derive := fun _ _ _ _ => List.length_replicate }
  aead := plainAead

/-- A subscription of the key pair. -/
def plainSubscription : Subscription :=
  ⟨⟨"https", some "push.example.test"⟩, ⟨4 :: List.replicate 64 0⟩, List.replicate 16 1⟩

/-- The payload of a notification without metadata. -/
theorem decodable_iff_plain :
    let n : Notification := { devices := [{ appId := "app", pushkey := "key" }] }
    let text := payloadText (fun _ => []) n
    let message := encrypt plainPrimitives text plainSubscription.p256dh plainSubscription.auth ()
      (Vector.replicate 16 7)
    receive plainPrimitives () plainSubscription.auth message = some text ↔ text.length ≤ 4079 :=
  (decodable_iff plainPrimitives _ _ plainSubscription () rfl () _).1

/-- A notification for a room with a long name. -/
def longNamed (k : ℕ) : Notification :=
  { devices := [{ appId := "app", pushkey := "key" }], eventId := some "$event1:example.test"
    roomName := some (String.ofList (List.replicate k 'a')) }

/-- A body whose record is longer than announced. -/
theorem not_decodable :
    ¬ ∀ (P : Primitives) (formatFloat : UInt64 → Bytes) (n : Notification) (sub : Subscription)
        (uaSecret asSecret : P.ecdh.Secret) (salt : Vector UInt8 16),
      P.ecdh.publicKey uaSecret = sub.p256dh →
      receive P uaSecret sub.auth
          (encrypt P (payloadText formatFloat n) sub.p256dh sub.auth asSecret salt) =
        some (payloadText formatFloat n) := by
  intro h
  have hread := h plainPrimitives (fun _ => []) (longNamed 4080) plainSubscription () ()
    (Vector.replicate 16 7) rfl
  -- the name alone does not fit into the record
  have hshort := receive_encrypt_iff.mp hread
  have hlong := length_le_payloadText (fun _ => []) (longNamed 4080) rfl
  rw [String.toList_ofList, List.length_replicate] at hlong
  omega

end Pincerbell.WebPushApp
