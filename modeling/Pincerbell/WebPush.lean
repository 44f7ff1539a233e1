import Pincerbell.Api

/-!
# Web Push subscriptions

What `webpush.rs` decides before it contacts a push service: whether a pusher carries a usable
subscription, and whether the endpoint it names is one the operator allows.

The decoders of the libraries are parameters (`Crates`): base64url, SEC1 points and URLs.
-/

namespace Pincerbell

/-- `reqwest::Url`, as far as the gateway looks at it. -/
structure Url where
  scheme : String
  hostStr : Option String
  deriving DecidableEq, Repr

/-- `p256::PublicKey`, by its encoding. -/
structure PublicKey where
  sec1 : List UInt8
  deriving DecidableEq, Repr

/-- The decoders of the libraries behind the Web Push backend. -/
structure Crates where
  /-- `B64.decode`. -/
  decodeBase64 : String → Except String (List UInt8)
  /-- `PublicKey::from_sec1_bytes`. -/
  publicKey : List UInt8 → Except String PublicKey
  /-- `Url::parse`. -/
  parseUrl : String → Except String Url

/-- The configured backend. -/
structure WebPushApp where
  allowedEndpoints : List String
  deriving DecidableEq, Repr

/-- An unpacked subscription. -/
structure Subscription where
  endpoint : Url
  p256dh : PublicKey
  auth : List UInt8
  deriving DecidableEq, Repr

/-- A string field of the pusher data. -/
def PusherData.strField (data : PusherData) (key : String) : Option String :=
  (data.rest.get key).bind Value.asStr

/-- Extract endpoint, p256dh and auth from the device: the pushkey is the public key, the pusher
data carries the rest. -/
def subscription (crates : Crates) (device : Device) : Except String Subscription := do
  let bytes ← (crates.decodeBase64 device.pushkey).mapError ("pushkey is not base64url: " ++ ·)
  let p256dh ← (crates.publicKey bytes).mapError ("pushkey: " ++ ·)
  let data ← device.data.elim (.error "pusher data missing") .ok
  let endpoint ← (data.strField "endpoint").elim (.error "pusher data has no endpoint") .ok
  let endpoint ← (crates.parseUrl endpoint).mapError ("endpoint: " ++ ·)
  let auth ← (data.strField "auth").elim (.error "pusher data has no auth secret") .ok
  let auth ← (crates.decodeBase64 auth).mapError ("auth is not base64url: " ++ ·)
  return { endpoint, p256dh, auth }

/-- The bytes of a string. -/
def bytes (s : String) : List UInt8 := s.toUTF8.toList

/-- Whether an entry of the allowlist covers the host: exactly, or as `*.suffix` a subdomain. -/
def hostAllowed (host entry : String) : Bool :=
  if (bytes "*.").isPrefixOf (bytes entry) then
    let suffix := (bytes entry).drop 2
    let h := bytes host
    suffix.length + 1 < h.length && suffix.isSuffixOf h &&
      h[h.length - suffix.length - 1]? == some '.'.toUInt8
  else host == entry

/-- The gate against forged endpoints: https only, plain http solely for loopback, and a host on
the allowlist. -/
def endpointAllowed (url : Url) (allowlist : List String) : Except String Unit :=
  match url.hostStr with
  | none => .error "endpoint has no host"
  | some host =>
    let loopback :=
      host == "localhost" || host == "127.0.0.1" || host == "[::1]" || host == "::1"
    if url.scheme == "https" || (url.scheme == "http" && loopback) then
      if allowlist.any (hostAllowed host) then .ok ()
      else .error ("host " ++ host ++ " not in allowed_endpoints")
    else .error ("scheme " ++ url.scheme ++ " not allowed")

end Pincerbell
