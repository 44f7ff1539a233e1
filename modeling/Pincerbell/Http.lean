import Pincerbell.Gateway
import Pincerbell.Support.AllOrNothing

/-!
# The HTTP client

The client that `http_client` in `provider.rs` builds, and what one request of it contacts. The
library follows redirects on its own: a response with a redirect status and a `Location` leads to
another request, of the URL that the server named.

* `HttpOptions`, `ClientBuilder`, `httpClient` — how the client is configured.
* `HttpOptions.Buildable` — what has to be there for a client.
* `httpClient_eq_ok_iff` — when there is one, and what it is then.
* `Reply`, `Client.send` — the URLs that one request contacts, and the response it ends with.
* `redirects`, `follow_fst` — the locations that the leading redirects of the replies name.
-/

namespace Pincerbell

/-! ### Building a client -/

/-- The resolved proxy and TLS options. -/
structure HttpOptions where
  proxy : Option String := none
  tlsCaFile : Option String := none
  tlsAcceptInvalidCerts : Bool := false

/-- What a client does with a redirect. -/
inductive RedirectPolicy
  | none
  /-- Follow up to `max` of them. -/
  | limited (max : ℕ)
  deriving DecidableEq, Repr

/-- `reqwest::ClientBuilder`, with the defaults of the library. -/
structure ClientBuilder where
  timeout : Option Duration := none
  proxy : Option String := none
  rootCertificates : List (List UInt8) := []
  dangerAcceptInvalidCerts : Bool := false
  redirect : RedirectPolicy := .limited 10

/-- A client that has been built. -/
abbrev Client := ClientBuilder

/-- The parts of the libraries and of the system that a client is built with. -/
structure HttpCrates where
  /-- `Proxy::all`. -/
  proxyAll : String → Except String Unit
  /-- `std::fs::read`. -/
  readFile : String → Except String (List UInt8)
  /-- `Certificate::from_pem_bundle`. -/
  fromPemBundle : List UInt8 → Except String (List (List UInt8))
  /-- `ClientBuilder::build`. -/
  build : ClientBuilder → Except String Unit

namespace ClientBuilder

variable (crates : HttpCrates) {builder builder' : ClientBuilder}

/-- The proxy option; an empty one opts out. -/
def setProxy (builder : ClientBuilder) (opts : HttpOptions) : Except String ClientBuilder :=
  match opts.proxy.filter (· ≠ "") with
  | none => .ok builder
  | some url =>
    match crates.proxyAll url with
    | .error e => .error ("proxy " ++ url ++ ": " ++ e)
    | .ok _ => .ok { builder with proxy := some url }

/-- The CA bundle; an empty path opts out. -/
def setCaFile (builder : ClientBuilder) (opts : HttpOptions) : Except String ClientBuilder :=
  match opts.tlsCaFile.filter (· ≠ "") with
  | none => .ok builder
  | some path =>
    match crates.readFile path with
    | .error e => .error ("tls_ca_file " ++ path ++ ": " ++ e)
    | .ok pem =>
      match crates.fromPemBundle pem with
      | .error e => .error ("tls_ca_file " ++ path ++ ": " ++ e)
      | .ok certs =>
        if certs.isEmpty then .error ("tls_ca_file " ++ path ++ ": no certificates found")
        else .ok { builder with rootCertificates := certs }

end ClientBuilder

/-- The certificates that the options add: those of the CA file, which has to have some. An empty
path is as good as none. -/
inductive HttpOptions.Certificates (crates : HttpCrates) (opts : HttpOptions) :
    List (List UInt8) → Prop
  | none : opts.tlsCaFile.filter (· ≠ "") = .none → Certificates crates opts []
  | bundle {path pem certs} : opts.tlsCaFile.filter (· ≠ "") = some path →
    crates.readFile path = .ok pem → crates.fromPemBundle pem = .ok certs → certs ≠ [] →
    Certificates crates opts certs

namespace ClientBuilder

variable {crates : HttpCrates} {builder builder' : ClientBuilder} {opts : HttpOptions}

theorem setProxy_eq_ok_iff :
    builder.setProxy crates opts = .ok builder' ↔
      (∀ url, opts.proxy.filter (· ≠ "") = some url → crates.proxyAll url = .ok ()) ∧
        builder' = { builder with proxy := (opts.proxy.filter (· ≠ "")).or builder.proxy } := by
  unfold setProxy
  generalize opts.proxy.filter (· ≠ "") = proxy
  cases proxy with
  | none => exact ⟨fun h => ⟨by simp, (Except.ok.inj h).symm⟩, fun h => congrArg _ h.2.symm⟩
  | some url => cases hurl : crates.proxyAll url <;> simp [hurl, eq_comm]

theorem setCaFile_eq_ok_iff (hbuilder : builder.rootCertificates = []) :
    builder.setCaFile crates opts = .ok builder' ↔ ∃ certs,
      opts.Certificates crates certs ∧ builder' = { builder with rootCertificates := certs } := by
  unfold setCaFile
  constructor
  · intro h
    split at h
    next hnone =>
      obtain rfl := Except.ok.inj h
      exact ⟨[], .none hnone, hbuilder ▸ rfl⟩
    next path hsome =>
      split at h
      next => cases h
      next pem hpem =>
        split at h
        next => cases h
        next certs hcerts =>
          split at h
          next => cases h
          next hne =>
            obtain rfl := Except.ok.inj h
            exact ⟨certs, .bundle hsome hpem hcerts (by simpa using hne), rfl⟩
  · rintro ⟨certs, hcerts, rfl⟩
    cases hcerts with
    | none hnone =>
      rw [hnone, ← hbuilder]
    | bundle hsome hpem hcerts hne =>
      rw [hsome]
      dsimp only
      rw [hpem]
      dsimp only
      rw [hcerts]
      dsimp only
      rw [if_neg (by simpa using hne)]

end ClientBuilder

/-- The client that every outbound path uses. -/
def httpClient (crates : HttpCrates) (opts : HttpOptions) (timeout : Option Duration) :
    Except String Client := do
  let builder ← ClientBuilder.setProxy crates { timeout } opts
  let builder ← builder.setCaFile crates opts
  let builder :=
    { builder with dangerAcceptInvalidCerts := opts.tlsAcceptInvalidCerts }
  crates.build builder
  return builder

/-- The client of the options, with these certificates. What it does with redirects is up to the
library. -/
def HttpOptions.client (opts : HttpOptions) (timeout : Option Duration)
    (certs : List (List UInt8)) : Client where
  timeout
  proxy := opts.proxy.filter (· ≠ "")
  rootCertificates := certs
  dangerAcceptInvalidCerts := opts.tlsAcceptInvalidCerts

/-- The options lead to a client: the proxy can be used, the certificates can be read, and the
library builds the client. -/
def HttpOptions.Buildable (crates : HttpCrates) (opts : HttpOptions) (timeout : Option Duration) :
    Prop :=
  (∀ url, opts.proxy.filter (· ≠ "") = some url → crates.proxyAll url = .ok ()) ∧
    ∃ certs, opts.Certificates crates certs ∧ crates.build (opts.client timeout certs) = .ok ()

section

variable {crates : HttpCrates} {opts : HttpOptions} {timeout : Option Duration} {client : Client}

theorem httpClient_eq_ok_iff :
    httpClient crates opts timeout = .ok client ↔
      (∀ url, opts.proxy.filter (· ≠ "") = some url → crates.proxyAll url = .ok ()) ∧
        ∃ certs, opts.Certificates crates certs ∧
          crates.build (opts.client timeout certs) = .ok () ∧
          client = opts.client timeout certs := by
  unfold httpClient
  simp only [AllOrNothing.bind_eq_ok_iff]
  constructor
  · rintro ⟨builder, hset, builder', hca, u, hbuild, h⟩
    obtain rfl := Except.ok.inj h
    obtain ⟨hproxy, rfl⟩ := ClientBuilder.setProxy_eq_ok_iff.mp hset
    obtain ⟨certs, hcerts, rfl⟩ := (ClientBuilder.setCaFile_eq_ok_iff rfl).mp hca
    rw [Option.or_none] at hbuild ⊢
    exact ⟨hproxy, certs, hcerts, hbuild, rfl⟩
  · rintro ⟨hproxy, certs, hcerts, hbuild, rfl⟩
    refine ⟨_, ClientBuilder.setProxy_eq_ok_iff.mpr ⟨hproxy, rfl⟩, _,
      (ClientBuilder.setCaFile_eq_ok_iff rfl).mpr ⟨certs, hcerts, rfl⟩, (), ?_⟩
    rw [Option.or_none]
    exact ⟨hbuild, rfl⟩

theorem exists_httpClient_iff :
    (∃ client, httpClient crates opts timeout = .ok client) ↔ opts.Buildable crates timeout := by
  simp only [httpClient_eq_ok_iff]
  constructor
  · rintro ⟨client, hproxy, certs, hcerts, hbuild, -⟩
    exact ⟨hproxy, certs, hcerts, hbuild⟩
  · rintro ⟨hproxy, certs, hcerts, hbuild⟩
    exact ⟨_, hproxy, certs, hcerts, hbuild, rfl⟩

/-- No option sets a redirect policy, so that every client has the one of the library. -/
theorem redirect_of_httpClient (h : httpClient crates opts timeout = .ok client) :
    client.redirect = .limited 10 := by
  obtain ⟨-, certs, -, -, rfl⟩ := httpClient_eq_ok_iff.mp h
  rfl

end

/-! ### Sending a request -/

/-- A response of a server, as far as the client looks at it. -/
structure Reply where
  status : ℕ
  /-- The `Location` header, resolved against the URL of the request. -/
  location : Option Url
  body : Except String String

/-- Where the response redirects to. -/
def Reply.redirect? (reply : Reply) : Option Url :=
  if reply.status ∈ [301, 302, 303, 307, 308] then reply.location else none

/-- How many redirects the client follows. -/
def RedirectPolicy.limit : RedirectPolicy → ℕ
  | none => 0
  | limited max => max

/-- The URLs that a request contacts when `left` redirects may still be followed, and how it ends.
The servers give one reply after the other. -/
def follow : ℕ → Url → List (Except String Reply) → List Url × Except String Response
  | _, url, [] => ([url], .error "connection closed")
  | _, url, .error e :: _ => ([url], .error e)
  | left, url, .ok reply :: replies =>
    match reply.redirect?, left with
    | none, _ => ([url], .ok ⟨reply.status, reply.body⟩)
    | some _, 0 => ([url], .error "too many redirects")
    | some location, left + 1 =>
      let (urls, response) := follow left location replies
      (url :: urls, response)

/-- `Client::post` and `send`. -/
def Client.send (client : Client) (url : Url) (replies : List (Except String Reply)) :
    List Url × Except String Response :=
  follow client.redirect.limit url replies

/-- Where the leading redirects of the replies lead. -/
def redirects : List (Except String Reply) → List Url
  | .ok reply :: replies =>
    match reply.redirect? with
    | some location => location :: redirects replies
    | none => []
  | _ => []

/-- A request contacts its own URL and the locations of as many redirects as may be followed. -/
theorem follow_fst (left : ℕ) (url : Url) (replies : List (Except String Reply)) :
    (follow left url replies).1 = url :: (redirects replies).take left := by
  induction replies generalizing left url with
  | nil => simp [follow, redirects]
  | cons reply replies ih =>
    cases reply with
    | error e => simp [follow, redirects]
    | ok reply =>
      cases hloc : reply.redirect? with
      | none => simp [follow, redirects, hloc]
      | some location =>
        cases left with
        | zero => simp [follow, hloc]
        | succ left => simp [follow, redirects, hloc, ih]

end Pincerbell
