import Pincerbell.Message
import Pincerbell.Queue.Token
import Pincerbell.Support.AllOrNothing
import Pincerbell.WebPush.Redirects

/-!
# Start-up

What `main` builds out of the configuration file before it serves anything: the upstreams of the
poll loop, the backend of each app, and the queue side. The apps stand in a hash map, and are gone
through in any order. Each of the parts reads files of its own and gets an HTTP client of its own.

* `ConfigFile`, `PollUpstream`, `AppConfig`, `QueueTable` — the tables of the configuration file.
* `PollUpstream.load`, `Backend.new`, `start` — the parts, and the whole.
* `PollUpstream.Loadable`, `AppConfig.Loadable` — what has to be there for a part to load.
* `Client.Follows`, `follows_of_httpClient` — what a client makes of its options.
* `start_all_or_nothing` — when the configuration loads, and into which parts.
* `clients_follow` — how each of its clients connects.

A process whose configuration has loaded still has to bind its listen address, with the poll loops
already spawned. That step is not part of `start`.
-/

namespace Pincerbell

/-! ### The configuration file -/

/-- One `[[poll]]` table. -/
structure PollUpstream where
  url : String
  authTokenFile : String
  timeoutSecs : UInt64 := 30
  maxBatch : UInt64 := 100
  proxy : Option String := none
  tlsCaFile : Option String := none
  tlsAcceptInvalidCerts : Option Bool := none

/-- The defaults, with the overrides of the table. -/
def PollUpstream.httpOptions (p : PollUpstream) (defaults : HttpOptions) : HttpOptions where
  proxy := p.proxy.or defaults.proxy
  tlsCaFile := p.tlsCaFile.or defaults.tlsCaFile
  tlsAcceptInvalidCerts := p.tlsAcceptInvalidCerts.getD defaults.tlsAcceptInvalidCerts

/-- One `[apps]` table. -/
inductive AppConfig
  | log
  | fcm (serviceAccountFile : String) (projectId apiRoot : Option String)
  | apns (keyFile keyId teamId topic : String) (sandbox : Bool)
      (apiRoot defaultAlertTitle sound : Option String) (pushType : ApnsPushType)
  | webpush (vapidPrivateKey vapidContactEmail : String) (allowedEndpoints : List String)

/-- The `[queue]` table. -/
structure QueueTable where
  authTokenFile : String
  config : QueueConfig := {}

structure ConfigFile where
  listen : String := "127.0.0.1:8300"
  dedupTtlSecs : ℕ := 300
  dedupMaxEntries : ℕ := 65536
  rejectUnknownApps : Bool := false
  proxy : Option String := none
  tlsCaFile : Option String := none
  tlsAcceptInvalidCerts : Bool := false
  apps : HashMap String AppConfig := ∅
  queue : Option QueueTable := none
  poll : List PollUpstream := []

namespace ConfigFile

variable (file : ConfigFile)

/-- The top-level options for outbound HTTP. -/
def httpOptions : HttpOptions := ⟨file.proxy, file.tlsCaFile, file.tlsAcceptInvalidCerts⟩

/-- The settings that the pipelines depend on. -/
def config : Config where
  dedupTtlSecs := file.dedupTtlSecs
  dedupMaxEntries := file.dedupMaxEntries
  rejectUnknownApps := file.rejectUnknownApps
  queue := file.queue.map QueueTable.config

end ConfigFile

/-! ### The parts -/

/-- A service-account file. -/
structure ServiceAccount where
  projectId : String
  privateKey : String
  clientEmail : String
  tokenUri : String

/-- The parts of the libraries and of the system that start-up uses. Of a key it matters only
whether it can be read. -/
structure StartCrates where
  http : HttpCrates
  /-- `std::fs::read_to_string`. -/
  readToString : String → Except String String
  /-- `serde_json::from_str`. -/
  serviceAccount : String → Except String ServiceAccount
  /-- `EncodingKey::from_rsa_pem`. -/
  fromRsaPem : String → Except String Unit
  /-- `EncodingKey::from_ec_pem`. -/
  fromEcPem : String → Except String Unit
  /-- `SecretKey::from_pkcs8_pem`. -/
  fromPkcs8Pem : String → Except String Unit
  /-- `SecretKey::from_sec1_pem`. -/
  fromSec1Pem : String → Except String Unit

/-- Both encodings of a VAPID key are read. -/
def StartCrates.vapidKey (crates : StartCrates) (pem : String) : Except String Unit :=
  match crates.fromPkcs8Pem pem with
  | .ok _ => .ok ()
  | .error _ => crates.fromSec1Pem pem

/-- `map_err`, with a text in front of the error. -/
def mapErr {α : Type} (text : String) : Except String α → Except String α
  | .ok a => .ok a
  | .error e => .error (text ++ ": " ++ e)

/-- A loaded upstream, as the poll loop uses it. -/
structure LoadedUpstream where
  url : String
  token : Token
  timeoutSecs : UInt64
  maxBatch : UInt64
  client : Client

/-- A delivery backend. -/
inductive Backend
  | log
  | fcm (client : Client) (app : FcmApp) (account : ServiceAccount)
  | apns (client : Client) (app : ApnsApp) (teamId keyId : String)
  | webpush (client : Client) (app : WebPushApp) (contact : String)

/-- The HTTP client of a backend. -/
def Backend.client? : Backend → Option Client
  | log => none
  | fcm client _ _ => some client
  | apns client _ _ _ => some client
  | webpush client _ _ => some client

section New

variable (crates : StartCrates)

/-- `Upstream::load`. Each of its requests has a timeout of its own. -/
def PollUpstream.load (p : PollUpstream) (defaults : HttpOptions) :
    Except String LoadedUpstream := do
  let client ← mapErr ("poll " ++ p.url) (httpClient crates.http (p.httpOptions defaults) none)
  let token ← Token.load "poll" p.authTokenFile (crates.readToString p.authTokenFile)
  return {
    url := String.ofList (p.url.toList.rdropWhile fun c => c = '/')
    token, timeoutSecs := p.timeoutSecs, maxBatch := p.maxBatch, client }

/-- `FcmApp::new`. -/
def FcmApp.new (serviceAccountFile : String) (projectId apiRoot : Option String)
    (http : HttpOptions) : Except String Backend := do
  let raw ← mapErr serviceAccountFile (crates.readToString serviceAccountFile)
  let account ← mapErr serviceAccountFile (crates.serviceAccount raw)
  mapErr (serviceAccountFile ++ ": private_key") (crates.fromRsaPem account.privateKey)
  let client ← httpClient crates.http http (some (fromSecs 15))
  return .fcm client {
    apiRoot := apiRoot.getD "https://fcm.googleapis.com"
    projectId := projectId.getD account.projectId } account

/-- `ApnsApp::new`. -/
def ApnsApp.new (keyFile keyId teamId topic : String) (sandbox : Bool)
    (apiRoot defaultAlertTitle sound : Option String) (pushType : ApnsPushType)
    (http : HttpOptions) : Except String Backend := do
  let pem ← mapErr keyFile (crates.readToString keyFile)
  mapErr keyFile (crates.fromEcPem pem)
  let client ← httpClient crates.http http (some (fromSecs 15))
  return .apns client {
    apiRoot := apiRoot.getD <|
      if sandbox then "https://api.sandbox.push.apple.com" else "https://api.push.apple.com"
    topic
    defaultAlertTitle := defaultAlertTitle.getD "New message"
    sound, pushType } teamId keyId

/-- `Provider::new`. -/
def Backend.new (http : HttpOptions) : AppConfig → Except String Backend
  | .log => .ok .log
  | .fcm serviceAccountFile projectId apiRoot =>
    FcmApp.new crates serviceAccountFile projectId apiRoot http
  | .apns keyFile keyId teamId topic sandbox apiRoot defaultAlertTitle sound pushType =>
    ApnsApp.new crates keyFile keyId teamId topic sandbox apiRoot defaultAlertTitle sound pushType
      http
  | .webpush vapidPrivateKey vapidContactEmail allowedEndpoints => do
    let (app, client) ← WebPushApp.new crates.http crates.readToString crates.vapidKey
      { vapidPrivateKey, allowedEndpoints, http }
    return .webpush client app ("mailto:" ++ vapidContactEmail)

/-- The token of the queue side, which `QueueState::new` reads. -/
def QueueTable.token (table : QueueTable) : Except String Token :=
  Token.load "queue" table.authTokenFile (crates.readToString table.authTokenFile)

/-! ### The whole -/

/-- What a loaded configuration serves requests and polls upstreams with. -/
structure Running where
  upstreams : List LoadedUpstream
  backends : HashMap String Backend
  config : Config
  token : Option Token
  listen : String

/-- The part of `main` that loads what the configuration names: after the file has been parsed, and
before the listen address is bound. `order` is that of the iteration over the apps in
`AppState::new`. -/
def start (file : ConfigFile) (order : List (Sigma fun _ : String => AppConfig)) :
    Except String Running := do
  let upstreams ← file.poll.mapM (PollUpstream.load crates · file.httpOptions)
  let backends ← HashMap.build
    (fun appId app => mapErr ("app " ++ appId) (Backend.new crates file.httpOptions app)) order
  let token ← file.queue.mapM (QueueTable.token crates)
  return { upstreams, backends, config := file.config, token, listen := file.listen }

/-! ### What has to be there -/

/-- The file has a token in it, and not only space. -/
def StartCrates.HoldsToken (path : String) : Prop :=
  ∃ raw, crates.readToString path = .ok raw ∧ trim raw ≠ ""

/-- What an upstream needs. -/
def PollUpstream.Loadable (defaults : HttpOptions) (p : PollUpstream) : Prop :=
  (p.httpOptions defaults).Buildable crates.http none ∧ crates.HoldsToken p.authTokenFile

/-- What an app needs: files with keys that can be read, options that lead to a client, and for Web
Push an allowlist that is not empty. -/
def AppConfig.Loadable (http : HttpOptions) : AppConfig → Prop
  | .log => True
  | .fcm serviceAccountFile _ _ =>
    (∃ raw account, crates.readToString serviceAccountFile = .ok raw ∧
      crates.serviceAccount raw = .ok account ∧
      crates.fromRsaPem account.privateKey = .ok ()) ∧
    http.Buildable crates.http (some (fromSecs 15))
  | .apns keyFile _ _ _ _ _ _ _ _ =>
    (∃ pem, crates.readToString keyFile = .ok pem ∧ crates.fromEcPem pem = .ok ()) ∧
    http.Buildable crates.http (some (fromSecs 15))
  | .webpush vapidPrivateKey _ allowedEndpoints =>
    allowedEndpoints ≠ [] ∧
    (∃ pem, crates.readToString vapidPrivateKey = .ok pem ∧
      (crates.fromPkcs8Pem pem = .ok () ∨ crates.fromSec1Pem pem = .ok ())) ∧
    http.Buildable crates.http (some (fromSecs 15))

end New

variable {crates : StartCrates} {file : ConfigFile} {http : HttpOptions} {client : Client}
  {order : List (Sigma fun _ : String => AppConfig)} {running : Running}

theorem mapErr_eq_ok_iff {α : Type} {text : String} {x : Except String α} {a : α} :
    mapErr text x = .ok a ↔ x = .ok a := by
  cases x <;> simp [mapErr]

theorem toOption_mapErr {α : Type} (text : String) (x : Except String α) :
    (mapErr text x).toOption = x.toOption := by
  cases x <;> rfl

theorem StartCrates.exists_token_iff (table : String) {path : String} :
    (∃ token, Token.load table path (crates.readToString path) = .ok token) ↔
      crates.HoldsToken path := by
  unfold Token.load HoldsToken
  cases crates.readToString path with
  | error e => simp
  | ok raw => by_cases hempty : trim raw = "" <;> simp [hempty]

/-- Either encoding will do. -/
theorem StartCrates.vapidKey_eq_ok_iff {pem : String} :
    crates.vapidKey pem = .ok () ↔
      crates.fromPkcs8Pem pem = .ok () ∨ crates.fromSec1Pem pem = .ok () := by
  unfold vapidKey
  cases crates.fromPkcs8Pem pem <;> simp

theorem PollUpstream.exists_load_iff {p : PollUpstream} :
    (∃ up, p.load crates http = .ok up) ↔ p.Loadable crates http := by
  rw [Loadable, ← exists_httpClient_iff, ← StartCrates.exists_token_iff "poll"]
  simp only [load, AllOrNothing.bind_eq_ok_iff, mapErr_eq_ok_iff]
  constructor
  · rintro ⟨up, client, hclient, token, htoken, -⟩
    exact ⟨⟨client, hclient⟩, token, htoken⟩
  · rintro ⟨⟨client, hclient⟩, token, htoken⟩
    exact ⟨_, client, hclient, token, htoken, rfl⟩

theorem Backend.exists_new_iff {app : AppConfig} :
    (∃ backend, Backend.new crates http app = .ok backend) ↔ app.Loadable crates http := by
  cases app with
  | log => exact ⟨fun _ => trivial, fun _ => ⟨.log, rfl⟩⟩
  | fcm serviceAccountFile projectId apiRoot =>
    rw [AppConfig.Loadable, ← exists_httpClient_iff]
    simp only [Backend.new, FcmApp.new, AllOrNothing.bind_eq_ok_iff, mapErr_eq_ok_iff]
    constructor
    · rintro ⟨_, raw, hraw, account, haccount, _, hkey, client, hclient, -⟩
      exact ⟨⟨raw, account, hraw, haccount, hkey⟩, client, hclient⟩
    · rintro ⟨⟨raw, account, hraw, haccount, hkey⟩, client, hclient⟩
      exact ⟨_, raw, hraw, account, haccount, (), hkey, client, hclient, rfl⟩
  | apns keyFile keyId teamId topic sandbox apiRoot defaultAlertTitle sound pushType =>
    rw [AppConfig.Loadable, ← exists_httpClient_iff]
    simp only [Backend.new, ApnsApp.new, AllOrNothing.bind_eq_ok_iff, mapErr_eq_ok_iff]
    constructor
    · rintro ⟨_, pem, hpem, _, hkey, client, hclient, -⟩
      exact ⟨⟨pem, hpem, hkey⟩, client, hclient⟩
    · rintro ⟨⟨pem, hpem, hkey⟩, client, hclient⟩
      exact ⟨_, pem, hpem, (), hkey, client, hclient, rfl⟩
  | webpush vapidPrivateKey vapidContactEmail allowedEndpoints =>
    simp only [AppConfig.Loadable, ← exists_httpClient_iff, ← StartCrates.vapidKey_eq_ok_iff]
    simp only [Backend.new, AllOrNothing.bind_eq_ok_iff, Prod.exists, WebPushApp.new_eq_ok_iff]
    constructor
    · rintro ⟨_, _, client, ⟨hallowed, hkey, hclient, -⟩, -⟩
      exact ⟨hallowed, hkey, client, hclient⟩
    · rintro ⟨hallowed, hkey, client, hclient⟩
      exact ⟨_, _, client, ⟨hallowed, hkey, hclient, rfl⟩, rfl⟩

/-! ### The clients -/

/-- The client goes through the proxy of the options, trusts the certificates of their CA file
besides those of the library, and verifies certificates unless they say otherwise. An empty proxy
or path is as good as none. -/
structure Client.Follows (crates : HttpCrates) (client : Client) (opts : HttpOptions) : Prop where
  proxy : client.proxy = opts.proxy.filter (· ≠ "")
  noCertificates : opts.tlsCaFile.filter (· ≠ "") = none → client.rootCertificates = []
  certificates : ∀ path, opts.tlsCaFile.filter (· ≠ "") = some path → ∃ pem,
    crates.readFile path = .ok pem ∧ crates.fromPemBundle pem = .ok client.rootCertificates ∧
      client.rootCertificates ≠ []
  verify : client.dangerAcceptInvalidCerts = opts.tlsAcceptInvalidCerts

theorem follows_of_httpClient {timeout : Option Duration}
    (h : httpClient crates.http http timeout = .ok client) :
    client.Follows crates.http http ∧ client.timeout = timeout := by
  obtain ⟨-, certs, hcerts, -, rfl⟩ := httpClient_eq_ok_iff.mp h
  refine ⟨⟨rfl, fun hnone => ?_, fun path hpath => ?_, rfl⟩, rfl⟩
  · cases hcerts with
    | none => rfl
    | bundle hsome =>
      rw [hnone] at hsome
      cases hsome
  · cases hcerts with
    | none hnone =>
      rw [hnone] at hpath
      cases hpath
    | bundle hsome hpem hcerts hne =>
      obtain rfl := Option.some_inj.mp (hsome.symm.trans hpath)
      exact ⟨_, hpem, hcerts, hne⟩

/-! ### An example -/

/-- All files are there, with keys and certificates that can be read. -/
def StartCrates.present : StartCrates where
  http := ⟨fun _ => .ok (), fun _ => .ok [], fun _ => .ok [[48]], fun _ => .ok ()⟩
  readToString _ := .ok "secret"
  serviceAccount _ := .ok ⟨"project", "key", "mail@example.com", "https://token.example.com"⟩
  fromRsaPem _ := .ok ()
  fromEcPem _ := .ok ()
  fromPkcs8Pem _ := .error "not PKCS#8"
  fromSec1Pem _ := .ok ()

/-- A gateway behind a proxy that polls an upstream without it. -/
def ConfigFile.proxied : ConfigFile where
  proxy := some "http://proxy.example.com:3128"
  tlsAcceptInvalidCerts := true
  apps := AList.insert "fcm" (.fcm "account.json" none none) (AList.insert "log" .log ∅)
  queue := some { authTokenFile := "queue.token" }
  poll := [{
    url := "https://edge.example.com/"
    authTokenFile := "poll.token"
    proxy := some ""
    tlsCaFile := some "ca.pem"
    tlsAcceptInvalidCerts := some false }]

theorem StartCrates.HoldsToken.present (path : String) : StartCrates.present.HoldsToken path :=
  ⟨"secret", rfl, by decide +kernel⟩

theorem HttpOptions.Buildable.present (opts : HttpOptions) (timeout : Option Duration) :
    opts.Buildable StartCrates.present.http timeout := by
  refine ⟨fun _ _ => rfl, ?_⟩
  cases hfile : opts.tlsCaFile.filter (· ≠ "") with
  | none => exact ⟨[], .none hfile, rfl⟩
  | some path => exact ⟨[[48]], .bundle hfile rfl rfl (List.cons_ne_nil _ _), rfl⟩

theorem loadable_proxied {appId : String} {app : AppConfig}
    (h : ConfigFile.proxied.apps.lookup appId = some app) :
    app.Loadable .present ConfigFile.proxied.httpOptions := by
  have hmem : ⟨appId, app⟩ ∈ [(⟨"fcm", .fcm "account.json" none none⟩ : Sigma fun _ => AppConfig),
      ⟨"log", .log⟩] := AList.mem_lookup_iff.mp h
  rcases List.mem_cons.mp hmem with heq | hmem
  · cases heq
    exact ⟨⟨_, _, rfl, rfl, rfl⟩, .present _ _⟩
  · cases List.mem_singleton.mp hmem
    trivial

/-! ### The whole of start-up -/

theorem start_eq_ok_iff :
    start crates file order = .ok running ↔
      file.poll.mapM (PollUpstream.load crates · file.httpOptions) = .ok running.upstreams ∧
        HashMap.build (fun appId app =>
          mapErr ("app " ++ appId) (Backend.new crates file.httpOptions app)) order =
            .ok running.backends ∧
        file.queue.mapM (QueueTable.token crates) = .ok running.token ∧
        running.config = file.config ∧ running.listen = file.listen := by
  simp only [start, AllOrNothing.bind_eq_ok_iff]
  constructor
  · rintro ⟨upstreams, hupstreams, backends, hbackends, token, htoken, h⟩
    obtain rfl := Except.ok.inj h
    exact ⟨hupstreams, hbackends, htoken, rfl, rfl⟩
  · rintro ⟨hupstreams, hbackends, htoken, hconfig, hlisten⟩
    refine ⟨_, hupstreams, _, hbackends, _, htoken, ?_⟩
    rw [← hconfig, ← hlisten]
    rfl

/-- The queue side loads if it is off, or has a token. -/
theorem exists_mapM_token_iff :
    (∃ token, file.queue.mapM (QueueTable.token crates) = .ok token) ↔
      ∀ table, file.queue = some table → crates.HoldsToken table.authTokenFile := by
  cases file.queue with
  | none => exact ⟨fun _ => by simp, fun _ => ⟨none, rfl⟩⟩
  | some table =>
    simp only [Option.some.injEq, forall_eq', ← StartCrates.exists_token_iff "queue"]
    constructor
    · rintro ⟨token, h⟩
      obtain ⟨t, ht, -⟩ := AllOrNothing.bind_eq_ok_iff.mp h
      exact ⟨t, ht⟩
    · rintro ⟨t, ht⟩
      exact ⟨some t, AllOrNothing.bind_eq_ok_iff.mpr ⟨t, ht, rfl⟩⟩

/-- In whatever order the apps are gone through, the configuration loads exactly when each upstream
and each app has what it needs, and the queue side a token. It is loaded into the upstreams in the
order of their tables, a backend for each app of the file and no other one, and the token of the
queue side, each from its own table. -/
theorem start_all_or_nothing (hperm : order.Perm file.apps.entries) :
    ((∃ running, start crates file order = .ok running) ↔
      (∀ p ∈ file.poll, p.Loadable crates file.httpOptions) ∧
        (∀ appId app, file.apps.lookup appId = some app → app.Loadable crates file.httpOptions) ∧
        ∀ table, file.queue = some table → crates.HoldsToken table.authTokenFile) ∧
    ∀ running, start crates file order = .ok running →
      List.Forall₂ (fun p up => p.load crates file.httpOptions = .ok up) file.poll
          running.upstreams ∧
        (∀ appId, running.backends.lookup appId = (file.apps.lookup appId).bind fun app =>
          (Backend.new crates file.httpOptions app).toOption) ∧
        (∀ token, running.token = some token ↔
          ∃ table, file.queue = some table ∧ table.token crates = .ok token) := by
  have hnodup : order.NodupKeys := (List.perm_nodupKeys hperm).mpr file.apps.nodupKeys
  constructor
  · -- the entries are those that the map looks up
    have happs : (∃ backends, HashMap.build (fun appId app =>
        mapErr ("app " ++ appId) (Backend.new crates file.httpOptions app)) order =
          .ok backends) ↔ ∀ appId app, file.apps.lookup appId = some app →
            app.Loadable crates file.httpOptions := by
      rw [HashMap.exists_build_eq_ok_iff]
      simp only [mapErr_eq_ok_iff, Backend.exists_new_iff, Sigma.forall, hperm.mem_iff,
        ← AList.mem_lookup_iff, Option.mem_def]
    have hpoll : (∃ upstreams, file.poll.mapM (PollUpstream.load crates · file.httpOptions) =
        .ok upstreams) ↔ ∀ p ∈ file.poll, p.Loadable crates file.httpOptions := by
      simp only [AllOrNothing.exists_mapM_eq_ok_iff, PollUpstream.exists_load_iff]
    rw [← hpoll, ← happs, ← exists_mapM_token_iff]
    constructor
    · rintro ⟨running, h⟩
      obtain ⟨hupstreams, hbackends, htoken, -⟩ := start_eq_ok_iff.mp h
      exact ⟨⟨_, hupstreams⟩, ⟨_, hbackends⟩, _, htoken⟩
    · rintro ⟨⟨upstreams, hupstreams⟩, ⟨backends, hbackends⟩, token, htoken⟩
      exact ⟨⟨upstreams, backends, file.config, token, file.listen⟩,
        start_eq_ok_iff.mpr ⟨hupstreams, hbackends, htoken, rfl, rfl⟩⟩
  · intro running h
    obtain ⟨hupstreams, hbackends, htoken, -⟩ := start_eq_ok_iff.mp h
    refine ⟨AllOrNothing.mapM_eq_ok_iff.mp hupstreams, fun appId => ?_, fun token => ?_⟩
    · have hlookup : file.apps.lookup appId = order.dlookup appId :=
        (List.perm_dlookup appId hnodup hperm).symm
      rw [HashMap.lookup_build hnodup hbackends, hlookup]
      simp only [toOption_mapErr]
    · cases hqueue : file.queue with
      | none =>
        rw [hqueue] at htoken
        rw [← Except.ok.inj htoken]
        simp
      | some table =>
        rw [hqueue] at htoken
        obtain ⟨t, ht, heq⟩ := AllOrNothing.bind_eq_ok_iff.mp htoken
        rw [← Except.ok.inj heq]
        simp [ht]

theorem isOk_start_proxied :
    (start .present .proxied ConfigFile.proxied.apps.entries.reverse).isOk = true := by
  decide +kernel

theorem start_all_or_nothing_proxied :
    ∃ running, start .present .proxied ConfigFile.proxied.apps.entries.reverse = .ok running ∧
      running.backends.lookup "apns" = none ∧ (running.backends.lookup "fcm").isSome = true := by
  have hspec := @start_all_or_nothing .present .proxied _ (List.reverse_perm _)
  obtain ⟨running, hstart⟩ := hspec.1.mpr ⟨fun p _ => ⟨.present _ _, .present _⟩,
    fun appId app hlookup => loadable_proxied hlookup, fun _ _ => .present _⟩
  obtain ⟨-, hlookup, -⟩ := hspec.2 running hstart
  refine ⟨running, hstart, ?_, ?_⟩
  · rw [hlookup]
    decide +kernel
  · rw [hlookup]
    decide +kernel

/-! ### How the clients connect -/

theorem follows_of_new {app : AppConfig} {backend : Backend}
    (h : Backend.new crates http app = .ok backend) (hclient : backend.client? = some client) :
    client.Follows crates.http http ∧ client.timeout = some (fromSecs 15) := by
  cases app with
  | log =>
    obtain rfl := Except.ok.inj h
    cases hclient
  | fcm serviceAccountFile projectId apiRoot =>
    simp only [Backend.new, FcmApp.new, AllOrNothing.bind_eq_ok_iff] at h
    obtain ⟨raw, -, account, -, -, -, c, hc, h⟩ := h
    obtain rfl := Except.ok.inj h
    obtain rfl := Option.some_inj.mp hclient
    exact follows_of_httpClient hc
  | apns keyFile keyId teamId topic sandbox apiRoot defaultAlertTitle sound pushType =>
    simp only [Backend.new, ApnsApp.new, AllOrNothing.bind_eq_ok_iff] at h
    obtain ⟨pem, -, -, -, c, hc, h⟩ := h
    obtain rfl := Except.ok.inj h
    obtain rfl := Option.some_inj.mp hclient
    exact follows_of_httpClient hc
  | webpush vapidPrivateKey vapidContactEmail allowedEndpoints =>
    obtain ⟨⟨app, c⟩, hnew, h⟩ := AllOrNothing.bind_eq_ok_iff.mp h
    obtain rfl := Except.ok.inj h
    obtain rfl := Option.some_inj.mp hclient
    obtain ⟨-, -, hc, -⟩ := WebPushApp.new_eq_ok_iff.mp hnew
    exact follows_of_httpClient hc

theorem follows_of_load {p : PollUpstream} {up : LoadedUpstream}
    (h : p.load crates http = .ok up) :
    up.client.Follows crates.http (p.httpOptions http) ∧ up.client.timeout = none := by
  simp only [PollUpstream.load, AllOrNothing.bind_eq_ok_iff] at h
  obtain ⟨c, hc, token, -, h⟩ := h
  obtain rfl := Except.ok.inj h
  exact follows_of_httpClient (mapErr_eq_ok_iff.mp hc)

/-- Once the configuration has loaded, the backends connect as the top level of the file says,
whatever the `[[poll]]` tables say. Each upstream has the proxy and the CA file of its own table, or
else those of the top level, where an empty one counts as none, and skips the verification of
certificates only if its own table says so, or if the top level does and its table says nothing. -/
theorem clients_follow (hperm : order.Perm file.apps.entries)
    (h : start crates file order = .ok running) :
    (∀ appId backend client, running.backends.lookup appId = some backend →
      backend.client? = some client → client.Follows crates.http file.httpOptions ∧
        client.timeout = some (fromSecs 15)) ∧
    ∀ (k : ℕ) (p : PollUpstream) (up : LoadedUpstream), file.poll[k]? = some p →
      running.upstreams[k]? = some up →
        up.client.Follows crates.http (p.httpOptions file.httpOptions) ∧ up.client.timeout = none ∧
          (up.client.dangerAcceptInvalidCerts = true ↔ p.tlsAcceptInvalidCerts = some true ∨
            p.tlsAcceptInvalidCerts = none ∧ file.tlsAcceptInvalidCerts = true) := by
  have hnodup : order.NodupKeys := (List.perm_nodupKeys hperm).mpr file.apps.nodupKeys
  obtain ⟨hupstreams, hbackends, -⟩ := start_eq_ok_iff.mp h
  constructor
  · intro appId backend client hlookup hclient
    rw [HashMap.lookup_build hnodup hbackends] at hlookup
    obtain ⟨app, -, hnew⟩ := Option.bind_eq_some_iff.mp hlookup
    rw [toOption_mapErr] at hnew
    cases hresult : Backend.new crates file.httpOptions app with
    | error e =>
      rw [hresult] at hnew
      cases hnew
    | ok b =>
      rw [hresult] at hnew
      obtain rfl := Option.some_inj.mp hnew
      exact follows_of_new hresult hclient
  · intro k p up hp hup
    have hload : p.load crates file.httpOptions = .ok up := by
      have hall := List.forall₂_iff_get.mp (AllOrNothing.mapM_eq_ok_iff.mp hupstreams)
      obtain ⟨hk, rfl⟩ := List.getElem?_eq_some_iff.mp hp
      obtain ⟨hk', rfl⟩ := List.getElem?_eq_some_iff.mp hup
      exact hall.2 k hk hk'
    obtain ⟨hfollows, htimeout⟩ := follows_of_load hload
    refine ⟨hfollows, htimeout, ?_⟩
    rw [hfollows.verify]
    cases hown : p.tlsAcceptInvalidCerts with
    | none => simp [PollUpstream.httpOptions, hown, ConfigFile.httpOptions]
    | some b => simp [PollUpstream.httpOptions, hown]

theorem clients_follow_proxied :
    ∃ running, start .present .proxied ConfigFile.proxied.apps.entries.reverse = .ok running ∧
      ∀ up : LoadedUpstream, running.upstreams[0]? = some up → up.client.proxy = none ∧
        up.client.dangerAcceptInvalidCerts = false := by
  cases hstart : start .present .proxied ConfigFile.proxied.apps.entries.reverse with
  | error e =>
    have hok := isOk_start_proxied
    rw [hstart] at hok
    cases hok
  | ok running =>
    refine ⟨running, rfl, fun up hup => ?_⟩
    obtain ⟨-, hclient⟩ := clients_follow (List.reverse_perm _) hstart
    obtain ⟨hfollows, -, -⟩ := hclient 0 _ up rfl hup
    exact ⟨hfollows.proxy, hfollows.verify⟩

end Pincerbell
