import Pincerbell.Http

/-!
# What a Web Push delivery contacts

The gate against forged endpoints is applied to the URL of the subscription. The client that then
sends the message follows redirects, and a redirect is not checked against the allowlist.

* `WebPushApp.new` — the backend with its client, from its settings.
* `WebPushApp.requested` — the URLs that one delivery requests.
* `allAllowed_iff` — when all of them are allowed.
* `not_allAllowed` — an allowed push service that redirects to an internal host.
-/

namespace Pincerbell.WebPushApp

/-! ### The backend and its client -/

/-- The settings of the backend. -/
structure Settings where
  vapidPrivateKey : String
  allowedEndpoints : List String
  http : HttpOptions

/-- Build the backend. Nothing can be delivered with an empty allowlist. -/
def new (crates : HttpCrates) (readToString : String → Except String String)
    (parseKey : String → Except String Unit) (settings : Settings) :
    Except String (WebPushApp × Client) := do
  if settings.allowedEndpoints.isEmpty then
    .error ("webpush: allowed_endpoints must not be empty -- the endpoint URL is " ++
      "client-controlled, an empty allowlist would let clients aim the gateway " ++
      "at arbitrary URLs (SSRF)")
  let pem ← (readToString settings.vapidPrivateKey).mapError
    (settings.vapidPrivateKey ++ ": " ++ ·)
  (parseKey pem).mapError (settings.vapidPrivateKey ++ ": " ++ ·)
  let client ← httpClient crates settings.http (some (fromSecs 15))
  return (⟨settings.allowedEndpoints⟩, client)

section

variable {crates : HttpCrates} {readToString : String → Except String String}
  {parseKey : String → Except String Unit} {settings : Settings} {app : WebPushApp}
  {client : Client}

theorem new_eq_ok_iff :
    new crates readToString parseKey settings = .ok (app, client) ↔
      settings.allowedEndpoints ≠ [] ∧
        (∃ pem, readToString settings.vapidPrivateKey = .ok pem ∧ parseKey pem = .ok ()) ∧
        httpClient crates settings.http (some (fromSecs 15)) = .ok client ∧
        app = ⟨settings.allowedEndpoints⟩ := by
  unfold new
  by_cases hempty : settings.allowedEndpoints = []
  · rw [if_pos (List.isEmpty_iff.mpr hempty)]
    refine ⟨fun h => ?_, fun h => absurd hempty h.1⟩
    obtain ⟨_, herror, -⟩ := AllOrNothing.bind_eq_ok_iff.mp h
    cases herror
  · rw [if_neg fun h => hempty (List.isEmpty_iff.mp h)]
    simp only [AllOrNothing.bind_eq_ok_iff, AllOrNothing.mapError_eq_ok_iff]
    constructor
    · rintro ⟨pem, hpem, _, hkey, c, hclient, h⟩
      cases h
      exact ⟨hempty, ⟨pem, hpem, hkey⟩, hclient, rfl⟩
    · rintro ⟨-, ⟨pem, hpem, hkey⟩, hclient, rfl⟩
      exact ⟨pem, hpem, (), hkey, client, hclient, rfl⟩

/-- The client of the backend has the default redirect policy. -/
theorem redirect_of_new (h : new crates readToString parseKey settings = .ok (app, client)) :
    client.redirect = .limited 10 :=
  redirect_of_httpClient (new_eq_ok_iff.mp h).2.2.1

end

/-! ### One delivery -/

variable (crates : Crates) (app : WebPushApp) (client : Client) (device : Device)
  (answers : Answers) (replies : List (Except String Reply))

/-- The delivery gets as far as sending its message to this endpoint: the subscription is usable,
its endpoint is allowed, and there are a salt, a sealed body and a credential. -/
def Sends (endpoint : Url) : Prop :=
  ∃ sub u body header, subscription crates device = .ok sub ∧ sub.endpoint = endpoint ∧
    endpointAllowed endpoint app.allowedEndpoints = .ok () ∧ answers.rng = .ok u ∧
    answers.encrypted = .ok body ∧ answers.credential = .ok header

/-- The URLs that a delivery requests, in order. The servers give one reply after the other. -/
def requested : List Url :=
  match subscription crates device with
  | .error _ => []
  | .ok sub =>
    match endpointAllowed sub.endpoint app.allowedEndpoints with
    | .error _ => []
    | .ok _ =>
      match answers.rng, answers.encrypted, answers.credential with
      | .ok _, .ok _, .ok _ => (client.send sub.endpoint replies).1
      | _, _, _ => []

variable {crates app client device answers replies}

/-- A delivery that sends its message requests the endpoint and what redirects lead to. -/
theorem Sends.requested_eq {endpoint : Url} (h : Sends crates app device answers endpoint) :
    requested crates app client device answers replies =
      endpoint :: (redirects replies).take client.redirect.limit := by
  obtain ⟨sub, u, body, header, hsub, rfl, hallowed, hrng, hbody, hcredential⟩ := h
  rw [requested, hsub]
  simp only [hallowed, hrng, hbody, hcredential]
  rw [Client.send, follow_fst]

/-- What is requested at all was sent to an endpoint first. -/
theorem exists_sends (h : requested crates app client device answers replies ≠ []) :
    ∃ endpoint, Sends crates app device answers endpoint := by
  unfold requested at h
  cases hsub : subscription crates device with
  | error e => simp [hsub] at h
  | ok sub =>
    rw [hsub] at h
    dsimp only at h
    cases hallowed : endpointAllowed sub.endpoint app.allowedEndpoints with
    | error e => simp [hallowed] at h
    | ok _ =>
      rw [hallowed] at h
      dsimp only at h
      split at h
      -- everything is there that a request needs
      next hrng hbody hcredential =>
        exact ⟨sub.endpoint, sub, _, _, _, hsub, rfl, hallowed, hrng, hbody, hcredential⟩
      next => exact absurd rfl h

variable (crates)

/-- For a backend built from its settings, every URL that a delivery requests is allowed exactly
when the delivery sends nothing, or the first ten redirects that the servers answer with lead to
allowed endpoints. -/
theorem allAllowed_iff {http : HttpCrates} {readToString : String → Except String String}
    {parseKey : String → Except String Unit} {settings : Settings}
    (hnew : new http readToString parseKey settings = .ok (app, client))
    (device : Device) (answers : Answers) (replies : List (Except String Reply)) :
    (∀ url ∈ requested crates app client device answers replies,
        endpointAllowed url app.allowedEndpoints = .ok ()) ↔
      ∀ endpoint, Sends crates app device answers endpoint →
        ∀ url ∈ (redirects replies).take 10, endpointAllowed url app.allowedEndpoints = .ok () := by
  have hlimit : client.redirect.limit = 10 := by rw [redirect_of_new hnew, RedirectPolicy.limit]
  constructor
  · intro h endpoint hsends url hurl
    rw [hsends.requested_eq, hlimit] at h
    exact h url (List.mem_cons_of_mem _ hurl)
  · intro h url hurl
    obtain ⟨endpoint, hsends⟩ := exists_sends (List.ne_nil_of_mem hurl)
    rw [hsends.requested_eq, hlimit] at hurl
    rcases List.mem_cons.mp hurl with rfl | hurl
    · -- the endpoint itself has passed the gate
      obtain ⟨_, _, _, _, _, _, hallowed, _⟩ := hsends
      exact hallowed
    · exact h endpoint hsends url hurl

/-! #### A push service that redirects -/

/-- A backend that allows one push service. -/
def pushApp : WebPushApp := ⟨["push.example.test"]⟩

/-- A subscription at that push service. -/
def pushDevice : Device :=
  { appId := "app", pushkey := "key"
    data := some ⟨none, [("endpoint", .string "https://push.example.test/x"),
      ("auth", .string "secret")]⟩ }

def pushCrates : Crates :=
  ⟨fun s => .ok (bytes s), fun b => .ok ⟨b⟩, fun _ => .ok ⟨"https", some "push.example.test"⟩⟩

def pushAnswers : Answers := ⟨.ok "vapid", .ok (), .ok [], .error "no answer"⟩

/-- The push service redirects to a host inside the network of the gateway. -/
def pushReplies : List (Except String Reply) :=
  [.ok ⟨307, some ⟨"http", some "169.254.169.254"⟩, .ok ""⟩, .ok ⟨201, none, .ok ""⟩]

theorem new_pushApp :
    new ⟨fun _ => .ok (), fun _ => .ok [], fun _ => .ok [], fun _ => .ok ()⟩ (fun _ => .ok "key")
      (fun _ => .ok ()) ⟨"vapid.pem", ["push.example.test"], {}⟩ =
        .ok (pushApp, { timeout := some (fromSecs 15) }) :=
  rfl

theorem requested_pushDevice :
    requested pushCrates pushApp { timeout := some (fromSecs 15) } pushDevice pushAnswers
        pushReplies =
      [⟨"https", some "push.example.test"⟩, ⟨"http", some "169.254.169.254"⟩] := by
  decide +kernel

/-- The delivery with these replies. -/
theorem allAllowed_iff_pushReplies :
    (∀ url ∈ requested pushCrates pushApp { timeout := some (fromSecs 15) } pushDevice pushAnswers
        pushReplies, endpointAllowed url pushApp.allowedEndpoints = .ok ()) ↔
      ∀ endpoint, Sends pushCrates pushApp pushDevice pushAnswers endpoint →
        ∀ url ∈ (redirects pushReplies).take 10,
          endpointAllowed url pushApp.allowedEndpoints = .ok () :=
  allAllowed_iff pushCrates new_pushApp pushDevice pushAnswers pushReplies

/-- An allowed push service that answers with a redirect makes a delivery request the URL of an
internal host. -/
theorem not_allAllowed :
    ¬ ∀ (crates : Crates) (http : HttpCrates) (readToString : String → Except String String)
        (parseKey : String → Except String Unit) (settings : Settings) (app : WebPushApp)
        (client : Client) (device : Device) (answers : Answers)
        (replies : List (Except String Reply)),
      new http readToString parseKey settings = .ok (app, client) →
      ∀ url ∈ requested crates app client device answers replies,
        endpointAllowed url app.allowedEndpoints = .ok () := by
  intro h
  have hallowed := h _ _ _ _ _ _ _ _ pushAnswers pushReplies new_pushApp
    ⟨"http", some "169.254.169.254"⟩ (by rw [requested_pushDevice]; simp)
  have hnot : (endpointAllowed ⟨"http", some "169.254.169.254"⟩ pushApp.allowedEndpoints).isOk =
      false := by decide +kernel
  rw [hallowed] at hnot
  cases hnot

end Pincerbell.WebPushApp
