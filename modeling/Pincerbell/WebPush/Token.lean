import Pincerbell.Message
import Pincerbell.Provider
import Pincerbell.Support.LastStored
import Pincerbell.Support.Machine
import Pincerbell.WebPush.Vapid

/-!
# The cached VAPID headers

`WebPushApp` keeps the header that it signed last for each origin, and sends it until an hour before
its token expires. `deliver` takes the lock of the cache to look at it and to store a new header,
and signs in between. The deliveries of an app share the cache, for endpoints of any origins, and
their steps interleave in any order.

* `vapidHeader`, `deliver` — the two functions, as programs over their steps.
* `machine` — any number of deliveries on one cache.
* `cached_iff` — which headers are in the cache.
* `send_authorized` — where the header of a request comes from: it was signed for the origin that
  the request goes to.
* `send_received` — what the push service reads in it, and that the token has not expired.
* `outcomes_iff` — what a delivery that has finished returns.

Sending a request is one step here. The client may follow redirects in it, which `Client.send` in
`Pincerbell.Http` is about.
-/

namespace Pincerbell.VapidToken

open Prog (Event Always Returns)

/-! ### The pipeline -/

def vapidLifetime : Duration := fromSecs vapidLifetimeSecs

/-- A cached header is reused until an hour before it expires. -/
def vapidRefreshMargin : Duration := fromSecs (60 * 60)

structure CachedToken where
  header : Bytes
  expires : Instant
  deriving DecidableEq, Repr

/-- One atomic step of a delivery. -/
inductive Cmd
  /-- Draw a key and a salt. -/
  | random
  | encrypt (sub : Subscription) (payload : Value)
  /-- Look at the cached header of an origin, under the lock. -/
  | lookup (audience : String)
  /-- Sign a token with the time of the system clock. -/
  | sign (audience : String)
  /-- Replace the cached header of an origin, under the lock. -/
  | store (audience : String) (header : Bytes)
  /-- Post the body to the endpoint, and follow redirects. -/
  | send (endpoint : String) (header : Bytes) (urgency : String) (body : Bytes)

/-- What a step returns. -/
abbrev Cmd.Res : Cmd → Type
  | random => Except String Unit
  | encrypt _ _ => Except String Bytes
  | lookup _ => Option Bytes
  | sign _ => Bytes
  | store _ _ => Unit
  | send _ _ _ _ => Except String Response

/-- The step looks at the cache. -/
def Cmd.isLookup : Cmd → Bool
  | lookup _ => true
  | _ => false

/-- The step sends the request. -/
def Cmd.isSend : Cmd → Bool
  | send _ _ _ _ => true
  | _ => false

theorem Cmd.exists_of_isSend {c : Cmd} (h : c.isSend = true) :
    ∃ endpoint header urgency body, c = .send endpoint header urgency body := by
  cases c with
  | send endpoint header urgency body => exact ⟨endpoint, header, urgency, body, rfl⟩
  | _ => cases h

/-- A pipeline. -/
abbrev Pipeline := Prog Cmd Cmd.Res

abbrev perform (c : Cmd) : Pipeline c.Res := Prog.perform c

/-- The Authorization header for an origin, from the cache or signed anew. -/
def vapidHeader (audience : String) : Pipeline Bytes := do
  match ← perform (.lookup audience) with
  | some header => return header
  | none => do
    let header ← perform (.sign audience)
    perform (.store audience header)
    return header

/-- A configured app. -/
structure Backend where
  crates : Crates
  app : WebPushApp
  signer : Signer
  /-- The serialized origin of the URL that a text parses to. -/
  origin : String → String

/-- The URL of the endpoint, as the pusher data has it. -/
def endpointText (device : Device) : String :=
  (device.data.bind fun data => data.strField "endpoint").getD ""

variable (B : Backend)

/-- The origin that a delivery is for. -/
def Backend.audience (d : Delivery) : String := B.origin (endpointText d.device)

/-- How urgent the push service should take a notification. -/
def urgency (n : Notification) : String :=
  match n.priority with
  | .high => "high"
  | .low => "normal"

/-- Deliver to one device. -/
def deliver (d : Delivery) : Pipeline Outcome :=
  match subscription B.crates d.device with
  | .error _ => return .skipped
  | .ok sub =>
    match endpointAllowed sub.endpoint B.app.allowedEndpoints with
    | .error _ => return .skipped
    | .ok _ => do
      match ← perform .random with
      | .error e => return .transient ("webpush: rng: " ++ e)
      | .ok _ =>
        match ← perform (.encrypt sub (WebPushApp.buildPayload d.n)) with
        | .error e => return .transient ("webpush: " ++ e)
        | .ok body => do
          let header ← vapidHeader (B.audience d)
          let response ← perform (.send (endpointText d.device) header (urgency d.n) body)
          -- which header it was plays no part in the outcome
          return B.app.deliver B.crates d.device ⟨.ok "vapid", .ok (), .ok body, response⟩

/-! ### The machine -/

/-- What comes from outside. -/
inductive Input
  | none
  | random (result : Except String Unit)
  | sealed (result : Except String Bytes)
  /-- The system clock, in seconds since 1970. -/
  | clock (secs : ℕ)
  | response (response : Except String Response)

/-- The headers by their origins. -/
abbrev Tokens := HashMap String CachedToken

/-- The result of a step and the cache after it. -/
def exec (now : Instant) (tokens : Tokens) : (c : Cmd) → Input → Option (c.Res × Tokens)
  | .random, .random result => some (result, tokens)
  | .encrypt _ _, .sealed result => some (result, tokens)
  | .lookup audience, .none =>
    some (((tokens.lookup audience).filter fun t => now + vapidRefreshMargin < t.expires).map
      CachedToken.header, tokens)
  | .sign audience, .clock secs => some (B.signer.vapidValue audience secs, tokens)
  | .store audience header, .none =>
    some ((), tokens.insert audience ⟨header, now + vapidLifetime⟩)
  | .send _ _ _ _, .response response => some (response, tokens)
  | _, _ => none

/-- Any number of deliveries of an app, on its cache. -/
def machine : Machine Delivery Tokens Cmd Cmd.Res Input Outcome where
  init := ∅
  ready _ _ := true
  branches d := [deliver B d]
  exec _ now c input tokens := exec B now tokens c input

/-- A step in the log. -/
abbrev Step := Machine.Record Delivery Cmd Cmd.Res

/-- A state of the machine. -/
abbrev State := Machine.State Delivery Tokens Cmd Cmd.Res Outcome

/-- The header that a step stores, with its origin. -/
def stored? (r : Step) : Option (String × CachedToken) :=
  match r.event.1 with
  | .store audience header => some (audience, ⟨header, r.time + vapidLifetime⟩)
  | _ => none

theorem stored?_eq_some_iff {r : Step} {audience : String} {t : CachedToken} :
    stored? r = some (audience, t) ↔
      r.event.1 = .store audience t.header ∧ t.expires = r.time + vapidLifetime := by
  obtain ⟨header, expires⟩ := t
  rw [stored?]
  split
  next audience' header' hstore =>
    simp [hstore, and_assoc, eq_comm]
  next hne =>
    simpa using fun hstore => absurd hstore (hne audience header)

/-- A backend of an example, which allows one push service. -/
def backend : Backend where
  crates := ⟨fun s => .ok (bytes s), fun b => .ok ⟨b⟩,
    fun _ => .ok ⟨"https", some "push.example.test"⟩⟩
  app := ⟨["push.example.test"]⟩
  signer := ⟨"mailto:ops@example.test", bytes "key", fun input => input, fun _ => []⟩
  origin _ := "https://push.example.test"

/-- A delivery of an example: a badge update for a subscription at that push service. -/
def badge : Delivery where
  n := { devices := [] }
  device := {
    appId := "app", pushkey := "pk"
    data := some ⟨none, [("endpoint", .string "https://push.example.test/x"),
      ("auth", .string "secret")]⟩ }

/-- The delivery signs a header and sends it, and the push service accepts. -/
def accepted : List (Machine.Label Delivery Input) :=
  [.arrive badge, .perform 0 0 0 (.random (.ok ())), .perform 0 0 0 (.sealed (.ok [])),
    .perform 0 0 0 .none, .perform 0 0 0 (.clock 1700000000), .perform 0 0 0 .none,
    .perform 0 0 0 (.response (.ok ⟨201, .ok ""⟩))]

theorem run_accepted : ((machine backend).run accepted).isSome = true := by decide +kernel

variable {B} {s : State} {pre post : List Step} {r : Step} {d : Delivery} {i : ℕ}
  {audience : String} {header : Bytes}

/-! ### One delivery -/

/-- The subscription can be used, and its endpoint is allowed. -/
def Usable (B : Backend) (d : Delivery) : Prop :=
  ∃ sub, subscription B.crates d.device = .ok sub ∧
    endpointAllowed sub.endpoint B.app.allowedEndpoints = .ok ()

/-- The step in which the payload of a delivery is sealed. -/
abbrev sealing (d : Delivery) (sub : Subscription) (body : Bytes) : Event Cmd Cmd.Res :=
  ⟨.encrypt sub (WebPushApp.buildPayload d.n), .ok body⟩

/-- What a delivery has done before each of its steps. -/
inductive Before (B : Backend) (d : Delivery) : List (Event Cmd Cmd.Res) → Cmd → Prop
  | random : Before B d [] .random
  | encrypt {sub u} : Before B d [⟨.random, .ok u⟩] (.encrypt sub (WebPushApp.buildPayload d.n))
  | lookup {sub u body} :
    Before B d [⟨.random, .ok u⟩, sealing d sub body] (.lookup (B.audience d))
  | sign {sub u body} :
    Before B d [⟨.random, .ok u⟩, sealing d sub body, ⟨.lookup (B.audience d), none⟩]
      (.sign (B.audience d))
  | store {sub u body header} :
    Before B d [⟨.random, .ok u⟩, sealing d sub body, ⟨.lookup (B.audience d), none⟩,
      ⟨.sign (B.audience d), header⟩] (.store (B.audience d) header)
  | sendNew {sub u body header} :
    Before B d [⟨.random, .ok u⟩, sealing d sub body, ⟨.lookup (B.audience d), none⟩,
      ⟨.sign (B.audience d), header⟩, ⟨.store (B.audience d) header, ()⟩]
      (.send (endpointText d.device) header (urgency d.n) body)
  | sendCached {sub u body header} :
    Before B d [⟨.random, .ok u⟩, sealing d sub body, ⟨.lookup (B.audience d), some header⟩]
      (.send (endpointText d.device) header (urgency d.n) body)

/-- Every step of a delivery comes after these, and there is none for an unusable subscription. -/
theorem always_before_deliver (B : Backend) (d : Delivery) :
    (deliver B d).Always fun t e => Usable B d ∧ Before B d t e.1 := by
  unfold deliver
  cases hsub : subscription B.crates d.device with
  | error e => exact Prog.always_pure
  | ok sub =>
    dsimp only
    cases hallowed : endpointAllowed sub.endpoint B.app.allowedEndpoints with
    | error e => exact Prog.always_pure
    | ok u =>
      have husable : Usable B d := ⟨sub, hsub, hallowed⟩
      simp only [Prog.perform_bind, Prog.always_call]
      rintro (e | u)
      · exact ⟨⟨husable, .random⟩, Prog.always_pure⟩
      refine ⟨⟨husable, .random⟩, ?_⟩
      simp only [Prog.always_call]
      rintro (e | body)
      · exact ⟨⟨husable, .encrypt⟩, Prog.always_pure⟩
      refine ⟨⟨husable, .encrypt⟩, ?_⟩
      simp only [vapidHeader, Prog.perform_bind, Prog.call_bind, Prog.always_call]
      rintro (_ | header)
      · refine ⟨⟨husable, .lookup⟩, ?_⟩
        simp only [Prog.call_bind, Prog.always_call]
        intro header
        refine ⟨⟨husable, .sign⟩, fun _ => ⟨⟨husable, .store⟩, fun response => ?_⟩⟩
        exact ⟨⟨husable, .sendNew⟩, Prog.always_pure⟩
      · refine ⟨⟨husable, .lookup⟩, fun response => ?_⟩
        exact ⟨⟨husable, .sendCached⟩, Prog.always_pure⟩

/-! ### The log -/

/-- A logged step comes after these. -/
theorem before_of_log (h : (machine B).Reachable s) (hlog : s.log = pre ++ r :: post) :
    Usable B r.request ∧ Before B r.request (Machine.trace r.call 0 pre) r.event.1 :=
  h.always_single (fun _ => rfl) (P := fun d t e => Usable B d ∧ Before B d t e.1)
    (always_before_deliver B) hlog

/-- The cache holds for each origin the header that was stored last. -/
theorem cache_eq (h : (machine B).Reachable s) (audience : String) :
    s.shared.lookup audience = Log.lastStored (Log.storedUnder stored? audience) s.log := by
  have hfold : s.shared =
      s.log.foldl (fun m r => (stored? r).elim m fun e => AList.insert e.1 e.2 m) ∅ := by
    refine h.shared_eq_foldl ?_
    intro d now c input x res x' i b hexec
    change exec B now x c input = _ at hexec
    cases c <;> cases input <;> cases hexec <;> rfl
  rw [hfold, Log.lookup_foldl_insert]

/-- What a look at the cache finds: the header that was stored last for the origin, if it is
fresh. -/
theorem lookup_of_log (h : (machine B).Reachable s) (hlog : s.log = pre ++ r :: post)
    {found : Option Bytes} (hr : r.event = ⟨.lookup audience, found⟩) :
    found = ((Log.lastStored (Log.storedUnder stored? audience) pre).filter
      fun t => r.time + vapidRefreshMargin < t.expires).map CachedToken.header := by
  obtain ⟨s₀, call, input, f, shared, hs₀, rfl, -, -, -, hexec⟩ := h.exists_perform hlog
  rw [← cache_eq hs₀]
  change exec B r.time s₀.shared r.event.1 input = _ at hexec
  rw [hr] at hexec
  cases input with
  | none => exact (congrArg Prod.fst (Option.some_inj.mp hexec)).symm
  | _ => cases hexec

/-! ### Where a header comes from -/

/-- The call has signed the header for the origin. -/
def Signed (log : List Step) (i : ℕ) (audience : String) (header : Bytes) : Prop :=
  ∃ g ∈ log, g.call = i ∧ g.event = ⟨.sign audience, header⟩

/-- The call found the header in the cache when it looked. Another call had signed it for the same
origin and stored it last, and it was fresh. -/
def Found (log : List Step) (i : ℕ) (audience : String) (header : Bytes) : Prop :=
  ∃ pre g mid l post, log = pre ++ g :: mid ++ l :: post ∧ g.event.1 = .store audience header ∧
    Signed pre g.call audience header ∧ (∀ r ∈ mid, Log.storedUnder stored? audience r = none) ∧
    l.call = i ∧ l.event = ⟨.lookup audience, some header⟩ ∧
    l.time + vapidRefreshMargin < g.time + vapidLifetime

/-- A header is stored by the call that has signed it. -/
theorem signed_of_store (h : (machine B).Reachable s) (hlog : s.log = pre ++ r :: post)
    (hstore : r.event.1 = .store audience header) : Signed pre r.call audience header := by
  obtain ⟨-, hbefore⟩ := before_of_log h hlog
  rw [hstore] at hbefore
  have hsub : pre ⊆ s.log := by simp [hlog]
  refine (h.mem_trace_single (fun _ => rfl) hsub).mp ?_
  generalize Machine.trace r.call 0 pre = trace at hbefore
  cases hbefore
  simp

/-- What a look at the cache has found was stored there by the call that had signed it. -/
theorem found_of_lookup (h : (machine B).Reachable s) (hlog : s.log = pre ++ post)
    (hlookup : ⟨.lookup audience, some header⟩ ∈ Machine.trace i 0 pre) :
    Found pre i audience header := by
  obtain ⟨l, hl, hcall, -, hevent⟩ := Machine.mem_trace.mp hlookup
  obtain ⟨pre', post', rfl⟩ := List.append_of_mem hl
  have hlog' : s.log = pre' ++ l :: (post' ++ post) := by simpa using hlog
  have hfound := lookup_of_log h hlog' hevent
  obtain ⟨t, ht, rfl⟩ := Option.map_eq_some_iff.mp hfound.symm
  obtain ⟨hlast, hfresh⟩ := Option.filter_eq_some_iff.mp ht
  -- the header was stored last by `g`, and nothing else was stored since
  obtain ⟨pre'', g, mid, rfl, hg, hmid⟩ := Log.lastStored_eq_some_iff.mp hlast
  obtain ⟨hstore, hexpires⟩ := stored?_eq_some_iff.mp (Log.storedUnder_eq_some_iff.mp hg)
  have hlog'' : s.log = pre'' ++ g :: (mid ++ l :: (post' ++ post)) := by simpa using hlog'
  have hsigned := signed_of_store h hlog'' hstore
  rw [hexpires] at hfresh
  exact ⟨pre'', g, mid, l, post', rfl, hstore, hsigned, hmid, hcall, hevent, by simpa using hfresh⟩

/-- A header is stored for the origin of a usable subscription, by the call that has signed it. -/
theorem usable_of_store (h : (machine B).Reachable s) (hlog : s.log = pre ++ r :: post)
    (hstore : r.event.1 = .store audience header) :
    Usable B r.request ∧ B.audience r.request = audience := by
  obtain ⟨husable, hbefore⟩ := before_of_log h hlog
  rw [hstore] at hbefore
  generalize Machine.trace r.call 0 pre = trace at hbefore
  cases hbefore
  exact ⟨husable, rfl⟩

/-- In every run, the cache holds a header for an origin exactly when a delivery to a usable and
allowed endpoint of this origin has signed and stored it, twelve hours before it expires, and no
delivery has stored another one for this origin since. So no origin that is not allowed gets into
the cache, and none that is in it ever leaves it. -/
theorem cached_iff (h : (machine B).Reachable s) {t : CachedToken} :
    s.shared.lookup audience = some t ↔ ∃ pre r post, s.log = pre ++ r :: post ∧
      Usable B r.request ∧ B.audience r.request = audience ∧
      r.event.1 = .store audience t.header ∧ Signed pre r.call audience t.header ∧
      t.expires = r.time + vapidLifetime ∧
      ∀ r' ∈ post, ∀ header, r'.event.1 ≠ .store audience header := by
  have hnone : ∀ r' : Step, Log.storedUnder stored? audience r' = none ↔
      ∀ header, r'.event.1 ≠ .store audience header := by
    intro r'
    rw [Option.eq_none_iff_forall_not_mem]
    simp only [Option.mem_def, Log.storedUnder_eq_some_iff, stored?_eq_some_iff]
    exact ⟨fun hne header hstore => hne ⟨header, _⟩ ⟨hstore, rfl⟩, fun hne t ht => hne _ ht.1⟩
  simp only [cache_eq h, Log.lastStored_eq_some_iff, Log.storedUnder_eq_some_iff,
    stored?_eq_some_iff, hnone]
  constructor
  · rintro ⟨pre, r, post, hlog, ⟨hstore, hexpires⟩, hpost⟩
    obtain ⟨husable, haudience⟩ := usable_of_store h hlog hstore
    exact ⟨pre, r, post, hlog, husable, haudience, hstore, signed_of_store h hlog hstore, hexpires,
      hpost⟩
  · rintro ⟨pre, r, post, hlog, -, -, hstore, -, hexpires, hpost⟩
    exact ⟨pre, r, post, hlog, ⟨hstore, hexpires⟩, hpost⟩

theorem cached_iff_accepted :
    ∃ s t, (machine backend).run accepted = some s ∧
      s.shared.lookup "https://push.example.test" = some t ∧
      ∃ r ∈ s.log, Usable backend r.request ∧
        Signed s.log r.call "https://push.example.test" t.header := by
  have hsome : ((((machine backend).run accepted).get run_accepted).shared.lookup
      "https://push.example.test").isSome = true := by decide +kernel
  obtain ⟨t, ht⟩ := Option.isSome_iff_exists.mp hsome
  obtain ⟨pre, r, post, hlog, husable, -, -, ⟨g, hg, hcall, hevent⟩, -⟩ :=
    (cached_iff (Machine.reachable_get run_accepted)).mp ht
  exact ⟨_, t, (Option.some_get run_accepted).symm, ht, r, by simp [hlog], husable,
    g, by simp [hlog, hg], hcall, hevent⟩

/-- The header of a request was signed for its origin by its own call, or found in the cache. -/
theorem signed_or_found (h : (machine B).Reachable s) (hlog : s.log = pre ++ r :: post)
    {endpoint urgency : String} {body : Bytes}
    (hsend : r.event.1 = .send endpoint header urgency body) :
    endpoint = endpointText r.request.device ∧ (Signed pre r.call (B.origin endpoint) header ∨
      Found pre r.call (B.origin endpoint) header) := by
  obtain ⟨-, hbefore⟩ := before_of_log h hlog
  rw [hsend] at hbefore
  generalize htrace : Machine.trace r.call 0 pre = trace at hbefore
  cases hbefore with
  | sendNew =>
    refine ⟨rfl, Or.inl ?_⟩
    have hsub : pre ⊆ s.log := by simp [hlog]
    exact (h.mem_trace_single (fun _ => rfl) hsub).mp (by rw [htrace]; simp [Backend.audience])
  | sendCached =>
    exact ⟨rfl, Or.inr (found_of_lookup h hlog (by rw [htrace]; simp [Backend.audience]))⟩

/-- In every run, the first request of a delivery goes to the endpoint of a subscription that can be
used and is allowed, and its header was signed for the origin of this endpoint: by its own call, or
by the call that had stored it last for this origin when this one looked, less than eleven hours
before. Where redirects lead after it is not checked. -/
theorem send_authorized (h : (machine B).Reachable s) (hlog : s.log = pre ++ r :: post)
    {endpoint urgency : String} {body : Bytes}
    (hsend : r.event.1 = .send endpoint header urgency body) :
    Usable B r.request ∧ endpoint = endpointText r.request.device ∧
      (Signed pre r.call (B.origin endpoint) header ∨
        Found pre r.call (B.origin endpoint) header) :=
  ⟨(before_of_log h hlog).1, signed_or_found h hlog hsend⟩

/-- The request of the example in its log. -/
theorem send_of_accepted :
    ∃ r endpoint header urgency body,
      (((machine backend).run accepted).get run_accepted).log[5]? = some r ∧
        r.event.1 = .send endpoint header urgency body := by
  have hany : ((((machine backend).run accepted).get run_accepted).log[5]?.any
      fun r => r.event.1.isSend) = true := by decide +kernel
  obtain ⟨r, hget, hsend⟩ := (Option.any_eq_true _ _).mp hany
  obtain ⟨endpoint, header, urgency, body, hsend⟩ := Cmd.exists_of_isSend hsend
  exact ⟨r, endpoint, header, urgency, body, hget, hsend⟩

theorem send_authorized_accepted :
    ∃ s r endpoint header urgency body, (machine backend).run accepted = some s ∧
      s.log[5]? = some r ∧ r.event.1 = .send endpoint header urgency body ∧
      (Signed (s.log.take 5) r.call (backend.origin endpoint) header ∨
        Found (s.log.take 5) r.call (backend.origin endpoint) header) := by
  obtain ⟨r, endpoint, header, urgency, body, hget, hsend⟩ := send_of_accepted
  refine ⟨_, r, endpoint, header, urgency, body, (Option.some_get run_accepted).symm, hget, hsend,
    ?_⟩
  exact (send_authorized (Machine.reachable_get run_accepted)
    (Machine.eq_append_of_getElem? hget) hsend).2.2

/-! ### What the push service reads -/

/-- If the step signs a header, it is one for this time. -/
def signsAt (B : Backend) (secs : ℕ) (r : Step) : Bool :=
  match r.event with
  | ⟨.sign audience, header⟩ => header = B.signer.vapidValue audience secs
  | _ => true

/-- The system clock shows `epoch` at the origin of the monotonic clock, and both run alike. -/
def Synced (B : Backend) (epoch : Duration) (log : List Step) : Prop :=
  ∀ r ∈ log, signsAt B ((epoch + r.time) / fromSecs 1) r = true

/-- No delivery takes longer than `pause` from its look at the cache to its request. -/
def Prompt (pause : Duration) (log : List Step) : Prop :=
  ∀ l ∈ log, l.event.1.isLookup = true → ∀ r ∈ log, r.call = l.call → r.time ≤ l.time + pause

instance (epoch : Duration) (log : List Step) : Decidable (Synced B epoch log) := by
  unfold Synced
  infer_instance

instance (pause : Duration) (log : List Step) : Decidable (Prompt pause log) := by
  unfold Prompt
  infer_instance

/-- A call that signs has looked before, and what it does later is done in time. -/
theorem time_le_of_signed (h : (machine B).Reachable s) (htimed : Machine.Timed s.log)
    {pause : Duration} (hprompt : Prompt pause s.log) {g : Step} (hg : g ∈ s.log)
    (hsign : g.event.1 = .sign audience) (hr : r ∈ s.log) (hcall : r.call = g.call) :
    r.time ≤ g.time + pause := by
  obtain ⟨pre, post, hlog⟩ := List.append_of_mem hg
  obtain ⟨-, hbefore⟩ := before_of_log h hlog
  rw [hsign] at hbefore
  have hsub : pre ⊆ s.log := by simp [hlog]
  generalize htrace : Machine.trace g.call 0 pre = trace at hbefore
  cases hbefore with
  | sign =>
    obtain ⟨l, hl, hlcall, hlevent⟩ := (h.mem_trace_single (fun _ => rfl) hsub).mp
      (show ⟨.lookup (B.audience g.request), none⟩ ∈ Machine.trace g.call 0 pre by simp [htrace])
    have hlate := hprompt l (hsub hl) (by rw [hlevent]; rfl) r hr (hcall.trans hlcall.symm)
    exact hlate.trans (Nat.add_le_add_right ((hlog ▸ htimed).time_le hl) pause)

/-! The arithmetic of ages, over the times of a request `r`, of the look `l` that found its header,
of the step `st` that stored it and of the step `g` that signed it. -/

section Ages

variable {r l st g pause second margin life epoch n : ℕ}

theorem age_le_of_signed (hage : r ≤ g + pause) (hpause : 2 * pause + second ≤ margin)
    (hmargin : margin ≤ life) : r + second ≤ g + life := by
  omega

theorem age_le_of_found (hage : st ≤ g + pause) (hlate : r ≤ l + pause)
    (hfresh : l + margin < st + life) (hpause : 2 * pause + second ≤ margin) :
    r + second ≤ g + life := by
  omega

theorem lt_of_age_le (hn : epoch + g < n + second) (hage : r + second ≤ g + life) :
    epoch + r < n + life := by
  omega

theorem le_of_time_le {day : ℕ} (hn : n ≤ epoch + g) (hgr : g ≤ r) (hday : life ≤ day) :
    n + life ≤ epoch + r + day := by
  omega

theorem fromSecs_add (a b : ℕ) : fromSecs (a + b) = fromSecs a + fromSecs b := Nat.add_mul a b _

theorem fromSecs_div (d : ℕ) : fromSecs (d / fromSecs 1) = d / fromSecs 1 * fromSecs 1 := by
  rw [fromSecs, fromSecs, Nat.one_mul]

end Ages

/-- The step in which the header of a request was signed, and how long before the request it was. -/
theorem exists_sign_of_send (h : (machine B).Reachable s) {pause : Duration}
    (htimed : Machine.Timed s.log) (hprompt : Prompt pause s.log)
    (hpause : 2 * pause + fromSecs 1 ≤ vapidRefreshMargin)
    (hlog : s.log = pre ++ r :: post) {endpoint urgency : String} {body : Bytes}
    (hsend : r.event.1 = .send endpoint header urgency body) :
    ∃ g ∈ pre, g.event = ⟨.sign (B.origin endpoint), header⟩ ∧
      r.time + fromSecs 1 ≤ g.time + vapidLifetime := by
  have hmargin : vapidRefreshMargin ≤ vapidLifetime := by decide
  have hr : r ∈ s.log := by simp [hlog]
  obtain ⟨-, ⟨g, hg, hcall, hevent⟩ | hfound⟩ := signed_or_found h hlog hsend
  · have hage := time_le_of_signed h htimed hprompt (show g ∈ s.log by simp [hlog, hg])
      (by rw [hevent]) hr hcall.symm
    exact ⟨g, hg, hevent, age_le_of_signed hage hpause hmargin⟩
  · -- signed and stored by another call, and found before it was too old
    obtain ⟨pre', st, mid, l, post', rfl, hstore, ⟨g, hg, hcall, hevent⟩, -, hlcall, hlevent,
      hfresh⟩ := hfound
    have hage := time_le_of_signed h htimed hprompt (show g ∈ s.log by simp [hlog, hg])
      (by rw [hevent]) (show st ∈ s.log by simp [hlog]) hcall.symm
    have hlate := hprompt l (by simp [hlog]) (by rw [hlevent]; rfl) r hr hlcall.symm
    exact ⟨g, by simp [hg], hevent, age_le_of_found hage hlate hfresh hpause⟩

/-- What the push service reads in the header of a request, where the two clocks run alike and the
deliveries of the app pause for less than about half an hour between their look at the cache and
their request: a token whose audience is the origin of the endpoint, and that has not expired by the
system clock and expires within a day. -/
theorem send_received (h : (machine B).Reachable s) {epoch pause : Duration}
    (htimed : Machine.Timed s.log) (hsynced : Synced B epoch s.log) (hprompt : Prompt pause s.log)
    (hpause : 2 * pause + fromSecs 1 ≤ vapidRefreshMargin) (hlog : s.log = pre ++ r :: post)
    {endpoint urgency : String} {body : Bytes}
    (hsend : r.event.1 = .send endpoint header urgency body) :
    ∃ secs received, receive header = some received ∧
      received.claims = (B.signer.claims (B.origin endpoint) secs).text B.signer.formatFloat ∧
      received.signature = B.signer.sign received.input ∧
      received.publicKey = B.signer.publicKey ∧
      epoch + r.time < fromSecs (secs + vapidLifetimeSecs) ∧
      fromSecs (secs + vapidLifetimeSecs) ≤ epoch + r.time + fromSecs (24 * 60 * 60) := by
  obtain ⟨g, hg, hevent, hage⟩ := exists_sign_of_send h htimed hprompt hpause hlog hsend
  have hgr := (hlog ▸ htimed).time_le hg
  have hsigns := hsynced g (by simp [hlog, hg])
  rw [signsAt, hevent] at hsigns
  obtain rfl := of_decide_eq_true hsigns
  rw [Signer.vapidValue_eq]
  refine ⟨_, _, receive_parts _ _ _ _, rfl, rfl, rfl, ?_, ?_⟩ <;>
    rw [fromSecs_add, fromSecs_div]
  · exact lt_of_age_le (Nat.lt_div_mul_add (by decide)) hage
  · exact le_of_time_le (Nat.div_mul_le_self _ _) hgr (by decide)

theorem send_received_accepted :
    ∃ s r endpoint header urgency body received, (machine backend).run accepted = some s ∧
      s.log[5]? = some r ∧ r.event.1 = .send endpoint header urgency body ∧
      receive header = some received ∧ received.publicKey = backend.signer.publicKey := by
  obtain ⟨r, endpoint, header, urgency, body, hget, hsend⟩ := send_of_accepted
  have htimed : Machine.Timed (((machine backend).run accepted).get run_accepted).log := by
    decide +kernel
  have hsynced : Synced backend (fromSecs 1700000000)
      (((machine backend).run accepted).get run_accepted).log := by decide +kernel
  have hprompt : Prompt 0 (((machine backend).run accepted).get run_accepted).log := by
    decide +kernel
  obtain ⟨secs, received, hreceive, -, -, hkey, -, -⟩ :=
    send_received (Machine.reachable_get run_accepted) htimed hsynced hprompt (by decide)
      (Machine.eq_append_of_getElem? hget) hsend
  exact ⟨_, r, endpoint, header, urgency, body, received, (Option.some_get run_accepted).symm, hget,
    hsend, hreceive, hkey⟩

/-! ### What a delivery returns -/

/-- The step is a request that has ended with this response. -/
def EndsWith (resp : Response) (e : Event Cmd Cmd.Res) : Prop :=
  ∃ endpoint header urgency body, e = ⟨.send endpoint header urgency body, .ok resp⟩

/-- What a delivery has done when it returns: nothing, because its subscription cannot be used, or
it failed before it sent its request, or it returns what the one-step delivery makes of the
response. -/
inductive Done (B : Backend) (d : Delivery) : List (Event Cmd Cmd.Res) → Outcome → Prop
  | unusable (h : ¬ Usable B d) : Done B d [] .skipped
  | failed {trace error} (h : Usable B d) (hsent : ∀ resp, ∀ e ∈ trace, ¬ EndsWith resp e) :
    Done B d trace (.transient error)
  | sent {before header body response} (h : Usable B d)
    (hsent : ∀ resp, ∀ e ∈ before, ¬ EndsWith resp e) :
    Done B d (before ++ [⟨.send (endpointText d.device) header (urgency d.n) body, response⟩])
      (B.app.deliver B.crates d.device ⟨.ok "vapid", .ok (), .ok body, response⟩)

theorem done_of_returns {trace : List (Event Cmd Cmd.Res)} {o : Outcome}
    (h : (deliver B d).Returns trace o) : Done B d trace o := by
  unfold deliver at h
  cases hsub : subscription B.crates d.device with
  | error e =>
    rw [hsub] at h
    obtain ⟨rfl, rfl⟩ := Prog.returns_pure_iff.mp h
    exact .unusable (by simp [Usable, hsub])
  | ok sub =>
    rw [hsub] at h
    dsimp only at h
    cases hallowed : endpointAllowed sub.endpoint B.app.allowedEndpoints with
    | error e =>
      rw [hallowed] at h
      obtain ⟨rfl, rfl⟩ := Prog.returns_pure_iff.mp h
      exact .unusable (by simp [Usable, hsub, hallowed])
    | ok u =>
      have husable : Usable B d := ⟨sub, hsub, hallowed⟩
      rw [hallowed] at h
      simp only [Prog.perform_bind, Prog.returns_call_iff] at h
      obtain ⟨e | u, t₁, rfl, h⟩ := h
      · obtain ⟨rfl, rfl⟩ := Prog.returns_pure_iff.mp h
        exact .failed husable (by simp [EndsWith])
      simp only [Prog.returns_call_iff] at h
      obtain ⟨e | body, t₂, rfl, h⟩ := h
      · obtain ⟨rfl, rfl⟩ := Prog.returns_pure_iff.mp h
        exact .failed husable (by simp [EndsWith])
      simp only [vapidHeader, Prog.perform_bind, Prog.call_bind, Prog.returns_call_iff] at h
      obtain ⟨_ | header, t₃, rfl, h⟩ := h
      · simp only [Prog.call_bind, Prog.pure_bind, Prog.returns_call_iff] at h
        obtain ⟨header, t₄, rfl, u, t₅, rfl, response, t₆, rfl, h⟩ := h
        obtain ⟨rfl, rfl⟩ := Prog.returns_pure_iff.mp h
        show Done B d ([_, _, _, _, _] ++ [_]) _
        exact .sent husable (by simp [EndsWith])
      · simp only [Prog.pure_bind, Prog.returns_call_iff] at h
        obtain ⟨response, t₄, rfl, h⟩ := h
        obtain ⟨rfl, rfl⟩ := Prog.returns_pure_iff.mp h
        show Done B d ([_, _, _] ++ [_]) _
        exact .sent husable (by simp [EndsWith])

/-- What the one-step delivery makes of a response: a success status means success. -/
theorem deliver_eq_delivered_iff (h : Usable B d) {body : Bytes}
    {response : Except String Response} :
    B.app.deliver B.crates d.device ⟨.ok "vapid", .ok (), .ok body, response⟩ = .delivered ↔
      ∃ resp, response = .ok resp ∧ resp.isSuccess = true := by
  obtain ⟨sub, hsub, hallowed⟩ := h
  rw [WebPushApp.deliver, hsub]
  dsimp only
  rw [hallowed]
  cases response with
  | error e => simp
  | ok resp =>
    refine (Provider.ite_eq_delivered_iff ?_).trans ?_
    · split_ifs <;> simp
    · simp

/-- What the one-step delivery makes of a response: 404 and 410 mean rejection. -/
theorem deliver_eq_rejected_iff (h : Usable B d) {body : Bytes}
    {response : Except String Response} :
    B.app.deliver B.crates d.device ⟨.ok "vapid", .ok (), .ok body, response⟩ = .rejected ↔
      ∃ resp, response = .ok resp ∧ (resp.status = 404 ∨ resp.status = 410) := by
  obtain ⟨sub, hsub, hallowed⟩ := h
  rw [Provider.webpush_deliver_eq_rejected_iff]
  simp [Provider.Definitive, hsub, hallowed]

/-- A request of the call has ended with this response: that of the push service, or of the last
host that redirects have led to. -/
def Answered (log : List Step) (i : ℕ) (resp : Response) : Prop :=
  ∃ r ∈ log, r.call = i ∧ EndsWith resp r.event

/-- In every run, a delivery that has finished was accepted exactly when its own request ended with
a success, and is rejected exactly when it ended with 404 or 410. For an unusable subscription,
nothing is signed, sealed or sent, and the delivery is skipped. -/
theorem outcomes_iff (h : (machine B).Reachable s) {call : Machine.Call Delivery Cmd Cmd.Res _}
    (hcall : s.calls[i]? = some call) {o : Outcome} (hresults : call.results = some [o]) :
    (o = .delivered ↔ ∃ resp, Answered s.log i resp ∧ resp.isSuccess = true) ∧
      (o = .rejected ↔
        ∃ resp, Answered s.log i resp ∧ (resp.status = 404 ∨ resp.status = 410)) ∧
      (¬ Usable B call.request → o = .skipped ∧ ∀ r ∈ s.log, r.call ≠ i) := by
  have hdone := done_of_returns (h.returns_of_results hcall rfl hresults)
  have hsteps : ∀ r ∈ s.log, r.call = i → r.event ∈ Machine.trace i 0 s.log := fun r hr hri =>
    (h.mem_trace_single (fun _ => rfl) (List.Subset.refl _)).mpr ⟨r, hr, hri, rfl⟩
  have hanswered : ∀ resp, Answered s.log i resp ↔
      ∃ e ∈ Machine.trace i 0 s.log, EndsWith resp e :=
    fun resp => h.exists_event_iff fun _ => rfl
  simp only [hanswered]
  generalize Machine.trace i 0 s.log = trace at hdone hsteps
  cases hdone with
  | unusable hnot =>
    simpa using fun _ => hsteps
  | failed husable hsent =>
    have hnone : ∀ resp, ¬ ∃ e ∈ trace, EndsWith resp e :=
      fun resp ⟨e, he, hend⟩ => hsent resp e he hend
    simp only [hnone]
    simp [husable]
  | sent husable hsent =>
    simp only [History.exists_mem_concat_iff (hsent _), deliver_eq_delivered_iff husable,
      deliver_eq_rejected_iff husable]
    simp [EndsWith, husable]

theorem outcomes_iff_accepted :
    ∃ s call, (machine backend).run accepted = some s ∧ s.calls[0]? = some call ∧
      call.results = some [.delivered] ∧
      (Outcome.delivered = .delivered ↔ ∃ resp, Answered s.log 0 resp ∧ resp.isSuccess = true) := by
  have hany : ((((machine backend).run accepted).get run_accepted).calls[0]?.any
      fun call => call.results = some [.delivered]) = true := by decide +kernel
  obtain ⟨call, hcall, hresults⟩ := (Option.any_eq_true _ _).mp hany
  have hresults : call.results = some [.delivered] := of_decide_eq_true hresults
  exact ⟨_, _, (Option.some_get run_accepted).symm, hcall, hresults,
    (outcomes_iff (Machine.reachable_get run_accepted) hcall hresults).1⟩

end Pincerbell.VapidToken
