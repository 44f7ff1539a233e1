import Pincerbell.Message
import Pincerbell.Provider
import Pincerbell.Queue.Panics
import Pincerbell.Support.LastStored
import Pincerbell.Support.Machine

/-!
# The access token of FCM

`FcmApp` keeps the OAuth2 token that authorizes its requests. `access_token` takes the lock of the
cache to look at it and to store a new token, and between the two it signs an assertion, posts it to
the token endpoint and reads the clock. The deliveries of an app share the cache, and their steps
interleave in any order. What the signer, the token endpoint and FCM answer comes from outside.

* `accessToken`, `deliver` — the two functions, as programs over their steps.
* `machine` — any number of deliveries on one cache.
* `Before` — what a delivery has done before each of its steps.
* `cache_eq` — the cache holds the token that was stored last, whatever FCM answers.
* `send_fresh` — where the token of a request comes from, and that it was fresh.
* `steps_of_lookup` — what a delivery does after its look at the cache.
* `results_iff` — what a delivery that has finished returns.
-/

namespace Pincerbell.FcmToken

open Prog (Event Always Returns)

/-! ### The pipeline -/

def scope : String := "https://www.googleapis.com/auth/firebase.messaging"

/-- Remaining validity below which a cached token is refreshed. -/
def tokenRefreshMargin : Duration := fromSecs 60

/-- The subset of a service-account file that a token is requested with. -/
structure ServiceAccount where
  clientEmail : String
  tokenUri : String

structure CachedToken where
  bearer : String
  expires : Instant
  deriving DecidableEq, Repr

/-- What an assertion claims. -/
structure Claims where
  iss : String
  scope : String
  aud : String
  iat : ℕ
  exp : ℕ
  deriving DecidableEq, Repr

structure TokenResponse where
  accessToken : String
  expiresIn : UInt64
  deriving DecidableEq, Repr

/-- An answer of the token endpoint. Reading its body can fail. -/
structure TokenReply where
  status : ℕ
  json : Except String TokenResponse

/-- `StatusCode::is_success`. -/
def TokenReply.isSuccess (reply : TokenReply) : Bool := 200 ≤ reply.status && reply.status < 300

/-- The parts of the libraries that a token is requested with. -/
structure TokenCrates where
  /-- `jsonwebtoken::encode`, with the key of the account. -/
  encode : Claims → Except String String
  /-- `StatusCode`, as it is displayed. -/
  displayStatus : ℕ → String

/-- One atomic step of a delivery. -/
inductive Cmd
  /-- Look at the cached token, under the lock. -/
  | lookup
  /-- Sign an assertion with the time of the system clock. -/
  | sign
  /-- Post the assertion to the token endpoint. -/
  | requestToken (assertion : String)
  /-- `Instant::now() + Duration::from_secs(expires_in)`. -/
  | expiry (expiresIn : UInt64)
  /-- Replace the cached token, under the lock. -/
  | store (token : CachedToken)
  /-- Post the message to FCM. -/
  | send (bearer : String) (message : Message)

/-- What a step returns. An expiry that no `Instant` can hold is a panic. -/
abbrev Cmd.Res : Cmd → Type
  | lookup => Option String
  | sign => Except String String
  | requestToken _ => Except String TokenReply
  | expiry _ => Option Instant
  | store _ => Unit
  | send _ _ => Except String Response

/-- A pipeline. -/
abbrev Pipeline := Prog Cmd Cmd.Res

abbrev perform (c : Cmd) : Pipeline c.Res := Prog.perform c

/-- A token, from the cache or from the token endpoint. The result is `none` when it panics. -/
def accessToken (crates : TokenCrates) : Pipeline (Option (Except String String)) := do
  match ← perform .lookup with
  | some bearer => return some (.ok bearer)
  | none =>
    match ← perform .sign with
    | .error e => return some (.error ("signing token assertion: " ++ e))
    | .ok assertion =>
      match ← perform (.requestToken assertion) with
      | .error e => return some (.error ("token endpoint: " ++ e))
      | .ok reply =>
        if !reply.isSuccess then
          return some (.error ("token endpoint: HTTP " ++ crates.displayStatus reply.status))
        else
          match reply.json with
          | .error e => return some (.error ("token endpoint: " ++ e))
          | .ok token =>
            -- the value is computed before the lock is taken, so a panic leaves the lock alone
            match ← perform (.expiry token.expiresIn) with
            | none => return none
            | some expires => do
              perform (.store ⟨token.accessToken, expires⟩)
              return some (.ok token.accessToken)

/-- Deliver to one device. -/
def deliver (crates : TokenCrates) (app : FcmApp) (n : Notification) (device : Device) :
    Pipeline (Option Outcome) := do
  match ← accessToken crates with
  | none => return none
  | some (.error e) => return some (.transient e)
  | some (.ok bearer) => do
    let response ← perform (.send bearer (app.message n device))
    return some (FcmApp.deliver ⟨.ok bearer, .ok (), .ok [], response⟩)

/-! ### The machine -/

/-- What comes from outside. -/
inductive Input
  | none
  /-- The system clock, in seconds since 1970. -/
  | clock (secs : ℕ)
  | tokenReply (reply : Except String TokenReply)
  | response (response : Except String Response)

/-- A configured app. -/
structure Backend where
  crates : TokenCrates
  app : FcmApp
  account : ServiceAccount

variable (B : Backend)

/-- The result of a step and the cache after it. -/
def exec (now : Instant) (token : Option CachedToken) :
    (c : Cmd) → Input → Option (c.Res × Option CachedToken)
  | .lookup, .none =>
    some ((token.filter fun t => now + tokenRefreshMargin < t.expires).map CachedToken.bearer,
      token)
  | .sign, .clock iat =>
    some (B.crates.encode ⟨B.account.clientEmail, scope, B.account.tokenUri, iat, iat + 3600⟩,
      token)
  | .requestToken _, .tokenReply reply => some (reply, token)
  | .expiry expiresIn, .none =>
    some (Instant.checkedAdd now (fromSecs expiresIn.toNat), token)
  | .store t, .none => some ((), some t)
  | .send _ _, .response response => some (response, token)
  | _, _ => none

/-- Any number of deliveries of an app, on its cache. -/
def machine : Machine Delivery (Option CachedToken) Cmd Cmd.Res Input (Option Outcome) where
  init := none
  ready _ _ := true
  branches d := [deliver B.crates B.app d.n d.device]
  exec _ now c input token := exec B now token c input

/-- A step in the log. -/
abbrev Step := Machine.Record Delivery Cmd Cmd.Res

/-- A state of the machine. -/
abbrev State := Machine.State Delivery (Option CachedToken) Cmd Cmd.Res (Option Outcome)

/-- The token that a step stores. -/
def stored? (r : Step) : Option CachedToken :=
  match r.event.1 with
  | .store t => some t
  | _ => none

theorem stored?_eq_some_iff {r : Step} {t : CachedToken} :
    stored? r = some t ↔ r.event.1 = .store t := by
  rw [stored?]
  split
  next t' ht => simp [ht]
  next hne => simpa using hne t

/-- A backend of an example. -/
def backend : Backend where
  crates := ⟨fun claims => .ok claims.iss, toString⟩
  app := ⟨"https://fcm.googleapis.com", "project"⟩
  account := ⟨"svc@example.test", "https://oauth2.example.test/token"⟩

/-- A delivery of an example: a badge update for one device. -/
def badge : Delivery where
  n := { devices := [{ appId := "app", pushkey := "pk" }] }
  device := { appId := "app", pushkey := "pk" }

/-- The first of two deliveries is granted a token, the second one finds it in the cache and is told
that its device is gone. -/
def twoDeliveries : List (Machine.Label Delivery Input) :=
  [.arrive badge, .perform 0 0 0 .none, .perform 0 0 0 (.clock 1700000000),
    .perform 0 0 0 (.tokenReply (.ok ⟨200, .ok ⟨"tok", 3600⟩⟩)), .perform 0 0 0 .none,
    .perform 0 0 0 .none, .arrive badge, .perform 1 0 (fromSecs 10) .none,
    .perform 1 0 (fromSecs 10) (.response (.ok ⟨404, .ok "UNREGISTERED"⟩))]

variable {B} {s : State} {pre post : List Step} {r : Step} {d : Delivery} {t : CachedToken}
  {i : ℕ}

/-! ### One delivery -/

/-- What a delivery has done before each of its steps. -/
inductive Before (app : FcmApp) (d : Delivery) : List (Event Cmd Cmd.Res) → Cmd → Prop
  | lookup : Before app d [] .lookup
  | sign : Before app d [⟨.lookup, none⟩] .sign
  | requestToken {assertion} :
    Before app d [⟨.lookup, none⟩, ⟨.sign, .ok assertion⟩] (.requestToken assertion)
  | expiry {assertion reply token} (hsuccess : reply.isSuccess = true)
    (hjson : reply.json = .ok token) :
    Before app d [⟨.lookup, none⟩, ⟨.sign, .ok assertion⟩, ⟨.requestToken assertion, .ok reply⟩]
      (.expiry token.expiresIn)
  | store {assertion reply token expires} (hsuccess : reply.isSuccess = true)
    (hjson : reply.json = .ok token) :
    Before app d [⟨.lookup, none⟩, ⟨.sign, .ok assertion⟩, ⟨.requestToken assertion, .ok reply⟩,
      ⟨.expiry token.expiresIn, some expires⟩] (.store ⟨token.accessToken, expires⟩)
  | sendNew {assertion reply token expires} (hsuccess : reply.isSuccess = true)
    (hjson : reply.json = .ok token) :
    Before app d [⟨.lookup, none⟩, ⟨.sign, .ok assertion⟩, ⟨.requestToken assertion, .ok reply⟩,
      ⟨.expiry token.expiresIn, some expires⟩, ⟨.store ⟨token.accessToken, expires⟩, ()⟩]
      (.send token.accessToken (app.message d.n d.device))
  | sendCached {bearer} :
    Before app d [⟨.lookup, some bearer⟩] (.send bearer (app.message d.n d.device))

/-- Every step of a delivery comes after these. -/
theorem always_before_deliver (crates : TokenCrates) (app : FcmApp) (d : Delivery) :
    (deliver crates app d.n d.device).Always fun t e => Before app d t e.1 := by
  unfold deliver accessToken
  simp only [Prog.perform_bind, Prog.call_bind, Prog.always_call]
  rintro (_ | bearer)
  · refine ⟨.lookup, ?_⟩
    simp only [Prog.call_bind, Prog.always_call]
    rintro (e | assertion)
    · exact ⟨.sign, Prog.always_pure⟩
    refine ⟨.sign, ?_⟩
    simp only [Prog.call_bind, Prog.always_call]
    rintro (e | reply)
    · exact ⟨.requestToken, Prog.always_pure⟩
    refine ⟨.requestToken, ?_⟩
    dsimp only
    split
    next => exact Prog.always_pure
    next hsuccess =>
      have hsuccess : reply.isSuccess = true := by simpa using hsuccess
      cases hjson : reply.json with
      | error e => exact Prog.always_pure
      | ok token =>
        simp only [Prog.call_bind, Prog.always_call]
        rintro (_ | expires)
        · exact ⟨.expiry hsuccess hjson, Prog.always_pure⟩
        refine ⟨.expiry hsuccess hjson, ?_⟩
        simp only [Prog.call_bind, Prog.always_call]
        intro u
        refine ⟨.store hsuccess hjson, ?_⟩
        intro response
        exact ⟨.sendNew hsuccess hjson, Prog.always_pure⟩
  · refine ⟨.lookup, ?_⟩
    intro response
    exact ⟨.sendCached, Prog.always_pure⟩

/-! ### The log -/

/-- A logged step comes after these. -/
theorem before_of_log (h : (machine B).Reachable s) (hlog : s.log = pre ++ r :: post) :
    Before B.app r.request (Machine.trace r.call 0 pre) r.event.1 :=
  h.always_single (fun _ => rfl) (P := fun d t e => Before B.app d t e.1)
    (fun d => always_before_deliver B.crates B.app d) hlog

/-- The cache holds the token that was stored last. No answer of FCM changes it. -/
theorem cache_eq (h : (machine B).Reachable s) : s.shared = Log.lastStored stored? s.log := by
  have hfold : s.shared = s.log.foldl (fun x r => (stored? r).or x) none := by
    refine h.shared_eq_foldl ?_
    intro d now c input x res x' i b hexec
    change exec B now x c input = _ at hexec
    cases c <;> cases input <;> cases hexec <;> rfl
  rw [hfold, Log.foldl_slot, Option.or_none]

/-- What a look at the cache finds: the token that was stored last, if it is fresh. -/
theorem lookup_of_log (h : (machine B).Reachable s) (hlog : s.log = pre ++ r :: post)
    {found : Option String} (hr : r.event = ⟨.lookup, found⟩) :
    found = ((Log.lastStored stored? pre).filter
      fun t => r.time + tokenRefreshMargin < t.expires).map CachedToken.bearer := by
  obtain ⟨s₀, call, input, f, shared, hs₀, rfl, -, -, -, hexec⟩ := h.exists_perform hlog
  rw [← cache_eq hs₀]
  change exec B r.time s₀.shared r.event.1 input = _ at hexec
  rw [hr] at hexec
  cases input with
  | none => exact (congrArg Prod.fst (Option.some_inj.mp hexec)).symm
  | _ => cases hexec

/-- An expiry counts from the reading of the clock. -/
theorem expiry_of_log (h : (machine B).Reachable s) (hlog : s.log = pre ++ r :: post)
    {expiresIn : UInt64} {expires : Instant} (hr : r.event = ⟨.expiry expiresIn, some expires⟩) :
    expires = r.time + fromSecs expiresIn.toNat := by
  obtain ⟨s₀, call, input, f, shared, -, -, -, -, -, hexec⟩ := h.exists_perform hlog
  change exec B r.time s₀.shared r.event.1 input = _ at hexec
  rw [hr] at hexec
  cases input with
  | none =>
    simp only [exec, Instant.checkedAdd, Option.some.injEq, Prod.mk.injEq,
      Option.ite_none_right_eq_some] at hexec
    exact hexec.1.2.symm
  | _ => cases hexec

/-! ### Where a token comes from -/

/-- The token endpoint has granted the token to the call, and its lifetime counts from a reading of
the clock by that call. -/
def Granted (log : List Step) (i : ℕ) (t : CachedToken) : Prop :=
  ∃ assertion reply token r₁ r₂, r₁ ∈ log ∧ r₁.call = i ∧
    r₁.event = ⟨.requestToken assertion, .ok reply⟩ ∧ reply.isSuccess = true ∧
    reply.json = .ok token ∧ token.accessToken = t.bearer ∧
    r₂ ∈ log ∧ r₂.call = i ∧ t.expires = r₂.time + fromSecs token.expiresIn.toNat

/-- What the steps of a call have to say for that. -/
theorem granted_of_trace (h : (machine B).Reachable s) (hlog : s.log = pre ++ post)
    {assertion : String} {reply : TokenReply} {token : TokenResponse} {expires : Instant}
    {after : List (Event Cmd Cmd.Res)}
    (htrace : Machine.trace i 0 pre = ⟨.lookup, none⟩ :: ⟨.sign, .ok assertion⟩ ::
      ⟨.requestToken assertion, .ok reply⟩ :: ⟨.expiry token.expiresIn, some expires⟩ :: after)
    (hsuccess : reply.isSuccess = true) (hjson : reply.json = .ok token) :
    Granted pre i ⟨token.accessToken, expires⟩ := by
  obtain ⟨r₁, hr₁, hcall₁, -, hevent₁⟩ := Machine.mem_trace.mp
    (show ⟨.requestToken assertion, .ok reply⟩ ∈ Machine.trace i 0 pre by simp [htrace])
  obtain ⟨r₂, hr₂, hcall₂, -, hevent₂⟩ := Machine.mem_trace.mp
    (show ⟨.expiry token.expiresIn, some expires⟩ ∈ Machine.trace i 0 pre by simp [htrace])
  obtain ⟨pre', post', rfl⟩ := List.append_of_mem hr₂
  have hlog' : s.log = pre' ++ r₂ :: (post' ++ post) := by simp [hlog]
  have hcount := expiry_of_log h hlog' hevent₂
  exact ⟨assertion, reply, token, r₁, r₂, hr₁, hcall₁, hevent₁, hsuccess, hjson, rfl, hr₂, hcall₂,
    hcount⟩

/-- A token is stored by the call that it was granted to. -/
theorem granted_of_store (h : (machine B).Reachable s) (hlog : s.log = pre ++ r :: post)
    (hstore : r.event.1 = .store t) : Granted pre r.call t := by
  have hbefore := before_of_log h hlog
  rw [hstore] at hbefore
  generalize htrace : Machine.trace r.call 0 pre = trace at hbefore
  cases hbefore with
  | store hsuccess hjson =>
    exact granted_of_trace h hlog htrace hsuccess hjson

/-- What the cache held before a step, was stored by the call that it was granted to. -/
theorem exists_store (h : (machine B).Reachable s) (hlog : s.log = pre ++ post)
    (hlast : Log.lastStored stored? pre = some t) :
    ∃ pre' g mid, pre = pre' ++ g :: mid ∧ g.event.1 = .store t ∧ Granted pre' g.call t ∧
      ∀ r ∈ mid, stored? r = none := by
  obtain ⟨pre', g, mid, rfl, hg, hmid⟩ := Log.lastStored_eq_some_iff.mp hlast
  have hstore := stored?_eq_some_iff.mp hg
  exact ⟨pre', g, mid, rfl, hstore, granted_of_store h (by simpa using hlog) hstore, hmid⟩

/-- The call found the token in the cache when it looked, and the token was fresh then. -/
def Found (log : List Step) (i : ℕ) (t : CachedToken) : Prop :=
  ∃ pre g mid l post, log = pre ++ g :: mid ++ l :: post ∧ g.event.1 = .store t ∧
    Granted pre g.call t ∧ (∀ r ∈ mid, stored? r = none) ∧ l.call = i ∧
    l.event = ⟨.lookup, some t.bearer⟩ ∧ l.time + tokenRefreshMargin < t.expires

/-- In every run, a request to FCM is the message for its device, and carries a token that the token
endpoint has granted: to its own call, or to the call that stored it last before this one looked,
and then it was fresh. -/
theorem send_fresh (h : (machine B).Reachable s) (hlog : s.log = pre ++ r :: post)
    {bearer : String} {message : Message} (hsend : r.event.1 = .send bearer message) :
    message = B.app.message r.request.n r.request.device ∧
      ∃ t, t.bearer = bearer ∧ (Granted pre r.call t ∨ Found pre r.call t) := by
  have hbefore := before_of_log h hlog
  rw [hsend] at hbefore
  generalize htrace : Machine.trace r.call 0 pre = trace at hbefore
  cases hbefore with
  | @sendNew assertion reply token expires hsuccess hjson =>
    refine ⟨rfl, ⟨token.accessToken, expires⟩, rfl, Or.inl ?_⟩
    exact granted_of_trace h hlog htrace hsuccess hjson
  | sendCached =>
    refine ⟨rfl, ?_⟩
    -- the look at the cache, and what was stored before it
    obtain ⟨l, hl, hcall, -, hevent⟩ := Machine.mem_trace.mp
      (show ⟨.lookup, some bearer⟩ ∈ Machine.trace r.call 0 pre by rw [htrace]; simp)
    obtain ⟨pre', post', rfl⟩ := List.append_of_mem hl
    have hlog' : s.log = pre' ++ l :: (post' ++ r :: post) := by simpa using hlog
    have hfound := lookup_of_log h hlog' hevent
    obtain ⟨t, ht, hbearer⟩ := Option.map_eq_some_iff.mp hfound.symm
    obtain ⟨hlast, hfresh⟩ := Option.filter_eq_some_iff.mp ht
    obtain ⟨pre'', g, mid, rfl, hg, hgranted, hmid⟩ := exists_store h hlog' hlast
    refine ⟨t, hbearer, Or.inr ⟨pre'', g, mid, l, post', rfl, hg, hgranted, hmid, hcall, ?_, ?_⟩⟩
    · rw [hevent, hbearer]
    · simpa using hfresh

theorem send_fresh_twoDeliveries :
    ∃ s, (machine backend).run twoDeliveries = some s ∧
      ∃ t, t.bearer = "tok" ∧ (Granted (s.log.take 6) 1 t ∨ Found (s.log.take 6) 1 t) := by
  have hsome : ((machine backend).run twoDeliveries).isSome = true := by rfl
  have hget : (((machine backend).run twoDeliveries).get hsome).log[6]? =
      some ⟨badge, 1, 0, fromSecs 10, ⟨.send "tok" (backend.app.message badge.n badge.device),
        .ok ⟨404, .ok "UNREGISTERED"⟩⟩⟩ := by rfl
  exact ⟨_, (Option.some_get hsome).symm,
    (send_fresh (Machine.reachable_get hsome) (Machine.eq_append_of_getElem? hget) rfl).2⟩

/-! ### When a new token is asked for -/

/-- The cache holds the token after the log, and it is fresh at that time. -/
def Fresh (log : List Step) (now : Instant) (t : CachedToken) : Prop :=
  Log.lastStored stored? log = some t ∧ now + tokenRefreshMargin < t.expires

/-- The other steps of a call come after its look at the cache, and what that found is in its
trace. -/
theorem lookup_mem_trace (h : (machine B).Reachable s) {l : Step} {mid : List Step}
    (hlog : s.log = pre ++ l :: (mid ++ r :: post)) (hl : l.event.1 = .lookup)
    (hcall : r.call = l.call) :
    ∃ found, ⟨.lookup, found⟩ ∈ Machine.trace r.call 0 (pre ++ l :: mid) ∧
      found = ((Log.lastStored stored? pre).filter
        fun t => l.time + tokenRefreshMargin < t.expires).map CachedToken.bearer := by
  obtain ⟨req, j, b, now, ⟨c, found⟩⟩ := l
  obtain rfl : c = .lookup := hl
  refine ⟨found, ?_, lookup_of_log h hlog rfl⟩
  have hprefix : pre ++ ⟨req, j, b, now, ⟨.lookup, found⟩⟩ :: mid <+: s.log :=
    ⟨r :: post, by simp [hlog]⟩
  exact (h.mem_trace_single (fun _ => rfl) hprefix.subset).mpr ⟨_, by simp, hcall.symm, rfl⟩

/-- In every run, a delivery that looks while the token that was stored last is fresh does nothing
more than to send its request with this token: it neither signs nor asks the token endpoint. One
that looks at any other time sends only a token that was granted to itself. -/
theorem steps_of_lookup (h : (machine B).Reachable s) {l : Step} {mid : List Step}
    (hlog : s.log = pre ++ l :: (mid ++ r :: post)) (hl : l.event.1 = .lookup)
    (hcall : r.call = l.call) :
    (∀ t, Fresh pre l.time t →
      r.event.1 = .send t.bearer (B.app.message r.request.n r.request.device)) ∧
    ((∀ t, ¬ Fresh pre l.time t) → ∀ bearer message, r.event.1 = .send bearer message →
      ∃ t, t.bearer = bearer ∧ Granted (pre ++ l :: mid) r.call t) := by
  obtain ⟨found, hmem, hfound⟩ := lookup_mem_trace h hlog hl hcall
  have hlog' : s.log = (pre ++ l :: mid) ++ r :: post := by simp [hlog]
  have hbefore := before_of_log h hlog'
  constructor
  · rintro t ⟨hlast, hfresh⟩
    -- the call has found the token, and every step but one comes after finding none
    obtain rfl : found = some t.bearer := by simp [hfound, hlast, Option.filter, hfresh]
    generalize Machine.trace r.call 0 (pre ++ l :: mid) = trace at hbefore hmem
    generalize r.event.1 = c at hbefore
    cases hbefore with
    | @sendCached bearer =>
      obtain rfl : t.bearer = bearer := by simpa using hmem
      rfl
    | _ => simp at hmem
  · intro hstale bearer message hsend
    -- the call has found nothing
    obtain rfl : found = none := by
      rw [hfound, Option.map_eq_none_iff, Option.filter_eq_none_iff]
      intro t ht hfresh
      exact hstale t ⟨ht, of_decide_eq_true hfresh⟩
    rw [hsend] at hbefore
    generalize htrace : Machine.trace r.call 0 (pre ++ l :: mid) = trace at hbefore hmem
    cases hbefore with
    | @sendNew assertion reply token expires hsuccess hjson =>
      exact ⟨⟨token.accessToken, expires⟩, rfl, granted_of_trace h hlog' htrace hsuccess hjson⟩
    | sendCached => simp at hmem

theorem steps_of_lookup_twoDeliveries :
    ∃ s, (machine backend).run twoDeliveries = some s ∧ ∃ r, s.log[6]? = some r ∧
      r.event.1 = .send "tok" (backend.app.message badge.n badge.device) := by
  have hsome : ((machine backend).run twoDeliveries).isSome = true := by rfl
  have hlog : (((machine backend).run twoDeliveries).get hsome).log =
      (((machine backend).run twoDeliveries).get hsome).log.take 5 ++
        ⟨badge, 1, 0, fromSecs 10, ⟨.lookup, some "tok"⟩⟩ :: ([] ++
          ⟨badge, 1, 0, fromSecs 10, ⟨.send "tok" (backend.app.message badge.n badge.device),
            .ok ⟨404, .ok "UNREGISTERED"⟩⟩⟩ :: []) := by rfl
  refine ⟨_, (Option.some_get hsome).symm, _, rfl, ?_⟩
  exact (steps_of_lookup (Machine.reachable_get hsome) hlog rfl rfl).1
    ⟨"tok", fromSecs 3600⟩ ⟨rfl, by decide⟩

/-! ### What a delivery returns -/

/-- The step is a request to FCM that has ended with this response. -/
def EndsWith (resp : Response) (e : Event Cmd Cmd.Res) : Prop :=
  ∃ bearer message, e = ⟨.send bearer message, .ok resp⟩

/-- The step computes an expiry that no `Instant` can hold. -/
def Overflows (e : Event Cmd Cmd.Res) : Prop := ∃ expiresIn, e = ⟨.expiry expiresIn, none⟩

/-- What a delivery has done when it returns: it got no token and fails transiently, it panicked at
the expiry, or it sent its request and returns what the one-step delivery makes of the response. -/
inductive Done (crates : TokenCrates) (app : FcmApp) (d : Delivery) :
    List (Event Cmd Cmd.Res) → Option Outcome → Prop
  | failed {trace error} (hsent : ∀ resp, ∀ e ∈ trace, ¬ EndsWith resp e)
    (hexpiry : ∀ e ∈ trace, ¬ Overflows e) : Done crates app d trace (some (.transient error))
  | panicked {before expiresIn} (hsent : ∀ resp, ∀ e ∈ before, ¬ EndsWith resp e)
    (hexpiry : ∀ e ∈ before, ¬ Overflows e) :
    Done crates app d (before ++ [⟨.expiry expiresIn, none⟩]) none
  | sent {before bearer response} (hsent : ∀ resp, ∀ e ∈ before, ¬ EndsWith resp e)
    (hexpiry : ∀ e ∈ before, ¬ Overflows e) :
    Done crates app d (before ++ [⟨.send bearer (app.message d.n d.device), response⟩])
      (some (FcmApp.deliver ⟨.ok bearer, .ok (), .ok [], response⟩))

theorem done_of_returns {crates : TokenCrates} {app : FcmApp} {trace : List (Event Cmd Cmd.Res)}
    {o : Option Outcome} (h : (deliver crates app d.n d.device).Returns trace o) :
    Done crates app d trace o := by
  unfold deliver accessToken at h
  simp only [Prog.perform_bind, Prog.call_bind, Prog.returns_call_iff] at h
  obtain ⟨_ | bearer, t₁, rfl, h⟩ := h
  · simp only [Prog.call_bind, Prog.returns_call_iff] at h
    obtain ⟨e | assertion, t₂, rfl, h⟩ := h
    · obtain ⟨rfl, rfl⟩ := Prog.returns_pure_iff.mp h
      exact .failed (by simp [EndsWith]) (by simp [Overflows])
    simp only [Prog.call_bind, Prog.returns_call_iff] at h
    obtain ⟨e | reply, t₃, rfl, h⟩ := h
    · obtain ⟨rfl, rfl⟩ := Prog.returns_pure_iff.mp h
      exact .failed (by simp [EndsWith]) (by simp [Overflows])
    dsimp only at h
    split at h
    next =>
      obtain ⟨rfl, rfl⟩ := Prog.returns_pure_iff.mp h
      exact .failed (by simp [EndsWith]) (by simp [Overflows])
    next =>
      cases hjson : reply.json with
      | error e =>
        rw [hjson] at h
        obtain ⟨rfl, rfl⟩ := Prog.returns_pure_iff.mp h
        exact .failed (by simp [EndsWith]) (by simp [Overflows])
      | ok token =>
        rw [hjson] at h
        simp only [Prog.call_bind, Prog.returns_call_iff] at h
        obtain ⟨_ | expires, t₄, rfl, h⟩ := h
        · obtain ⟨rfl, rfl⟩ := Prog.returns_pure_iff.mp h
          show Done crates app d ([_, _, _] ++ [_]) none
          exact .panicked (by simp [EndsWith]) (by simp [Overflows])
        simp only [Prog.call_bind, Prog.returns_call_iff] at h
        obtain ⟨u, t₅, rfl, h⟩ := h
        simp only [Prog.pure_bind, Prog.returns_call_iff] at h
        obtain ⟨response, t₆, rfl, h⟩ := h
        obtain ⟨rfl, rfl⟩ := Prog.returns_pure_iff.mp h
        show Done crates app d ([_, _, _, _, _] ++ [_]) _
        exact .sent (by simp [EndsWith]) (by simp [Overflows])
  · simp only [Prog.pure_bind, Prog.returns_call_iff] at h
    obtain ⟨response, t₂, rfl, h⟩ := h
    obtain ⟨rfl, rfl⟩ := Prog.returns_pure_iff.mp h
    show Done crates app d ([_] ++ [_]) _
    exact .sent (by simp [EndsWith]) (by simp [Overflows])

/-- A request of the call has ended with this response: that of FCM, or of the last host that
redirects have led to. -/
def Answered (log : List Step) (i : ℕ) (resp : Response) : Prop :=
  ∃ r ∈ log, r.call = i ∧ EndsWith resp r.event

/-- The expiry of a token that the call was granted is beyond what an `Instant` can hold. -/
def Overflowed (log : List Step) (i : ℕ) : Prop := ∃ r ∈ log, r.call = i ∧ Overflows r.event

/-- In every run, a delivery that has finished was accepted exactly when its own request ended with
a success, and is rejected exactly when it ended with 404 and `UNREGISTERED`; whatever happens
before the request is sent makes it neither. It panics exactly when no `Instant` can hold the expiry
of the token that it was granted. -/
theorem results_iff (h : (machine B).Reachable s) {call : Machine.Call Delivery Cmd Cmd.Res _}
    (hcall : s.calls[i]? = some call) {o : Option Outcome} (hresults : call.results = some [o]) :
    (o = some .delivered ↔ ∃ resp, Answered s.log i resp ∧ resp.isSuccess = true) ∧
      (o = some .rejected ↔ ∃ resp, Answered s.log i resp ∧ resp.status = 404 ∧
        contains resp.text "UNREGISTERED" = true) ∧
      (o = none ↔ Overflowed s.log i) := by
  have hdone := done_of_returns (h.returns_of_results hcall rfl hresults)
  have hanswered : ∀ resp, Answered s.log i resp ↔
      ∃ e ∈ Machine.trace i 0 s.log, EndsWith resp e :=
    fun resp => h.exists_event_iff fun _ => rfl
  have hoverflowed : Overflowed s.log i ↔ ∃ e ∈ Machine.trace i 0 s.log, Overflows e :=
    h.exists_event_iff fun _ => rfl
  simp only [hanswered, hoverflowed]
  generalize Machine.trace i 0 s.log = trace at hdone
  cases hdone with
  | failed hsent hexpiry =>
    have hnone : ∀ resp, ¬ ∃ e ∈ trace, EndsWith resp e :=
      fun resp ⟨e, he, hend⟩ => hsent resp e he hend
    have hnever : ¬ ∃ e ∈ trace, Overflows e := fun ⟨e, he, hover⟩ => hexpiry e he hover
    simp only [hnone, hnever]
    simp
  | panicked hsent hexpiry =>
    simp only [History.exists_mem_concat_iff (hsent _), History.exists_mem_concat_iff hexpiry]
    simp [EndsWith, Overflows]
  | sent hsent hexpiry =>
    simp only [History.exists_mem_concat_iff (hsent _), History.exists_mem_concat_iff hexpiry]
    simp [EndsWith, Overflows, Provider.fcm_deliver_eq_delivered_iff,
      Provider.fcm_deliver_eq_rejected_iff]

theorem results_iff_twoDeliveries :
    ∃ s call, (machine backend).run twoDeliveries = some s ∧ s.calls[1]? = some call ∧
      (some Outcome.rejected = some .rejected ↔ ∃ resp, Answered s.log 1 resp ∧
        resp.status = 404 ∧ contains resp.text "UNREGISTERED" = true) := by
  have hsome : ((machine backend).run twoDeliveries).isSome = true := by rfl
  have hcall : (((machine backend).run twoDeliveries).get hsome).calls[1]? =
      some ⟨badge, [pure (some .rejected)]⟩ := by rfl
  exact ⟨_, _, (Option.some_get hsome).symm, hcall,
    (results_iff (Machine.reachable_get hsome) hcall rfl).2.1⟩

end Pincerbell.FcmToken
