import Mathlib.Data.List.Infix
import Pincerbell.WebPush

/-!
# Delivery backends

The delivery functions of `provider.rs`, `fcm.rs`, `apns.rs` and `webpush.rs`: what the answer of a
push service means for the pusher. What a backend gets from outside while it delivers is one
`Answers`, and `deliver` is a function of it.

* `FcmApp.deliver`, `ApnsApp.deliver`, `WebPushApp.deliver`, `Provider.deliver` — the outcome.
* `Definitive` — the push service has said that the pushkey is gone.
* `deliver_eq_rejected_iff` — a delivery is rejected exactly on a definitive answer.
-/

namespace Pincerbell

/-- A response of a push service. Reading its body can fail. -/
structure Response where
  status : ℕ
  body : Except String String

namespace Response

/-- `StatusCode::is_success`. -/
def isSuccess (r : Response) : Bool := 200 ≤ r.status && r.status < 300

/-- `StatusCode::is_server_error`. -/
def isServerError (r : Response) : Bool := 500 ≤ r.status && r.status < 600

/-- `resp.text().await.unwrap_or_default()`. -/
def text (r : Response) : String :=
  match r.body with
  | .ok body => body
  | .error _ => ""

/-- The status as it is displayed, with the reason phrase of the codes that are. -/
def displayStatus (r : Response) : String :=
  match r.status with
  | 401 => "401 Unauthorized"
  | 403 => "403 Forbidden"
  | 408 => "408 Request Timeout"
  | 429 => "429 Too Many Requests"
  | status => toString status

end Response

/-- `str::contains`. -/
def contains (s needle : String) : Bool := decide (needle.toList <:+: s.toList)

/-- What a backend learns from outside during one delivery. -/
structure Answers where
  /-- Of `access_token`, `bearer_token` or `vapid_header`. -/
  credential : Except String String
  /-- Of the random number generator, for the salt. -/
  rng : Except String Unit
  /-- Of `encrypt`. -/
  encrypted : Except String (List UInt8)
  /-- What the request ends with: the response of the push service, or of the last host that
  redirects lead to. -/
  response : Except String Response

/-- What became of one device's delivery. -/
inductive Outcome
  | delivered
  /-- The pushkey is permanently invalid. -/
  | rejected
  /-- Permanent failure that is not the pushkey's fault. -/
  | skipped
  | transient (error : String)
  deriving DecidableEq, Repr

namespace FcmApp

def deliver (answers : Answers) : Outcome :=
  match answers.credential with
  | .error e => .transient e
  | .ok _ =>
    match answers.response with
    | .error e => .transient ("fcm: " ++ e)
    | .ok resp =>
      if resp.isSuccess then .delivered
      -- only UNREGISTERED justifies a rejection, which makes the homeserver delete the pusher
      else if resp.status = 404 ∧ contains resp.text "UNREGISTERED" then .rejected
      else if resp.status ∈ [401, 403, 408, 429] then
        .transient ("fcm: HTTP " ++ resp.displayStatus)
      else if resp.isServerError then .transient ("fcm: HTTP " ++ toString resp.status)
      else .skipped

end FcmApp

namespace ApnsApp

def deliver (answers : Answers) : Outcome :=
  match answers.credential with
  | .error e => .transient e
  | .ok _ =>
    match answers.response with
    | .error e => .transient ("apns: " ++ e)
    | .ok resp =>
      if resp.isSuccess then .delivered
      -- BadDeviceToken in particular is not a rejection
      else if resp.status = 410 ∧ contains resp.text "Unregistered" then .rejected
      else if resp.status = 403 then .transient ("apns: HTTP 403 " ++ resp.text)
      else if resp.status ∈ [408, 429] then .transient ("apns: HTTP " ++ resp.displayStatus)
      else if resp.isServerError then .transient ("apns: HTTP " ++ toString resp.status)
      else .skipped

end ApnsApp

namespace WebPushApp

def deliver (crates : Crates) (app : WebPushApp) (device : Device) (answers : Answers) : Outcome :=
  match subscription crates device with
  | .error _ => .skipped
  | .ok sub =>
    match endpointAllowed sub.endpoint app.allowedEndpoints with
    | .error _ => .skipped
    | .ok _ =>
      match answers.rng with
      | .error e => .transient ("webpush: rng: " ++ e)
      | .ok _ =>
        match answers.encrypted with
        | .error e => .transient ("webpush: " ++ e)
        | .ok _ =>
          match answers.credential with
          | .error e => .transient ("webpush: " ++ e)
          | .ok _ =>
            match answers.response with
            | .error e => .transient ("webpush: " ++ e)
            | .ok resp =>
              if resp.isSuccess then .delivered
              else if resp.status = 404 ∨ resp.status = 410 then .rejected
              else if resp.status ∈ [401, 403, 408, 429] then
                .transient ("webpush: HTTP " ++ resp.displayStatus)
              else if resp.isServerError then
                .transient ("webpush: HTTP " ++ toString resp.status)
              else .skipped

end WebPushApp

/-- One constructed delivery backend per configured app. -/
inductive Provider
  | log
  | fcm
  | apns
  | webpush (app : WebPushApp)
  deriving DecidableEq, Repr

namespace Provider

/-- Deliver to one device. -/
def deliver (crates : Crates) (provider : Provider) (device : Device) (answers : Answers) :
    Outcome :=
  match provider with
  | log => .delivered
  | fcm => FcmApp.deliver answers
  | apns => ApnsApp.deliver answers
  | webpush app => app.deliver crates device answers

/-- The push service was asked and said that the pushkey is gone: FCM with 404 and `UNREGISTERED`,
APNs with 410 and `Unregistered`, a Web Push service with 404 or 410 for a well-formed subscription
whose endpoint is allowed. -/
def Definitive (crates : Crates) (provider : Provider) (device : Device) (answers : Answers) :
    Prop :=
  match provider with
  | log => False
  | fcm =>
    ∃ token resp, answers.credential = .ok token ∧ answers.response = .ok resp ∧
      resp.status = 404 ∧ contains resp.text "UNREGISTERED"
  | apns =>
    ∃ token resp, answers.credential = .ok token ∧ answers.response = .ok resp ∧
      resp.status = 410 ∧ contains resp.text "Unregistered"
  | webpush app =>
    ∃ sub u body header resp, subscription crates device = .ok sub ∧
      endpointAllowed sub.endpoint app.allowedEndpoints = .ok () ∧ answers.rng = .ok u ∧
      answers.encrypted = .ok body ∧ answers.credential = .ok header ∧
      answers.response = .ok resp ∧ (resp.status = 404 ∨ resp.status = 410)

variable {crates : Crates} {device : Device} {answers : Answers}

/-! The shape that the three backends share: a success, one verdict that is a rejection, and the
rest. -/

section Verdict

variable {success gone : Prop} [Decidable success] [Decidable gone] {rest : Outcome}

theorem ite_eq_delivered_iff (hrest : rest ≠ .delivered) :
    (if success then .delivered else if gone then .rejected else rest) = Outcome.delivered ↔
      success := by
  by_cases hsuccess : success
  · simp [hsuccess]
  · by_cases hgone : gone <;> simp [hsuccess, hgone, hrest]

theorem ite_eq_rejected_iff (hne : gone → ¬ success) (hrest : rest ≠ .rejected) :
    (if success then .delivered else if gone then .rejected else rest) = Outcome.rejected ↔
      gone := by
  by_cases hgone : gone
  · simp [hgone, hne hgone]
  · by_cases hsuccess : success <;> simp [hgone, hsuccess, hrest]

end Verdict

/-- A client error is no success. -/
theorem not_isSuccess {resp : Response} (h : 400 ≤ resp.status) : ¬ resp.isSuccess = true := by
  simp only [Response.isSuccess, Bool.and_eq_true, decide_eq_true_eq]
  omega

theorem fcm_deliver_eq_delivered_iff :
    FcmApp.deliver answers = .delivered ↔ ∃ token resp, answers.credential = .ok token ∧
      answers.response = .ok resp ∧ resp.isSuccess = true := by
  unfold FcmApp.deliver
  cases answers.credential with
  | error e => simp
  | ok token =>
    cases answers.response with
    | error e => simp
    | ok resp =>
      refine (ite_eq_delivered_iff ?_).trans ?_
      · split_ifs <;> simp
      · simp

theorem fcm_deliver_eq_rejected_iff :
    FcmApp.deliver answers = .rejected ↔ ∃ token resp, answers.credential = .ok token ∧
      answers.response = .ok resp ∧ resp.status = 404 ∧ contains resp.text "UNREGISTERED" := by
  unfold FcmApp.deliver
  cases answers.credential with
  | error e => simp
  | ok token =>
    cases answers.response with
    | error e => simp
    | ok resp =>
      refine (ite_eq_rejected_iff ?_ ?_).trans ?_
      · exact fun hgone => not_isSuccess (by omega)
      · split_ifs <;> simp
      · simp

theorem apns_deliver_eq_delivered_iff :
    ApnsApp.deliver answers = .delivered ↔ ∃ token resp, answers.credential = .ok token ∧
      answers.response = .ok resp ∧ resp.isSuccess = true := by
  unfold ApnsApp.deliver
  cases answers.credential with
  | error e => simp
  | ok token =>
    cases answers.response with
    | error e => simp
    | ok resp =>
      refine (ite_eq_delivered_iff ?_).trans ?_
      · split_ifs <;> simp
      · simp

theorem apns_deliver_eq_rejected_iff :
    ApnsApp.deliver answers = .rejected ↔ ∃ token resp, answers.credential = .ok token ∧
      answers.response = .ok resp ∧ resp.status = 410 ∧ contains resp.text "Unregistered" := by
  unfold ApnsApp.deliver
  cases answers.credential with
  | error e => simp
  | ok token =>
    cases answers.response with
    | error e => simp
    | ok resp =>
      refine (ite_eq_rejected_iff ?_ ?_).trans ?_
      · exact fun hgone => not_isSuccess (by omega)
      · split_ifs <;> simp
      · simp

theorem webpush_deliver_eq_rejected_iff {app : WebPushApp} :
    app.deliver crates device answers = .rejected ↔
      Definitive crates (.webpush app) device answers := by
  unfold WebPushApp.deliver Definitive
  -- in the order of the code, whatever can end the delivery before there is an answer
  cases subscription crates device with
  | error e => simp
  | ok sub =>
    dsimp only
    cases hallowed : endpointAllowed sub.endpoint app.allowedEndpoints with
    | error e => simp [hallowed]
    | ok u =>
      dsimp only
      cases answers.rng with
      | error e => simp
      | ok u =>
        cases answers.encrypted with
        | error e => simp
        | ok body =>
          cases answers.credential with
          | error e => simp
          | ok header =>
            cases answers.response with
            | error e => simp
            | ok resp =>
              refine (ite_eq_rejected_iff ?_ ?_).trans ?_
              · exact fun hgone => not_isSuccess (by omega)
              · split_ifs <;> simp
              · simp [hallowed]

/-- A delivery is rejected exactly when the push service has answered definitively. -/
theorem deliver_eq_rejected_iff (provider : Provider) :
    provider.deliver crates device answers = .rejected ↔
      Definitive crates provider device answers := by
  cases provider with
  | log => simp [deliver, Definitive]
  | fcm => exact fcm_deliver_eq_rejected_iff
  | apns => exact apns_deliver_eq_rejected_iff
  | webpush app => exact webpush_deliver_eq_rejected_iff

end Provider

end Pincerbell
