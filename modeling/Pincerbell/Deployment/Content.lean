import Pincerbell.Deployment.Http
import Pincerbell.Support.TwoRuns

/-!
# Event content stays inside

Two runs of a network that differ in the content of the notifications they are asked to deliver. The
push services, and everything else outside, behave as a function of what they are sent, so that
whatever depends on the content would show in a message, in a response or behind a lock.

The content is parsed with the rest of a request body, although nothing is done with it. So it does
decide whether the body can be read at all: a request whose content nests too deep is refused. Where
the bodies of both runs are read, the content makes no difference.

* `Provider.built`, `Provider.sent` — the message of a delivery.
* `Service`, `Network.served` — the network together with what is outside of it.
* `reachable_of_served` — its runs are runs of the network.
* `SameButContent`, `SameBody`, `SameArrival` — what the two runs may differ in;
  `sameButContent_of_agreeBut` relates the notifications to the bodies that they are read from.
* `dispatch_alike` — what requests with such bodies lead to.
* `SameOutside` — the runs have shown the same to everyone outside.
* `content_indifferent` — everything that leaves the gateway is the same in both runs.
* `not_content_indifferent` — a request with deep content is refused.
-/

namespace Pincerbell

open Deployment (Side trio event)

/-! ### Messages -/

/-- The settings of the backends, by app. -/
structure Backends where
  fcm : String → FcmApp
  apns : String → ApnsApp

namespace Provider

variable (crates : Crates) (backends : Backends)

/-- The message that a backend builds for a device. -/
def built (provider : Provider) (n : Notification) (device : Device) : Option Message :=
  match provider with
  | log => none
  | fcm => some ((backends.fcm device.appId).message n device)
  | apns => some ((backends.apns device.appId).message n device)
  | webpush app => app.message crates n device

/-- The message that a delivery sends, if it gets what it needs for that. -/
def sent (provider : Provider) (n : Notification) (device : Device) (answers : Answers) :
    Option Message :=
  match provider, answers.credential, answers.rng, answers.encrypted with
  | webpush app, .ok _, .ok _, .ok _ => built crates backends (webpush app) n device
  | webpush _, _, _, _ => none
  | provider, .ok _, _, _ => built crates backends provider n device
  | _, _, _, _ => none

end Provider

/-! ### The network and its surroundings -/

/-- What a push service, the source of randomness and the token endpoints answer to a delivery: a
function of where and when, of what has been sent so far, and of the message at hand. -/
abbrev Service (ι : Type) :=
  ι → Instant → WireInput → List (ι × Message) → Option Message → Answers

/-- The state of the network, with the messages that have left it for push services. -/
structure Surrounded (ι : Type) where
  traffic : Traffic ι
  messages : List (ι × Message)

namespace Network

variable {ι : Type} [DecidableEq ι] (N : Network ι) (backends : ι → Backends)
  (service : Service ι)

/-- The input of a step: a delivery gets what the service answers. -/
def inputOf (a : Arrival ι) (now : Instant) (input : WireInput) (s : Surrounded ι) :
    Cmd → WireInput
  | .deliver provider n device =>
    .answers <| service a.inst now input s.messages
      (provider.built N.base.crates (backends a.inst) n device)
  | _ => input

/-- The message that leaves with a step. -/
def leaving (a : Arrival ι) : Cmd → WireInput → List (ι × Message)
  | .deliver provider n device, .answers answers =>
    (provider.sent N.base.crates (backends a.inst) n device answers).toList.map fun m => (a.inst, m)
  | _, _ => []

/-- The network with the service around it. -/
def served : Machine (Arrival ι) (Surrounded ι) (Option ℕ × Cmd) (fun c => c.2.Res) WireInput
    Finished where
  init := ⟨N.machine.init, []⟩
  ready a s := N.machine.ready a s.traffic
  branches := N.machine.branches
  exec a now c input s :=
    let input := N.inputOf backends service a now input s c.2
    (N.machine.exec a now c input s.traffic).map fun x =>
      (x.1, ⟨x.2, s.messages ++ N.leaving backends a c.2 input⟩)

variable {N backends service}

/-- Its runs are runs of the network, with the inputs that the service gives. -/
theorem reachable_of_served
    {s : Machine.State (Arrival ι) (Surrounded ι) (Option ℕ × Cmd) (fun c => c.2.Res) Finished}
    (h : (N.served backends service).Reachable s) :
    N.machine.Reachable ⟨s.shared.traffic, s.calls, s.log⟩ := by
  induction h with
  | start => exact .start
  | arrive _ hready ih => exact ih.arrive hready
  | perform _ hcall hrest hexec ih =>
    obtain ⟨x, hx, heq⟩ := Option.map_eq_some_iff.mp hexec
    cases heq
    exact ih.perform hcall hrest hx

end Network

/-- What became of a device. -/
def Finished.disposition? : Finished → Option Disposition
  | device d => some d
  | _ => none

/-! ### What may differ -/

/-- The notifications are equal but for their content. -/
def SameButContent (n n' : Notification) : Prop := ∃ content, n' = { n with content }

/-- The values are structs with the same fields, but for the one with this name and place. -/
def Value.AgreeBut (arity : ℕ) (name : String) (place : ℕ) (v v' : Value) : Prop :=
  ∃ field field', v.structFields arity = some field ∧ v'.structFields arity = some field' ∧
    ∀ name' place', name' ≠ name → place' ≠ place → field name' place' = field' name' place'

/-- The bodies of notify requests hold notifications that are equal but for the value or the absence
of the field `content`. -/
def SameBody (v v' : Value) : Prop :=
  ∃ field field' w w', v.structFields 1 = some field ∧ v'.structFields 1 = some field' ∧
    field "notification" 0 = some w ∧ field' "notification" 0 = some w' ∧
    w.AgreeBut 12 "content" 1 w'

variable {n n' : Notification} {device : Device} {v v' w w' : Value}

theorem rel_bind {α β : Type} {R : β → β → Prop} {o o' : Option α} {f f' : α → Option β}
    (ho : o = o') (h : ∀ a, Option.Rel R (f a) (f' a)) :
    Option.Rel R (o.bind f) (o'.bind f') := by
  subst ho
  cases o with
  | none => exact .none
  | some a => exact h a

theorem rel_bind_of_eq_some {α β : Type} {R : β → β → Prop} {o o' : Option α} {f f' : α → Option β}
    {a a' : α} (ho : o = some a) (ho' : o' = some a') (h : Option.Rel R (f a) (f' a')) :
    Option.Rel R (o.bind f) (o'.bind f') := by
  subst ho ho'
  exact h

/-- Values that agree but for the field `content` decode alike. -/
theorem sameButContent_of_agreeBut (h : w.AgreeBut 12 "content" 1 w') :
    Option.Rel SameButContent (Notification.fromValue w) (Notification.fromValue w') := by
  obtain ⟨field, other, hw, hw', hsame⟩ := h
  -- any value of the field decodes
  have hcontent : ∀ x, ∃ content, Value.optionalField some x = some content := by
    rintro (_ | v)
    · exact ⟨none, rfl⟩
    · cases v <;> exact ⟨_, rfl⟩
  obtain ⟨content, hc⟩ := hcontent (field "content" 1)
  obtain ⟨content', hc'⟩ := hcontent (other "content" 1)
  have hfield : ∀ {β : Type} (f : Option Value → Option β) (name : String) (place : ℕ),
      name ≠ "content" → place ≠ 1 → f (field name place) = f (other name place) :=
    fun f name place hname hplace => congrArg f (hsame name place hname hplace)
  show Option.Rel _ (Option.bind (w.structFields 12) _) (Option.bind (w'.structFields 12) _)
  rw [hw, hw']
  show Option.Rel _
    (Option.bind ((field "devices" 0).bind (Value.decodeArray Device.fromValue)) _)
    (Option.bind ((other "devices" 0).bind (Value.decodeArray Device.fromValue)) _)
  refine rel_bind (by rw [hsame "devices" 0 (by decide) (by decide)]) fun devices => ?_
  -- whatever the content is, it is kept
  refine rel_bind_of_eq_some hc hc' ?_
  refine rel_bind (hfield _ "counts" 2 (by decide) (by decide)) fun counts => ?_
  refine rel_bind (hfield _ "event_id" 3 (by decide) (by decide)) fun eventId => ?_
  refine rel_bind (hfield _ "room_id" 4 (by decide) (by decide)) fun roomId => ?_
  refine rel_bind (hfield _ "type" 5 (by decide) (by decide)) fun eventType => ?_
  refine rel_bind (hfield _ "sender" 6 (by decide) (by decide)) fun sender => ?_
  refine rel_bind (hfield _ "sender_display_name" 7 (by decide) (by decide)) fun displayName => ?_
  refine rel_bind (hfield _ "room_name" 8 (by decide) (by decide)) fun roomName => ?_
  refine rel_bind (hfield _ "room_alias" 9 (by decide) (by decide)) fun roomAlias => ?_
  refine rel_bind (hfield _ "user_is_target" 10 (by decide) (by decide)) fun userIsTarget => ?_
  refine rel_bind (hfield _ "prio" 11 (by decide) (by decide)) fun prio => ?_
  exact .some ⟨content', rfl⟩

/-- So do the bodies that they are in. -/
theorem SameBody.rel (h : SameBody v v') :
    Option.Rel (fun r r' => SameButContent r.notification r'.notification)
      (NotifyRequest.fromValue v) (NotifyRequest.fromValue v') := by
  obtain ⟨field, other, w, w', hv, hv', hw, hw', hagree⟩ := h
  have hrel := sameButContent_of_agreeBut hagree
  show Option.Rel _ (Option.bind (v.structFields 1) _) (Option.bind (v'.structFields 1) _)
  rw [hv, hv']
  show Option.Rel _ (Option.bind ((field "notification" 0).bind Notification.fromValue) _)
    (Option.bind ((other "notification" 0).bind Notification.fromValue) _)
  rw [hw, hw', Option.bind_some, Option.bind_some]
  generalize Notification.fromValue w = o, Notification.fromValue w' = o' at hrel
  cases hrel with
  | some hsame => exact .some hsame
  | none => exact .none

/-- Arrivals that are equal, or notify requests whose bodies are read and are equal but for the
content of the notification. -/
inductive SameArrival {ι : Type} : Arrival ι → Arrival ι → Prop
  | refl (a : Arrival ι) : SameArrival a a
  | notify (inst : ι) (wakeups : ℕ) {req req' : HttpRequest} {v v' : Value}
    (hmethod : req.method = req'.method) (hpath : req.path = Endpoint.notify.path)
    (hpath' : req'.path = Endpoint.notify.path) (hbody : req.body = .ok v)
    (hbody' : req'.body = .ok v') (h : SameBody v v') :
    SameArrival (.http inst req wakeups) (.http inst req' wakeups)

/-- Commands that are equal but for the content of a notification. -/
inductive SameCmd : Cmd → Cmd → Prop
  | refl (c : Cmd) : SameCmd c c
  | deliver (provider : Provider) {n n' : Notification} (device : Device)
      (h : SameButContent n n') : SameCmd (.deliver provider n device) (.deliver provider n' device)
  | enqueue {n n' : Notification} (device : Device) (h : SameButContent n n') :
      SameCmd (.enqueue n device) (.enqueue n' device)

open Prog (Akin)

variable {crates : Crates} {state : AppState}

theorem SameButContent.suppressed_eq (h : SameButContent n n') :
    suppressed n device = suppressed n' device := by
  obtain ⟨content, rfl⟩ := h
  rfl

theorem SameButContent.recordSuccess_eq (h : SameButContent n n') :
    recordSuccess n device = recordSuccess n' device := by
  obtain ⟨content, rfl⟩ := h
  rfl

/-- The message of a delivery does not hold the content. -/
theorem SameButContent.built_eq {crates : Crates} {backends : Backends} (h : SameButContent n n')
    (provider : Provider) :
    provider.built crates backends n device = provider.built crates backends n' device := by
  obtain ⟨content, rfl⟩ := h
  cases provider <;> rfl

theorem SameButContent.sent_eq {crates : Crates} {backends : Backends} (h : SameButContent n n')
    (provider : Provider) (answers : Answers) :
    provider.sent crates backends n device answers =
      provider.sent crates backends n' device answers := by
  unfold Provider.sent
  simp only [h.built_eq]

theorem akin_queueOne (h : SameButContent n n') :
    Akin SameCmd (queueOne n device) (queueOne n' device) := by
  unfold queueOne
  rw [h.suppressed_eq, h.recordSuccess_eq]
  refine (Akin.refl .refl _).bind fun rejected => ?_
  split
  next => exact .pure _
  next =>
    refine (Akin.refl .refl _).bind fun duplicate => ?_
    split
    next => exact .pure _
    next =>
      refine .call (.enqueue device h) fun result result' heq => ?_
      obtain rfl := eq_of_heq heq
      exact Akin.refl .refl _

/-- The pipeline of a device looks at everything but the content. -/
theorem akin_deliverOne (h : SameButContent n n') :
    Akin SameCmd (deliverOne crates state n device) (deliverOne crates state n' device) := by
  unfold deliverOne
  rw [h.suppressed_eq, h.recordSuccess_eq]
  split
  next =>
    split
    next => exact akin_queueOne h
    next => exact Akin.refl .refl _
  next provider _ =>
    refine (Akin.refl .refl _).bind fun duplicate => ?_
    split
    next => exact .pure _
    next =>
      refine .call (.deliver provider device h) fun answers answers' heq => ?_
      obtain rfl := eq_of_heq heq
      exact Akin.refl .refl _

/-! ### What the requests lead to -/

/-- The requests lead to the same, to notifications that are equal but for their content, or both to
a refusal because no notification can be decoded. The text of that may name a place behind the
content. -/
inductive Dispatch.Alike : Dispatch → Dispatch → Prop
  | refl (d : Dispatch) : Alike d d
  | refused (text text' : String) : Alike (.answer ⟨422, .text text⟩) (.answer ⟨422, .text text'⟩)
  | notify {n n' : Notification} (h : SameButContent n n') : Alike (.notify n) (.notify n')

/-- Requests with such bodies lead to such. -/
theorem dispatch_alike (server : Server) {req req' : HttpRequest}
    (hmethod : req.method = req'.method) (hpath : req.path = Endpoint.notify.path)
    (hpath' : req'.path = Endpoint.notify.path) (hbody : req.body = .ok v)
    (hbody' : req'.body = .ok v') (h : SameBody v v') :
    Dispatch.Alike (server.dispatch req) (server.dispatch req') := by
  have hroute : route req = route req' := by rw [route, route, hpath, hpath', hmethod]
  rw [Server.dispatch, Server.dispatch, ← hroute]
  cases hr : route req with
  | error a => exact .refl _
  | ok e =>
    obtain rfl : e = .notify := by
      have heq := (Server.route_eq_ok_iff.mp hr).1.symm.trans hpath
      cases e <;> first | rfl | exact absurd heq (by decide)
    have hrel := h.rel
    dsimp only
    rw [Server.json, Server.json, hbody, hbody']
    dsimp only
    generalize NotifyRequest.fromValue v = o, NotifyRequest.fromValue v' = o' at hrel
    cases hrel with
    | some hsame => exact .notify hsame
    | none => exact .refused _ _

namespace Network

variable {ι : Type} (N : Network ι)

/-- Commands that are equal but for content, with the same mark. -/
def SameMarked (c c' : Option ℕ × Cmd) : Prop := c.1 = c'.1 ∧ SameCmd c.2 c'.2

/-- Requests that are equal but for content are served by similar programs. -/
theorem akin_branches {a a' : Arrival ι} (h : SameArrival a a') :
    List.Forall₂ (Akin SameMarked) (N.branches a) (N.branches a') := by
  have hrefl : ∀ ps : List (Prog (Option ℕ × Cmd) (fun c => c.2.Res) Finished),
      List.Forall₂ (Akin SameMarked) ps ps :=
    fun ps => List.forall₂_same.mpr fun p _ => Akin.refl (fun c => ⟨rfl, .refl _⟩) p
  cases h with
  | refl a => exact hrefl _
  | @notify i wakeups req req' _ _ hmethod hpath hpath' hbody hbody' h =>
    have halike := dispatch_alike (N.server i) hmethod hpath hpath' hbody hbody' h
    rw [branches, branches]
    generalize (N.server i).dispatch req = d, (N.server i).dispatch req' = d' at halike
    cases halike with
    | refl d => exact hrefl _
    | refused text text' => exact .nil
    | @notify n n' h =>
      have hdevices : n.devices = n'.devices := by
        obtain ⟨content, rfl⟩ := h
        rfl
      show List.Forall₂ _ (n.devices.map _) (n'.devices.map _)
      rw [← hdevices, List.forall₂_map_left_iff, List.forall₂_map_right_iff, List.forall₂_same]
      exact fun device _ => ((akin_deliverOne h).tag none).map _

variable {N} {backends : ι → Backends} {service : Service ι} [DecidableEq ι]

/-- A step does the same for both requests. -/
theorem exec_alike {a a' : Arrival ι} {now : Instant} {c c' : Option ℕ × Cmd} {input : WireInput}
    {t t' : Traffic ι} {res : c.2.Res} (ha : SameArrival a a') (hc : SameMarked c c')
    (h : N.machine.exec a now c input t = some (res, t')) :
    ∃ res', N.machine.exec a' now c' input t = some (res', t') ∧ res ≍ res' := by
  -- a step depends on the instance of its request only
  have hsame : ∀ c, N.machine.exec a' now c input t = N.machine.exec a now c input t := by
    intro c
    cases ha with
    | refl a => rfl
    | notify i => rfl
  obtain ⟨x, c⟩ := c
  obtain ⟨x', c'⟩ := c'
  obtain ⟨rfl, hc⟩ := hc
  cases hc with
  | refl c => exact ⟨res, (hsame _).trans h, .rfl⟩
  | @deliver provider n n' device hn =>
    have hcmd : (N.machine.exec a now (x, .deliver provider n' device) input t :
        Option (Answers × Traffic ι)) =
          N.machine.exec a now (x, .deliver provider n device) input t := by
      obtain ⟨content, rfl⟩ := hn
      cases input <;> rfl
    exact ⟨res, (hsame _).trans (hcmd.trans h), .rfl⟩
  | @enqueue n n' device hn =>
    -- the stored payload does not hold the content
    have hcmd : (N.machine.exec a now (x, .enqueue n' device) input t :
        Option (Except String Unit × Traffic ι)) =
          N.machine.exec a now (x, .enqueue n device) input t := by
      obtain ⟨content, rfl⟩ := hn
      cases input <;> rfl
    exact ⟨res, (hsame _).trans (hcmd.trans h), .rfl⟩

omit [DecidableEq ι] in
/-- A delivery gets the same answers for both requests, and the same message leaves. -/
theorem leaving_alike {a a' : Arrival ι} {now : Instant} {c c' : Option ℕ × Cmd}
    {input : WireInput} {s : Surrounded ι} (ha : SameArrival a a') (hc : SameMarked c c') :
    N.inputOf backends service a now input s c.2 = N.inputOf backends service a' now input s c'.2 ∧
      N.leaving backends a c.2 = N.leaving backends a' c'.2 := by
  have hinst : a.inst = a'.inst := by
    cases ha with
    | refl a => rfl
    | notify i => rfl
  obtain ⟨x, c⟩ := c
  obtain ⟨x', c'⟩ := c'
  obtain ⟨-, hc⟩ := hc
  -- the commands differ in their notification at most
  cases hc with
  | refl c =>
    refine ⟨?_, ?_⟩
    · cases c <;> simp [inputOf, hinst]
    · funext input
      cases c <;> cases input <;> simp [leaving, hinst]
  | @deliver provider n n' device hn =>
    refine ⟨by simp only [inputOf, hinst, hn.built_eq], ?_⟩
    funext input
    cases input with
    | answers a => simp only [leaving, hinst, hn.sent_eq]
    | _ => rfl
  | enqueue device hn => exact ⟨rfl, by funext input; cases input <;> rfl⟩

theorem indifferent_served : (N.served backends service).Indifferent SameArrival SameMarked where
  ready _ := rfl
  branches ha := N.akin_branches ha
  exec := by
    intro a a' now c c' input s res s' ha hc h
    -- the surroundings have seen the same, so they answer the same
    obtain ⟨hinput, hleaving⟩ : N.inputOf backends service a now input s c.2 =
        N.inputOf backends service a' now input s c'.2 ∧
      N.leaving backends a c.2 = N.leaving backends a' c'.2 := leaving_alike ha hc
    obtain ⟨⟨res₀, traffic⟩, hexec, heq⟩ := Option.map_eq_some_iff.mp h
    cases heq
    obtain ⟨res', hexec', heq⟩ := exec_alike ha hc hexec
    refine ⟨res', ?_, heq⟩
    show Option.map _ _ = _
    rw [← hinput, ← hleaving, hexec']
    rfl

/-! ### The runs -/

/-- The answer of a notify request whose devices have ended so. -/
def notifyAnswer (ds : List Disposition) : HttpAnswer :=
  match notifyResponse ds with
  | .ok rejected => ⟨200, .json (.object [("rejected", .array (rejected.map .string))])⟩
  | .error (status, text) => ⟨status, .text text⟩

/-- The answer of an HTTP request, once all that it leads to is done. That of a poll is among the
replies. -/
def answerOf (N : Network ι)
    (call : Machine.Call (Arrival ι) (Option ℕ × Cmd) (fun c => c.2.Res) Finished) :
    Option HttpAnswer :=
  match call.request with
  | .cycle _ _ => none
  | .http i req _ =>
    match (N.server i).dispatch req with
    | .answer a => some a
    | .notify _ => call.results.map fun fs => notifyAnswer (fs.filterMap Finished.disposition?)
    | .ack _ => call.results.map fun _ => ⟨200, .json (.object [])⟩
    | .poll _ => none

/-- The answers are the same, up to the text for a body that no notification can be decoded from. -/
def SameAnswer (a a' : HttpAnswer) : Prop := a.status = a'.status ∧ (a.status ≠ 422 → a = a')

theorem SameAnswer.refl (a : HttpAnswer) : SameAnswer a a := ⟨rfl, fun _ => rfl⟩

theorem rel_refl (a : Option HttpAnswer) : Option.Rel SameAnswer a a := by
  cases a with
  | none => exact .none
  | some a => exact .some (.refl a)

omit [DecidableEq ι] in
theorem answerOf_alike
    {call call' : Machine.Call (Arrival ι) (Option ℕ × Cmd) (fun c => c.2.Res) Finished}
    (h : Machine.Call.Alike SameArrival SameMarked call call') :
    Option.Rel SameAnswer (N.answerOf call) (N.answerOf call') := by
  have hrequest := h.request
  unfold answerOf
  rw [h.results_eq]
  generalize call.request = a, call'.request = a' at hrequest
  -- what the requests lead to is alike
  cases hrequest with
  | refl a => exact rel_refl _
  | @notify i wakeups req req' _ _ hmethod hpath hpath' hbody hbody' h =>
    have halike := dispatch_alike (N.server i) hmethod hpath hpath' hbody hbody' h
    dsimp only
    generalize (N.server i).dispatch req = d, (N.server i).dispatch req' = d' at halike
    cases halike with
    | refl d => exact rel_refl _
    | refused text text' => exact .some ⟨rfl, fun hne => absurd rfl hne⟩
    | notify h => exact rel_refl _

/-- The runs have shown the same to everyone outside, and are in the same state inside: the messages
to push services, the answers to polls, the requests with acks, the caches and queues, and the
answers to the requests that have finished. -/
structure SameOutside (N : Network ι)
    (s s' : Machine.State (Arrival ι) (Surrounded ι) (Option ℕ × Cmd) (fun c => c.2.Res) Finished) :
    Prop where
  messages : s'.shared.messages = s.shared.messages
  replies : s'.shared.traffic.replies = s.shared.traffic.replies
  acks : s'.shared.traffic.requests = s.shared.traffic.requests
  locks : ∀ i, s'.shared.traffic.locks i = s.shared.traffic.locks i
  answers : List.Forall₂ (Option.Rel SameAnswer) (s.calls.map N.answerOf) (s'.calls.map N.answerOf)

/-- The answers have the same statuses. -/
theorem map_status_eq {as as' : List (Option HttpAnswer)}
    (h : List.Forall₂ (Option.Rel SameAnswer) as as') :
    as.map (Option.map HttpAnswer.status) = as'.map (Option.map HttpAnswer.status) := by
  induction h with
  | nil => rfl
  | cons ha _ ih =>
    rw [List.map_cons, List.map_cons, ih]
    cases ha with
    | none => rfl
    | some ha => rw [Option.map_some, Option.map_some, ha.1]

/-- A run is matched by every run whose notify requests differ in nothing but the content of their
notifications, as long as the bodies of both are read. Both show the same outside. -/
theorem content_indifferent {labels labels' : List (Machine.Label (Arrival ι) WireInput)}
    (hlabels : List.Forall₂ (Machine.Label.Alike SameArrival) labels labels')
    {s : Machine.State (Arrival ι) (Surrounded ι) (Option ℕ × Cmd) (fun c => c.2.Res) Finished}
    (hrun : (N.served backends service).run labels = some s) :
    ∃ s', (N.served backends service).run labels' = some s' ∧ N.SameOutside s s' := by
  obtain ⟨s', hrun', halike⟩ := indifferent_served.run hlabels hrun
  refine ⟨s', hrun', by rw [halike.shared], by rw [halike.shared], by rw [halike.shared],
    fun i => by rw [halike.shared], ?_⟩
  rw [List.forall₂_map_left_iff, List.forall₂_map_right_iff]
  exact halike.calls.imp fun _ _ => answerOf_alike

/-- The same apps everywhere. -/
def backend : Backends where
  fcm _ := ⟨"https://fcm.example.test", "project"⟩
  apns _ := ⟨"https://apns.example.test", "topic", "New message", none, .alert⟩

/-- A push service that accepts everything. -/
def accepting : Service Side := fun _ _ _ _ _ => ⟨.ok "token", .ok (), .ok [], .ok ⟨200, .ok ""⟩⟩

/-- The body of a notify request for `event`, with these fields in front. -/
def eventBody (fields : Map) : Value :=
  .object [("notification", .object (fields ++ [
    ("devices", .array [.object [("app_id", .string "app"), ("pushkey", .string "pk")]]),
    ("event_id", .string "$e")]))]

/-- A notify request. -/
def notifyOf (body : Except (ℕ × String) Value) : HttpRequest where
  method := .post
  path := Endpoint.notify.path
  body

/-- The content makes no difference for the other fields. -/
theorem sameBody_eventBody (content : Value) :
    SameBody (eventBody []) (eventBody [("content", content)]) := by
  refine ⟨_, _, _, _, rfl, rfl, rfl, rfl, _, _, rfl, rfl, fun name place hname _ => ?_⟩
  have hbeq : (name == "content") = false := by simpa using hname
  simp [Map.get, List.lookup_cons, hbeq]

/-- A notification is delivered. -/
def deliveredRun (body : Value) : List (Machine.Label (Arrival Side) WireInput) :=
  [.arrive (.http .poll (notifyOf (.ok body)) 0), .perform 0 0 0 .none, .perform 0 0 0 .none,
    .perform 0 0 0 .none]

theorem isSome_delivered : ((trioWired.served (fun _ => backend) accepting).run
    (deliveredRun (eventBody []))).isSome = true := by decide +kernel

theorem content_indifferent_secret :
    ∃ s', (trioWired.served (fun _ => backend) accepting).run
        (deliveredRun (eventBody [("content", .string "secret")])) = some s' ∧
      s'.shared.messages = [(.poll, (backend.fcm "app").message event event.devices[0])] := by
  have hlabels : List.Forall₂ (Machine.Label.Alike SameArrival) (deliveredRun (eventBody []))
      (deliveredRun (eventBody [("content", .string "secret")])) :=
    .cons (.arrive (.notify Side.poll 0 rfl rfl rfl rfl rfl (sameBody_eventBody _))) <|
      .cons (.perform 0 0 0 WireInput.none) <| .cons (.perform 0 0 0 WireInput.none) <|
        .cons (.perform 0 0 0 WireInput.none) .nil
  obtain ⟨s', hrun, hsame⟩ := content_indifferent hlabels (Option.some_get isSome_delivered).symm
  exact ⟨s', hrun, hsame.messages⟩

/-! ### Content that cannot be read -/

/-- Arrivals that are equal, or requests that are equal but for the content of the notification in
their bodies, whether these can be read or not. -/
inductive SameSent {ι : Type} (crates : WireCrates) : Arrival ι → Arrival ι → Prop
  | refl (a : Arrival ι) : SameSent crates a a
  | notify (inst : ι) (wakeups : ℕ) (req : HttpRequest) (size size' : ℕ) {v v' : Value}
    (h : SameBody v v') :
    SameSent crates (.http inst { req with body := crates.readBody size v } wakeups)
      (.http inst { req with body := crates.readBody size' v' } wakeups)

/-- How long the text of a body is. -/
def textLength (body : Value) : ℕ := (body.text trioWired.crates.formatFloat).length

/-- A request arrives, and its body is read if possible. -/
def refusedRun (body : Value) : List (Machine.Label (Arrival Side) WireInput) :=
  [.arrive (.http .strict (notifyOf (trioWired.crates.readBody (textLength body) body)) 0)]

/-- An instance that knows no app rejects the device, but refuses the same request when its content
nests too deep. -/
theorem not_content_indifferent :
    ¬ ∀ (labels labels' : List (Machine.Label (Arrival Side) WireInput)),
      List.Forall₂ (Machine.Label.Alike (SameSent trioWired.crates)) labels labels' →
      ∀ s, (trioWired.served (fun _ => backend) accepting).run labels = some s →
        ∃ s', (trioWired.served (fun _ => backend) accepting).run labels' = some s' ∧
          trioWired.SameOutside s s' := by
  intro h
  have hlabels : List.Forall₂ (Machine.Label.Alike (SameSent trioWired.crates))
      (refusedRun (eventBody [])) (refusedRun (eventBody [("content", nested 127)])) :=
    .cons (.arrive (.notify Side.strict 0 (notifyOf (.ok .null)) (textLength _) (textLength _)
      (sameBody_eventBody _))) .nil
  obtain ⟨s', hrun, hsame⟩ := h _ _ hlabels _ rfl
  cases hrun
  have hstatuses := map_status_eq hsame.answers
  revert hstatuses
  decide +kernel

end Network

end Pincerbell
