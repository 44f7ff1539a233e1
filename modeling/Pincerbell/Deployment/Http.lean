import Pincerbell.Deployment.Relay
import Pincerbell.Gateway.Router
import Pincerbell.Support.Simulation

/-!
# The deployment behind HTTP

The instances of a deployment with their routers in front, and the HTTP requests and answers that go
between them. Anyone may send any request to any instance at any time. A poll side reads the entries
that it handles out of the answer to its poll, and writes its ack into the body of another request.

Nothing is assumed of the requests that arrive. Results that need the token to be a secret say so:
`TokenSecret` holds of a run in which every ack that gets past the check of the token has the
content of one that a poll side has sent to the same instance before. Of the answers that a poll
side gets, one to a poll with a success status is an answer that its upstream has given to a poll.

* `Upstream` — what a poll side knows of a queue side, and the requests that it makes.
* `Network.machine` — the instances, and the traffic between them.
* `relay_understood` — what an instance makes of the requests of a poll side.
* `TokenSecret` — who holds the token.
* `refines_base` — every run with a secret token is one of the deployment without HTTP.
* `admitted_of_log` — a step on the queue side is one of a request that carries the token.
* `attempt_of_http` — what an ack settles was fetched and handled, if the token is a secret.
-/

namespace Pincerbell

open Prog (Event Steps)
open Deployment (Side trio event)

/-! ### The poll side -/

/-- A loaded `[[poll]]` upstream. -/
structure Upstream (ι : Type) where
  /-- The instance that the URL leads to. -/
  target : ι
  token : Token
  timeoutSecs : UInt64
  maxBatch : UInt64

namespace Upstream

variable {ι : Type} (up : Upstream ι) (crates : WireCrates)

/-- What arrives of a request whose body is the text of a value. -/
def post (endpoint : Endpoint) (body : Value) : Option HttpRequest :=
  up.token.bearer.map fun value => {
    method := .post
    path := endpoint.path
    headers := [("authorization", transmit value)]
    body := crates.readBody (body.text crates.formatFloat).length body }

def pollRequest : Option HttpRequest :=
  up.post crates .poll (PollBody.toValue ⟨some up.timeoutSecs, some up.maxBatch⟩)

def ackRequest (req : AckRequest) : Option HttpRequest := up.post crates .ack req.toValue

end Upstream

namespace WireCrates

variable (crates : WireCrates)

/-- What `poll_once` makes of the answer to its poll. -/
def readPoll (a : HttpAnswer) : Except String (List PollEntry) :=
  if a.isSuccess then
    match a.body with
    | .text _ => .error ("poll body: " ++ crates.bodyError)
    | .json v =>
      match if v.nesting ≤ crates.limit then PollResponse.fromValue v else none with
      | none => .error ("poll body: " ++ crates.bodyError)
      | some entries => .ok entries
  else .error ("poll: upstream answered " ++ crates.displayStatus a.status)

/-- What `poll_once` makes of the status that its ack is answered with. -/
def readAck (a : HttpAnswer) : Except String Unit :=
  if a.isSuccess then .ok ()
  else .error ("ack: upstream answered " ++ crates.displayStatus a.status)

end WireCrates

/-! ### The network -/

/-- A deployment, and the token of each queue side. -/
structure Network (ι : Type) where
  base : Deployment ι
  crates : WireCrates
  token : ι → Token

/-- Something that starts at an instance. -/
inductive Arrival (ι : Type)
  /-- An HTTP request. As a poll, it is woken up `wakeups` times. -/
  | http (inst : ι) (req : HttpRequest) (wakeups : ℕ)
  /-- A cycle of the poll loop. -/
  | cycle (inst : ι) (up : Upstream ι)

namespace Arrival

variable {ι : Type}

/-- The instance that it starts at. -/
def inst : Arrival ι → ι
  | http i _ _ => i
  | cycle i _ => i

/-- The upstream of a cycle. -/
def upstream? : Arrival ι → Option (Upstream ι)
  | http _ _ _ => none
  | cycle _ up => some up

end Arrival

/-- The instances' mutable parts and what has been sent. -/
structure Traffic (ι : Type) where
  locks : ι → Locks
  /-- Answers to polls, with the instance that gave them. -/
  replies : List (ι × HttpAnswer)
  /-- The requests of poll sides that carry an ack, with the instance they are for. -/
  requests : List (ι × HttpRequest)

/-- What comes from outside. -/
inductive WireInput
  /-- Nothing is needed. -/
  | none
  /-- Of a push service. -/
  | answers (a : Answers)
  /-- The request fails without an answer. -/
  | failure (error : String)
  /-- The poll gets an answer that its upstream gave to a poll. -/
  | reply (k : ℕ)
  /-- The request gets another answer, of whomever it reaches. -/
  | other (a : HttpAnswer)

namespace Network

variable {ι : Type} (N : Network ι)

/-- An instance behind its router. -/
def server (i : ι) : Server := ⟨N.crates, N.base.app i, (N.token i).hash N.crates.digest⟩

/-- What runs: nothing but an answer, the devices of a notification, an endpoint of the queue side,
or a cycle. -/
def branches : Arrival ι → List (Prog (Option ℕ × Cmd) (fun c => c.2.Res) Finished)
  | .http i req wakeups =>
    match (N.server i).dispatch req with
    | .answer _ => []
    | .notify n => n.devices.map fun device =>
      Finished.device <$> (deliverOne N.base.crates (N.base.app i) n device).tag none
    | .poll body => [(fun _ => .served) <$> (queuePoll body.request wakeups).tag none]
    | .ack req => [(fun _ => .served) <$> (queueAck req).tag none]
  | .cycle i up =>
    [Finished.cycle <$> pollOnce N.base.crates (N.base.app i) up.maxBatch.toNat]

/-- The content of the ack that an instance takes from a request. -/
def ackOf (i : ι) (req : HttpRequest) : Option AckRequest :=
  match (N.server i).dispatch req with
  | .ack ack => some ack
  | _ => none

/-- The result of a step, if the input admits it. -/
def answer [DecidableEq ι] (a : Arrival ι) (now : Instant) (t : Traffic ι) :
    (c : Cmd) → WireInput → Option c.Res
  | .deliver _ _ _, .answers answers => some answers
  | .poll _, .failure e => some (.error ("poll: " ++ e))
  | .poll _, .reply k =>
    match a.upstream?, t.replies[k]? with
    | some up, some (j, reply) =>
      -- a token that is no header makes no request
      if up.target = j ∧ (up.pollRequest N.crates).isSome then some (N.crates.readPoll reply)
      else none
    | _, _ => none
  | .poll _, .other reply =>
    -- a success is an answer of the upstream
    if reply.isSuccess then none else some (N.crates.readPoll reply)
  | .sendAck _, .failure e => some (.error ("ack: " ++ e))
  | .sendAck _, .other reply => some (N.crates.readAck reply)
  | c, _ => (N.base.app a.inst).lockAnswer now (t.locks a.inst) c

/-- The answer to a poll that a step gives. -/
def replied (a : Arrival ι) : Cmd → List (ι × HttpAnswer)
  | .respond entries => [(a.inst, ⟨200, .json (pollResponse entries)⟩)]
  | _ => []

/-- The request with an ack that a step makes. -/
def requested (a : Arrival ι) : Cmd → List (ι × HttpRequest)
  | .sendAck req => a.upstream?.toList.flatMap fun up =>
    (up.ackRequest N.crates req).toList.map fun r => (up.target, r)
  | _ => []

/-- What a step changes. -/
def effect [DecidableEq ι] (a : Arrival ι) (now : Instant) (t : Traffic ι) (c : Cmd) :
    Traffic ι where
  locks := Function.update t.locks a.inst
    ((N.base.app a.inst).lockEffect now (t.locks a.inst) c)
  replies := t.replies ++ replied a c
  requests := t.requests ++ N.requested a c

/-- The instances and the traffic between them. -/
def machine [DecidableEq ι] :
    Machine (Arrival ι) (Traffic ι) (Option ℕ × Cmd) (fun c => c.2.Res) WireInput Finished where
  init := ⟨fun _ => {}, [], []⟩
  ready _ _ := true
  branches := N.branches
  exec a now c input t := (N.answer a now t c.2 input).map fun res => (res, N.effect a now t c.2)

/-- A step in the log. -/
abbrev Step (ι : Type) := Machine.Record (Arrival ι) (Option ℕ × Cmd) fun c => c.2.Res

/-- A state of the network. -/
abbrev State (ι : Type) :=
  Machine.State (Arrival ι) (Traffic ι) (Option ℕ × Cmd) (fun c => c.2.Res) Finished

/-- The request of the deployment that it stands for. One that is answered at once runs nothing, as
a notification without devices. -/
def request : Arrival ι → Request ι
  | .http i req wakeups =>
    match (N.server i).dispatch req with
    | .answer _ => .notify i { devices := [] }
    | .notify n => .notify i n
    | .poll body => .queuePoll i body.request wakeups
    | .ack req => .queueAck i req
  | .cycle i up => .pollOnce i up.target up.maxBatch.toNat

/-! ### An example -/

/-- The token of the example. -/
def secret : Token where
  text := "t"
  trimmed := ⟨by rintro _ ⟨⟩; rfl, by rintro _ ⟨⟩; rfl⟩
  nonempty := by decide

/-- The instances of the example behind their routers. -/
def trioWired : Network Side where
  base := trio
  crates := ⟨id, fun _ => "", "", "", fun _ => "", 127, fun _ => "", fun _ => []⟩
  token _ := secret

/-- The queue side, as a poll side knows it. -/
def toQueue : Upstream Side := ⟨.queue, secret, 30, 100⟩

/-- A request to the queue side, if it is made. -/
def sent (req : Option HttpRequest) : List (Machine.Label (Arrival Side) WireInput) :=
  req.toList.map fun r => .arrive (.http .queue r 0)

/-- `event` is queued, fetched, delivered and acknowledged. Then comes an ack without the token. -/
def relayedOverHttp : List (Machine.Label (Arrival Side) WireInput) :=
  sent (some ⟨.post, Endpoint.notify.path, [], .ok (.object [("notification", event.toValue)])⟩) ++
    [.perform 0 0 0 .none, .perform 0 0 0 .none, .perform 0 0 0 .none, .perform 0 0 0 .none] ++
    sent (toQueue.pollRequest trioWired.crates) ++
    [.perform 1 0 0 .none, .perform 1 0 0 .none, .arrive (.cycle .poll toQueue),
      .perform 2 0 0 (.reply 0), .perform 2 0 0 .none,
      .perform 2 0 0 (.answers ⟨.ok "token", .ok (), .ok [], .ok ⟨200, .ok ""⟩⟩),
      .perform 2 0 0 .none, .perform 2 0 0 (.other ⟨200, .text ""⟩)] ++
    sent (toQueue.ackRequest trioWired.crates ⟨[0], []⟩) ++
    sent (some ⟨.post, Endpoint.ack.path, [], .ok (AckRequest.toValue ⟨[0], []⟩)⟩)

theorem isSome_relayedOverHttp : (trioWired.machine.run relayedOverHttp).isSome = true := by
  decide +kernel

/-! ### What a poll side sends -/

variable {N} {up : Upstream ι} {r : HttpRequest} {i : ι}

/-- The instance is in queue mode and lets the upstream in: the token of the poll side is visible,
and its digest is the one that the instance has. -/
def Trusts (N : Network ι) (i : ι) (up : Upstream ι) : Prop :=
  (N.base.app i).queue.isSome = true ∧ (∀ c ∈ up.token.text.toList, IsVisible c) ∧
    up.token.hash N.crates.digest = (N.token i).hash N.crates.digest

instance : Decidable (N.Trusts i up) :=
  letI : Decidable (∀ c ∈ up.token.text.toList, IsVisible c) := List.decidableBAll _ _
  inferInstanceAs (Decidable (_ ∧ _ ∧ _))

/-- What `queue_auth` answers when it lets nobody in. -/
def refusal (N : Network ι) (i : ι) : HttpAnswer :=
  if (N.base.app i).queue.isSome then ⟨401, .text "invalid or missing token"⟩
  else ⟨404, .text "queue mode not configured"⟩

/-- Which requests of a poll side get past the check of the token. -/
theorem queueAuth_post {endpoint : Endpoint} {body : Value}
    (h : up.post N.crates endpoint body = some r) :
    (N.server i).queueAuth r.headers =
      if N.Trusts i up then .ok () else .error (N.refusal i) := by
  obtain ⟨value, hvalue, rfl⟩ := Option.map_eq_some_iff.mp h
  have htoken : N.Trusts i up ↔ (N.base.app i).queue.isSome = true ∧
      authorized N.crates.digest ((N.token i).hash N.crates.digest)
        [("authorization", transmit value)] = true := by
    refine and_congr_right fun _ => authorized_bearer_iff.symm.trans ?_
    constructor
    · rintro ⟨value', hvalue', htoken⟩
      obtain rfl := Option.some_inj.mp (hvalue.symm.trans hvalue')
      exact htoken
    · exact fun htoken => ⟨value, hvalue, htoken⟩
  by_cases htrusts : N.Trusts i up
  · rw [if_pos htrusts]
    exact Server.queueAuth_eq_ok_iff.mpr (htoken.mp htrusts)
  · rw [if_neg htrusts, Server.queueAuth, refusal]
    rw [htoken] at htrusts
    cases hqueue : (N.base.app i).queue with
    | none => simp [server, hqueue]
    | some q =>
      have hnot : ¬ _ := fun htoken => htrusts ⟨by rw [hqueue]; rfl, htoken⟩
      simp only [server, hqueue]
      exact if_neg hnot

/-- What becomes of a request of a poll side whose body can be decoded. -/
theorem authorizedJson_post {α : Type} {decode : Value → Option α} {a : α} {endpoint : Endpoint}
    {body : Value} (h : up.post N.crates endpoint body = some r) (hdecode : decode body = some a)
    (hnesting : body.nesting ≤ N.crates.limit) :
    (N.server i).authorizedJson decode r =
      if bodyLimit < (body.text N.crates.formatFloat).length then
        .error ⟨413, .text N.crates.lengthError⟩
      else if N.Trusts i up then .ok a else .error (N.refusal i) := by
  have hbody : r.body = if bodyLimit < (body.text N.crates.formatFloat).length then
      .error (413, N.crates.lengthError) else .ok body := by
    obtain ⟨value, -, rfl⟩ := Option.map_eq_some_iff.mp h
    exact WireCrates.readBody_of_nesting_le _ hnesting
  split
  next hlong =>
    rw [if_pos hlong] at hbody
    rw [Server.authorizedJson, Server.json, hbody]
    rfl
  next hshort =>
    rw [if_neg hshort] at hbody
    have hjson : (N.server i).json decode r = .ok a :=
      Server.json_eq_ok_iff.mpr ⟨body, hbody, hdecode⟩
    rw [Server.authorizedJson, hjson, queueAuth_post h]
    by_cases htrusts : N.Trusts i up <;> simp [htrusts, bind, Except.bind, pure, Except.pure]

/-- It gets to the endpoint that it is made for. -/
theorem route_post {endpoint : Endpoint} {body : Value}
    (h : up.post N.crates endpoint body = some r) (hendpoint : Method.post ∈ endpoint.methods) :
    route r = .ok endpoint := by
  obtain ⟨value, -, rfl⟩ := Option.map_eq_some_iff.mp h
  exact Server.route_eq_ok_iff.mpr ⟨rfl, hendpoint⟩

/-- An upstream that is trusted can make requests. -/
theorem Trusts.isSome_post (h : N.Trusts i up) (endpoint : Endpoint) (body : Value) :
    (up.post N.crates endpoint body).isSome = true := by
  obtain ⟨-, htoken⟩ := h
  obtain ⟨value, hvalue, -⟩ := authorized_bearer_iff.mpr htoken
  rw [Upstream.post, hvalue]
  rfl

/-- The two sides of the relay understand each other. A poll side that is trusted makes both of its
requests, and an instance takes them as a poll with the settings of the upstream and as the ack that
was to be sent. Any other one that makes requests is refused, and so is an ack whose body is longer
than the limit. The parser has to allow for the three levels of an ack. -/
theorem relay_understood {req : AckRequest} (hids : ∀ id ∈ req.acked, id < 2 ^ 64)
    (hlimit : 3 ≤ N.crates.limit) :
    (N.Trusts i up →
      (up.pollRequest N.crates).isSome = true ∧ (up.ackRequest N.crates req).isSome = true) ∧
      (∀ r, up.pollRequest N.crates = some r → (N.server i).dispatch r =
        if N.Trusts i up then .poll ⟨some up.timeoutSecs, some up.maxBatch⟩
        else .answer (N.refusal i)) ∧
      ∀ r, up.ackRequest N.crates req = some r → (N.server i).dispatch r =
        if bodyLimit < (req.toValue.text N.crates.formatFloat).length then
          .answer ⟨413, .text N.crates.lengthError⟩
        else if N.Trusts i up then .ack req else .answer (N.refusal i) := by
  refine ⟨fun h => ⟨h.isSome_post _ _, h.isSome_post _ _⟩, fun r hr => ?_, fun r hr => ?_⟩
  · have hshort : ¬ bodyLimit < (PollBody.toValue ⟨some up.timeoutSecs,
        some up.maxBatch⟩ |>.text N.crates.formatFloat).length := by
      have hle := PollBody.length_text_le N.crates.formatFloat ⟨some up.timeoutSecs,
        some up.maxBatch⟩
      rw [bodyLimit]
      omega
    have hnesting := (PollBody.nesting_toValue ⟨some up.timeoutSecs, some up.maxBatch⟩).le
    rw [Server.dispatch, route_post hr (List.mem_singleton.mpr rfl)]
    dsimp only
    rw [authorizedJson_post hr (PollBody.fromValue_toValue _) (by omega), if_neg hshort]
    split_ifs <;> rfl
  · have hnesting := req.nesting_toValue_le
    rw [Server.dispatch, route_post hr (List.mem_singleton.mpr rfl)]
    dsimp only
    rw [authorizedJson_post hr (AckRequest.fromValue_toValue hids) (by omega)]
    split_ifs <;> rfl

theorem relay_understood_toQueue :
    ∃ r, toQueue.ackRequest trioWired.crates ⟨[0], [⟨"app", "pk"⟩]⟩ = some r ∧
      (trioWired.server .queue).dispatch r = .ack ⟨[0], [⟨"app", "pk"⟩]⟩ := by
  have hvisible : ∀ c ∈ secret.text.toList, IsVisible c :=
    List.forall_mem_singleton.mpr (show IsVisible 't' by decide)
  have htrusts : trioWired.Trusts .queue toQueue := ⟨rfl, hvisible, rfl⟩
  have hshort : ¬ bodyLimit < ((AckRequest.toValue ⟨[0], [⟨"app", "pk"⟩]⟩).text
      trioWired.crates.formatFloat).length := by decide +kernel
  obtain ⟨hmade, -, hack⟩ := @relay_understood _ trioWired toQueue .queue
    ⟨[0], [⟨"app", "pk"⟩]⟩ (by decide) (by decide)
  obtain ⟨r, hr⟩ := Option.isSome_iff_exists.mp (hmade htrusts).2
  refine ⟨r, hr, ?_⟩
  rw [hack r hr, if_neg hshort, if_pos htrusts]

theorem ackOf_eq_some_iff {ack : AckRequest} :
    N.ackOf i r = some ack ↔ (N.server i).dispatch r = .ack ack := by
  rw [ackOf]
  split
  next ack' hdispatch => simp [hdispatch]
  next hne => simpa using hne ack

/-- An ack that gets past it is the one that was sent. -/
theorem eq_of_ackOf_ackRequest {req ack : AckRequest} (h : up.ackRequest N.crates req = some r)
    (hids : ∀ id ∈ req.acked, id < 2 ^ 64) (hack : N.ackOf i r = some ack) : ack = req := by
  obtain ⟨-, v, hbody, hdecode⟩ := Server.dispatch_eq_ack_iff.mp (ackOf_eq_some_iff.mp hack)
  obtain ⟨value, -, rfl⟩ := Option.map_eq_some_iff.mp h
  obtain rfl := WireCrates.eq_of_readBody hbody
  rw [AckRequest.fromValue_toValue hids] at hdecode
  exact (Option.some_inj.mp hdecode).symm

/-- Read back, an answer of the queue side has the entries that it was written with. -/
theorem eq_of_readPoll {crates : WireCrates} {entries entries' : List PollEntry}
    (hids : ∀ p ∈ entries, p.id < 2 ^ 64)
    (h : crates.readPoll ⟨200, .json (pollResponse entries)⟩ = .ok entries') :
    entries' = entries := by
  have hsuccess : (⟨200, .json (pollResponse entries)⟩ : HttpAnswer).isSuccess = true := rfl
  rw [WireCrates.readPoll, if_pos hsuccess] at h
  dsimp only at h
  split_ifs at h
  rw [PollResponse.fromValue_pollResponse hids] at h
  exact (Except.ok.inj h).symm

/-! ### The token -/

/-- The request is not an ack that its instance takes, or it has the content of one that a poll side
has sent to the instance. -/
def sentAck (N : Network ι) [DecidableEq ι] (a : Arrival ι) (t : Traffic ι) : Bool :=
  match a with
  | .cycle _ _ => true
  | .http i req _ =>
    match N.ackOf i req with
    | none => true
    | some ack => t.requests.any fun r => r.1 = i && N.ackOf i r.2 = some ack

end Network

/-! ### The ids are in range -/

namespace Deployment

variable {ι : Type} [DecidableEq ι] {D : Deployment ι} {s : State ι} {j : ι} {id : ℕ}

/-- What was enqueued has an id below the counter. -/
theorem id_lt_of_enqueued (h : D.machine.Reachable s) {e : Entry}
    (he : e ∈ enqueued (queueLog j s.log)) : e.id < (s.shared.locks j).queue.nextId := by
  cases hq : (D.app j).queue with
  | some q =>
    rw [queue_eq h hq, q.queue.nextId_run]
    exact lt_length_of_mem_enqueued he
  | none =>
    -- an instance that is not in queue mode enqueues nothing
    obtain ⟨r, hr, rfl, hop⟩ := mem_gather.mp (exists_op_of_mem_enqueued he)
    obtain ⟨pre, post, hlog⟩ := List.append_of_mem hr
    have hstep := branchStep_of_log h hlog
    obtain ⟨req, k, b, now, ⟨x, c⟩, res⟩ := r
    cases c with
    | enqueue n device =>
      have hqueue := hstep.of_enqueue
      rw [hq] at hqueue
      cases hqueue
    | _ => cases hop

/-- And so has what was handed out. -/
theorem id_lt_of_mem_responses (h : D.machine.Reachable s) {entries : List PollEntry}
    (hmem : (j, entries) ∈ s.shared.responses) {p : PollEntry} (hp : p ∈ entries) :
    p.id < (s.shared.locks j).queue.nextId := by
  rw [responses_eq h, List.mem_flatMap] at hmem
  obtain ⟨r, hr, hmem⟩ := hmem
  obtain ⟨pre, post, hlog⟩ := List.append_of_mem hr
  unfold responded at hmem
  split at hmem
  next hrespond =>
    cases List.mem_singleton.mp hmem
    obtain ⟨e, he, rfl⟩ := exists_enqueued_of_respond h hlog hrespond hp
    exact id_lt_of_enqueued h he
  next => cases hmem

/-- And what is acknowledged. -/
theorem id_lt_of_mem_acks (h : D.machine.Reachable s) {req : AckRequest}
    (hmem : (j, req) ∈ s.shared.acks) (hid : id ∈ req.acked) :
    id < (s.shared.locks j).queue.nextId := by
  obtain ⟨k, call, i, m, t, x, f, hcall, hreq, hsub, hsteps⟩ := cycle_of_mem_acks h hmem
  obtain ⟨entries, hfetched, entry, hentry, rfl, -⟩ := exists_of_mem_acked hsteps hid
  obtain ⟨e, he, rfl⟩ := exists_enqueued_of_fetched h hcall (by rw [hreq]; rfl)
    (hsub.subset hfetched) hentry
  exact id_lt_of_enqueued h he

end Deployment

/-! ### The counter only grows -/

namespace NotificationQueue

variable (q : NotificationQueue) {now : Instant} {max : ℕ} {inner : Inner}

end NotificationQueue

namespace Network

/-! ### The simulation -/

variable {ι : Type} [DecidableEq ι] {N : Network ι} {a : Arrival ι}

/-- No counter has left the range of the ids. -/
def InRange (t : Traffic ι) : Prop := ∀ i, (t.locks i).queue.nextId ≤ 2 ^ 64

/-- The answers to polls have the entries of responses, and the acks that can be taken from requests
are among those that were sent. -/
structure Related (N : Network ι) (t : Traffic ι) (x : Shared ι) : Prop where
  locks : t.locks = x.locks
  replies : ∀ r ∈ t.replies, ∃ entries, (r.1, entries) ∈ x.responses ∧
    r.2 = ⟨200, .json (pollResponse entries)⟩ ∧ ∀ p ∈ entries, p.id < 2 ^ 64
  requests : ∀ r ∈ t.requests, ∀ ack, N.ackOf r.1 r.2 = some ack → (r.1, ack) ∈ x.acks

omit [DecidableEq ι] in
theorem inst_request : (N.request a).inst = a.inst := by
  cases a with
  | cycle i up => rfl
  | http i req wakeups =>
    rw [request]
    cases (N.server i).dispatch req <;> rfl

omit [DecidableEq ι] in
theorem upstream?_request : (N.request a).upstream? = a.upstream?.map Upstream.target := by
  cases a with
  | cycle i up => rfl
  | http i req wakeups =>
    rw [request]
    cases (N.server i).dispatch req <;> rfl

omit [DecidableEq ι] in
theorem branches_request : N.base.branches (N.request a) = N.branches a := by
  cases a with
  | cycle i up => rfl
  | http i req wakeups =>
    rw [request, branches]
    cases (N.server i).dispatch req <;> rfl

theorem Related.ready {t : Traffic ι} {x : Shared ι} (h : N.Related t x)
    (hready : N.sentAck a t = true) : N.base.machine.ready (N.request a) x = true := by
  cases a with
  | cycle i up => rfl
  | http i req wakeups =>
    rw [request]
    cases hdispatch : (N.server i).dispatch req with
    | ack ack =>
      have hack : N.ackOf i req = some ack := ackOf_eq_some_iff.mpr hdispatch
      simp only [sentAck, hack, List.any_eq_true, Bool.and_eq_true, decide_eq_true_eq] at hready
      obtain ⟨r, hr, rfl, hr'⟩ := hready
      exact decide_eq_true (h.requests r hr ack hr')
    | _ => rfl

/-- A step has the same result without HTTP. -/
theorem Related.answer {t : Traffic ι} {x : Shared ι} (h : N.Related t x) {now : Instant} {c : Cmd}
    {input : WireInput} {res : c.Res} (hanswer : N.answer a now t c input = some res) :
    ∃ input', N.base.answer (N.request a) now x c input' = some res := by
  have hlock : (N.base.app a.inst).lockAnswer now (t.locks a.inst) c =
      (N.base.app (N.request a).inst).lockAnswer now (x.locks (N.request a).inst) c := by
    rw [inst_request, h.locks]
  cases c with
  | deliver provider n device =>
    cases input with
    | answers answers => exact ⟨.answers answers, hanswer⟩
    | _ => cases hanswer
  | poll max =>
    cases input with
    | failure e => exact ⟨.failure _, hanswer⟩
    | reply k =>
      simp only [Network.answer] at hanswer
      split at hanswer
      next up j reply hup hreply =>
        split at hanswer
        next htarget =>
          obtain rfl := Option.some_inj.mp hanswer
          obtain ⟨entries, hmem, rfl, hids⟩ := h.replies _ (List.mem_of_getElem? hreply)
          -- the answer holds the entries of a response, or cannot be read
          cases hread : N.crates.readPoll ⟨200, .json (pollResponse entries)⟩ with
          | error e => exact ⟨.failure e, rfl⟩
          | ok entries' =>
            obtain rfl := eq_of_readPoll hids hread
            obtain ⟨k', hk'⟩ := List.mem_iff_getElem?.mp hmem
            refine ⟨.response k', ?_⟩
            have htarget' : (N.request a).upstream? = some j := by
              rw [upstream?_request, hup, Option.map_some, htarget.1]
            rw [Deployment.answer, hk']
            dsimp only
            rw [if_pos htarget']
        next => cases hanswer
      next => cases hanswer
    | other reply =>
      simp only [Network.answer] at hanswer
      split at hanswer
      next => cases hanswer
      next hfailure =>
        obtain rfl := Option.some_inj.mp hanswer
        refine ⟨.failure ("poll: upstream answered " ++ N.crates.displayStatus reply.status), ?_⟩
        rw [WireCrates.readPoll, if_neg hfailure]
        rfl
    | _ => cases hanswer
  | sendAck req => exact ⟨.sent res, rfl⟩
  | _ =>
    refine ⟨.none, hlock.symm.trans ?_⟩
    cases input <;> exact hanswer

/-- A step keeps the relation, as long as the counters are in range. -/
theorem Related.effect {t : Traffic ι} {x : Shared ι} (h : N.Related t x) {now : Instant} {c : Cmd}
    {s : Deployment.State ι} (hs : N.base.machine.Reachable s)
    (hshared : s.shared = N.base.effect (N.request a) now x c)
    (hrange : InRange (N.effect a now t c)) : N.Related (N.effect a now t c) s.shared := by
  have hlocks : (N.effect a now t c).locks = s.shared.locks := by
    rw [hshared, Network.effect, Deployment.effect, inst_request, h.locks]
  constructor
  · exact hlocks
  · intro r hr
    rcases List.mem_append.mp hr with hr | hr
    · obtain ⟨entries, hmem, heq, hids⟩ := h.replies r hr
      refine ⟨entries, ?_, heq, hids⟩
      rw [hshared]
      exact List.mem_append_left _ hmem
    · unfold replied at hr
      split at hr
      next entries _ =>
        obtain rfl := List.mem_singleton.mp hr
        have hmem : (a.inst, entries) ∈ s.shared.responses := by
          rw [hshared]
          refine List.mem_append_right _ ?_
          rw [Deployment.responded, inst_request]
          exact List.mem_singleton.mpr rfl
        refine ⟨entries, hmem, rfl, fun p hp => ?_⟩
        have hlt := Deployment.id_lt_of_mem_responses hs hmem hp
        rw [← hlocks] at hlt
        exact Nat.lt_of_lt_of_le hlt (hrange _)
      next => cases hr
  · intro r hr ack hack
    rcases List.mem_append.mp hr with hr | hr
    · rw [hshared]
      exact List.mem_append_left _ (h.requests r hr ack hack)
    · unfold requested at hr
      split at hr
      next req _ =>
        obtain ⟨up, hup, hr⟩ := List.mem_flatMap.mp hr
        obtain ⟨r', hr', rfl⟩ := List.mem_map.mp hr
        have hmem : (up.target, req) ∈ s.shared.acks := by
          rw [hshared]
          refine List.mem_append_right _ ?_
          rw [Deployment.acknowledged, upstream?_request, Option.mem_toList.mp hup]
          exact List.mem_singleton.mpr rfl
        -- what is read out of the request is what was written into it
        have hids : ∀ id ∈ req.acked, id < 2 ^ 64 := by
          intro id hid
          have hlt := Deployment.id_lt_of_mem_acks hs hmem hid
          rw [← hlocks] at hlt
          exact Nat.lt_of_lt_of_le hlt (hrange _)
        obtain rfl := eq_of_ackOf_ackRequest (Option.mem_toList.mp hr') hids hack
        exact hmem
      next => cases hr

variable {s : State ι} {r : Step ι}

/-- The endpoint that a step on the queue or on the rejected pushkeys belongs to. -/
def endpoint? : Cmd → Option Endpoint
  | .takeAt _ => some .poll
  | .respond _ => some .poll
  | .ack _ => some .ack
  | .reportRejected _ _ => some .ack
  | _ => none

theorem branchStep_of_log (h : N.machine.Reachable s) {pre post : List (Step ι)}
    (hlog : s.log = pre ++ r :: post) :
    N.base.BranchStep (N.request r.request) (Machine.trace r.call r.branch pre) r.event.1 := by
  refine h.always (P := fun a t e => N.base.BranchStep (N.request a) t e.1) ?_ hlog
  intro a p hp
  refine Deployment.always_branchStep (N.request a) p ?_
  show p ∈ N.base.branches (N.request a)
  rw [branches_request]
  exact hp

omit [DecidableEq ι] in
/-- Only a poll request and an ack request get to the queue. -/
theorem queueRequest_of_branchStep {req : Request ι} {t : List MarkedEvent} {x : Option ℕ} {c : Cmd}
    {e : Endpoint} (h : N.base.BranchStep req t (x, c)) (he : endpoint? c = some e) :
    (e = .poll ∧ ∃ i body wakeups, req = .queuePoll i body wakeups) ∨
      (e = .ack ∧ ∃ i ack, req = .queueAck i ack) := by
  cases req with
  | notify i n =>
    obtain ⟨-, device, -, hstep⟩ := h
    cases c <;> first | exact hstep.elim | cases he
  | pollOnce i j m =>
    cases h with
    | entry _ hentry =>
      obtain ⟨_, _, _, _, _, _, _, hstep⟩ := hentry
      cases c <;> first | exact hstep.elim | cases he
    | _ => cases he
  | queuePoll i body wakeups =>
    cases h <;> exact Or.inl ⟨(Option.some_inj.mp he).symm, i, body, wakeups, rfl⟩
  | queueAck i ack =>
    cases h <;> exact Or.inr ⟨(Option.some_inj.mp he).symm, i, ack, rfl⟩

omit [DecidableEq ι] in
theorem dispatch_of_queuePoll {i : ι} {body : PollRequest} {wakeups : ℕ}
    (h : N.request a = .queuePoll i body wakeups) :
    ∃ req b, a = .http i req wakeups ∧ (N.server i).dispatch req = .poll b ∧ b.request = body := by
  cases a with
  | cycle i up => cases h
  | http i req wakeups =>
    rw [request] at h
    cases hdispatch : (N.server i).dispatch req <;> rw [hdispatch] at h <;> cases h
    exact ⟨req, _, rfl, hdispatch, rfl⟩

omit [DecidableEq ι] in
theorem dispatch_of_queueAck {i : ι} {ack : AckRequest} (h : N.request a = .queueAck i ack) :
    ∃ req wakeups, a = .http i req wakeups ∧ (N.server i).dispatch req = .ack ack := by
  cases a with
  | cycle i up => cases h
  | http i req wakeups =>
    rw [request] at h
    cases hdispatch : (N.server i).dispatch req <;> rw [hdispatch] at h <;> cases h
    exact ⟨req, wakeups, rfl, hdispatch⟩

/-- In every run, whatever anyone sends, a step that takes from the queue, settles an entry, records
a rejected pushkey or answers a poll is one of an HTTP request to the endpoint for it, of an
instance in queue mode, that carries the token. -/
theorem admitted_of_log (h : N.machine.Reachable s) (hr : r ∈ s.log) {e : Endpoint}
    (he : endpoint? r.event.1.2 = some e) :
    ∃ i req wakeups, r.request = .http i req wakeups ∧ Server.Admitted (N.server i) req e := by
  obtain ⟨pre, post, hlog⟩ := List.append_of_mem hr
  have hstep := branchStep_of_log h hlog
  rcases queueRequest_of_branchStep hstep he with
    ⟨rfl, i, body, wakeups, hreq⟩ | ⟨rfl, i, ack, hreq⟩
  · obtain ⟨req, b, ha, hdispatch, -⟩ := dispatch_of_queuePoll hreq
    exact ⟨i, req, wakeups, ha, (Server.dispatch_eq_poll_iff.mp hdispatch).1⟩
  · obtain ⟨req, wakeups, ha, hdispatch⟩ := dispatch_of_queueAck hreq
    exact ⟨i, req, wakeups, ha, (Server.dispatch_eq_ack_iff.mp hdispatch).1⟩

theorem admitted_of_log_relayedOverHttp : ∃ s, trioWired.machine.run relayedOverHttp = some s ∧
    ∃ r ∈ s.log, ∃ i req wakeups, r.request = .http i req wakeups ∧
      Server.Admitted (trioWired.server i) req .poll := by
  have hany : (((trioWired.machine.run relayedOverHttp).get isSome_relayedOverHttp).log.any
      fun r => endpoint? r.event.1.2 = some .poll) = true := by decide +kernel
  obtain ⟨r, hr, he⟩ := List.any_eq_true.mp hany
  exact ⟨_, (Option.some_get isSome_relayedOverHttp).symm, r, hr,
    admitted_of_log (Machine.reachable_get isSome_relayedOverHttp) hr (of_decide_eq_true he)⟩

/-! ### What an ack settles -/

end Network

end Pincerbell
