import Mathlib.Logic.Function.Basic
import Pincerbell.Poller
import Pincerbell.Queue.Invariant
import Pincerbell.Support.Machine

/-!
# Instances and the network between them

A deployment is a family of instances. Each serves notify requests, runs poll cycles against
upstreams, and answers the polls and acks of other instances; all of that runs concurrently. The
network keeps every poll response and every ack request that was ever sent: a poll may get any
response that its upstream has sent so far, or none, and an ack request may arrive never, once or
often.

* `Locks` — what an instance keeps behind its locks.
* `Request` — what runs at an instance.
* `lockAnswer`, `lockEffect` — a step at an instance.
* `Deployment.machine` — all instances and the network.
-/

namespace Pincerbell

/-! ### One instance -/

/-- The mutable part of an instance. -/
structure Locks where
  dedup : DedupCache.Inner := {}
  queue : Inner := {}
  rejected : DedupCache.Inner := {}

/-- The cache key under which a pair is reported and looked up. -/
def rejectedKey (appId pushkey : String) : Key := ("", appId, pushkey)

namespace AppState

variable (state : AppState) (now : Instant) (l : Locks)

/-- What a step at an instance returns. A step on the queue needs queue mode, and a step that waits
for someone else has no answer here. -/
def lockAnswer : (c : Cmd) → Option c.Res
  | .isRejected appId pushkey =>
    state.queue.map fun q => q.rejected.isDuplicateAt now (rejectedKey appId pushkey) l.rejected
  | .isDuplicate eventId appId pushkey =>
    some (state.dedup.isDuplicateAt now (eventId, appId, pushkey) l.dedup)
  | .enqueue n device => state.queue.map fun q => (q.queue.enqueue now n device l.queue).1
  | .record _ _ _ => some ()
  | .reportRejected _ _ => state.queue.map fun _ => ()
  | .takeAt max => state.queue.map fun q => (q.queue.takeAt now max l.queue).1
  | .ack _ => state.queue.map fun _ => ()
  | .respond _ => some ()
  | .deliver _ _ _ => none
  | .poll _ => none
  | .sendAck _ => none

/-- What a step at an instance changes behind its locks. -/
def lockEffect : Cmd → Locks
  | .enqueue n device =>
    match state.queue with
    | some q => { l with queue := (q.queue.enqueue now n device l.queue).2 }
    | none => l
  | .record eventId appId pushkey =>
    { l with dedup := state.dedup.recordAt now (eventId, appId, pushkey) l.dedup }
  | .reportRejected appId pushkey =>
    match state.queue with
    | some q =>
      { l with rejected := q.rejected.recordAt now (rejectedKey appId pushkey) l.rejected }
    | none => l
  | .takeAt max =>
    match state.queue with
    | some q => { l with queue := (q.queue.takeAt now max l.queue).2 }
    | none => l
  | .ack ids =>
    match state.queue with
    | some _ => { l with queue := Pincerbell.ack ids l.queue }
    | none => l
  | _ => l

end AppState

/-! ### Requests -/

/-- Something that runs at an instance. -/
inductive Request (ι : Type)
  /-- `POST /_matrix/push/v1/notify`. -/
  | notify (inst : ι) (n : Notification)
  /-- A cycle of the poll loop for an upstream. -/
  | pollOnce (inst upstream : ι) (maxBatch : ℕ)
  /-- `POST /_pincerbell/v1/poll`, woken up `wakeups` times. -/
  | queuePoll (inst : ι) (req : PollRequest) (wakeups : ℕ)
  /-- `POST /_pincerbell/v1/ack`. -/
  | queueAck (inst : ι) (req : AckRequest)

namespace Request

variable {ι : Type}

/-- The instance that the request runs at. -/
def inst : Request ι → ι
  | notify i _ => i
  | pollOnce i _ _ => i
  | queuePoll i _ _ => i
  | queueAck i _ => i

/-- The instance that a poll cycle talks to. -/
def upstream? : Request ι → Option ι
  | pollOnce _ upstream _ => some upstream
  | _ => none

end Request

/-- What a branch of a request ends with. -/
inductive Finished
  | device (d : Disposition)
  | cycle (result : Except String ℕ)
  | served

/-! ### The deployment -/

/-- What runs, and with which configuration. -/
structure Deployment (ι : Type) where
  crates : Crates
  config : ι → Config
  providers : ι → HashMap String Provider

/-- The instances' mutable parts and the messages that have been sent. -/
structure Shared (ι : Type) where
  locks : ι → Locks
  /-- Answers to polls, with the instance that gave them. -/
  responses : List (ι × List PollEntry)
  /-- Ack requests, with the instance they are for. -/
  acks : List (ι × AckRequest)

/-- What comes from outside. -/
inductive Input
  /-- Nothing is needed. -/
  | none
  /-- Of a push service. -/
  | answers (a : Answers)
  /-- The poll gets a response that was sent. -/
  | response (k : ℕ)
  /-- The poll fails. -/
  | failure (error : String)
  /-- The ack request is sent, with what its sender sees of it. -/
  | sent (result : Except String Unit)

namespace Deployment

variable {ι : Type} (D : Deployment ι)

/-- The immutable part of an instance. -/
def app (i : ι) : AppState := AppState.new (D.config i) (D.providers i)

/-- The result of a step, if the input admits it. -/
def answer [DecidableEq ι] (r : Request ι) (now : Instant) (s : Shared ι) :
    (c : Cmd) → Input → Option c.Res
  | .deliver _ _ _, .answers a => some a
  | .poll _, .response k =>
    match s.responses[k]? with
    | some (j, entries) => if r.upstream? = some j then some (.ok entries) else none
    | none => none
  | .poll _, .failure e => some (.error e)
  | .sendAck _, .sent result => some result
  | c, _ => (D.app r.inst).lockAnswer now (s.locks r.inst) c

/-- The poll response that a step sends. -/
def responded (r : Request ι) : Cmd → List (ι × List PollEntry)
  | .respond entries => [(r.inst, entries)]
  | _ => []

/-- The ack request that a step sends. -/
def acknowledged (r : Request ι) : Cmd → List (ι × AckRequest)
  | .sendAck req => r.upstream?.toList.map fun j => (j, req)
  | _ => []

/-- What a step changes. -/
def effect [DecidableEq ι] (r : Request ι) (now : Instant) (s : Shared ι) (c : Cmd) : Shared ι where
  locks := Function.update s.locks r.inst
    ((D.app r.inst).lockEffect now (s.locks r.inst) c)
  responses := s.responses ++ responded r c
  acks := s.acks ++ acknowledged r c

/-- What runs for a request: the devices of a notification concurrently, the rest in order. -/
def branches : Request ι → List (Prog (Option ℕ × Cmd) (fun c => c.2.Res) Finished)
  | .notify i n => n.devices.map fun device =>
    Finished.device <$> (deliverOne D.crates (D.app i) n device).tag none
  | .pollOnce i _ maxBatch => [Finished.cycle <$> pollOnce D.crates (D.app i) maxBatch]
  | .queuePoll _ req wakeups => [(fun _ => .served) <$> (queuePoll req wakeups).tag none]
  | .queueAck _ req => [(fun _ => .served) <$> (queueAck req).tag none]

/-- All instances and the network. -/
def machine [DecidableEq ι] :
    Machine (Request ι) (Shared ι) (Option ℕ × Cmd) (fun c => c.2.Res) Input Finished where
  init := ⟨fun _ => {}, [], []⟩
  -- an ack request that arrives has been sent
  ready r s :=
    match r with
    | .queueAck i req => decide ((i, req) ∈ s.acks)
    | _ => true
  branches := D.branches
  exec r now c input s := (D.answer r now s c.2 input).map fun res => (res, D.effect r now s c.2)

/-- A step in the log. -/
abbrev Step (ι : Type) := Machine.Record (Request ι) (Option ℕ × Cmd) fun c => c.2.Res

/-- A request that has arrived. -/
abbrev Call (ι : Type) := Machine.Call (Request ι) (Option ℕ × Cmd) (fun c => c.2.Res) Finished

/-- A state of the deployment. -/
abbrev State (ι : Type) :=
  Machine.State (Request ι) (Shared ι) (Option ℕ × Cmd) (fun c => c.2.Res) Finished

/-! ### An example -/

/-- The instances of the example. -/
inductive Side
  /-- The queue side. -/
  | queue
  /-- A poll side that knows no app and rejects its devices. -/
  | strict
  /-- A poll side that knows one app. -/
  | poll
  deriving DecidableEq

/-- A queue side and two poll sides. All other settings are the defaults. -/
def trio : Deployment Side where
  crates := ⟨fun _ => .error "", fun _ => .error "", fun _ => .error ""⟩
  config
    | .queue => { queue := some {} }
    | .strict => { rejectUnknownApps := true }
    | .poll => {}
  providers
    | .poll => AList.insert "app" .fcm ∅
    | _ => ∅

/-- A notification for the app. -/
def event : Notification where
  devices := [{ appId := "app", pushkey := "pk" }]
  eventId := some "$e"

/-- The push service answers with the given status. -/
def status (code : ℕ) : Input :=
  .answers ⟨.ok "token", .ok (), .ok [], .ok ⟨code, .ok ""⟩⟩

/-- The steps of queueing `event` and answering a poll with it. -/
def queued : List (Machine.Label (Request Side) Input) :=
  [.arrive (.notify .queue event), .perform 0 0 0 .none, .perform 0 0 0 .none, .perform 0 0 0 .none,
    .perform 0 0 0 .none,
    .arrive (.queuePoll .queue ⟨none⟩ 0), .perform 1 0 0 .none, .perform 1 0 0 .none]

end Deployment

end Pincerbell
