import Pincerbell.Dedup
import Pincerbell.Provider
import Pincerbell.Support.Prog

/-!
# The gateway

The request pipelines of `gateway.rs`, as programs over the commands of one instance: what they
read and change under a lock, one lock at a time, and what they exchange with the outside.

* `Config`, `AppState` — what an instance is configured with.
* `Cmd` — the atomic steps.
* `deliverOne`, `queueOne` — the pipeline of one device.
* `notifyResponse` — the answer of `notify`, from what became of each device.
* `queuePoll`, `queueAck` — the endpoints of the queue side, for an authorized request.
-/

namespace Pincerbell

/-! ### Configuration -/

/-- `Duration::from_secs`, with nanoseconds as the unit of time. -/
def fromSecs (secs : ℕ) : Duration := secs * 1000000000

/-- The `[queue]` table. -/
structure QueueConfig where
  maxEntries : ℕ := 262144
  entryTtlSecs : ℕ := 3600
  leaseSecs : ℕ := 60
  rejectedTtlSecs : ℕ := 21600
  deriving DecidableEq, Repr

/-- The configuration file, as far as the pipelines depend on it. -/
structure Config where
  dedupTtlSecs : ℕ := 300
  dedupMaxEntries : ℕ := 65536
  rejectUnknownApps : Bool := false
  queue : Option QueueConfig := none
  deriving DecidableEq, Repr

/-- What the queue-side endpoints need. -/
structure QueueState where
  queue : NotificationQueue
  /-- Pairs reported invalid by the poll side: a cache with an empty event id. -/
  rejected : DedupCache
  deriving DecidableEq, Repr

/-- `QueueState::new`. -/
def QueueState.new (cfg : QueueConfig) : QueueState where
  queue := ⟨cfg.maxEntries, fromSecs cfg.entryTtlSecs, fromSecs cfg.leaseSecs⟩
  rejected := ⟨fromSecs cfg.rejectedTtlSecs, 65536⟩

/-- The immutable part of an instance. -/
structure AppState where
  config : Config
  providers : HashMap String Provider
  dedup : DedupCache
  /-- Queue mode: the fallback for devices without an explicit app entry. -/
  queue : Option QueueState

/-- `AppState::new`, for backends that have been built. -/
def AppState.new (config : Config) (providers : HashMap String Provider) : AppState where
  config := config
  providers := providers
  dedup := ⟨fromSecs config.dedupTtlSecs, config.dedupMaxEntries⟩
  queue := config.queue.map QueueState.new

/-! ### Messages of the relay -/

/-- Body of `POST /_pincerbell/v1/poll`. Its timeout only bounds the wait. -/
structure PollRequest where
  max : Option ℕ
  deriving DecidableEq, Repr

/-- A pushkey that the push service declared permanently invalid. -/
structure RejectedPushkey where
  appId : String
  pushkey : String
  deriving DecidableEq, Repr

/-- Body of `POST /_pincerbell/v1/ack`. -/
structure AckRequest where
  acked : List ℕ := []
  rejectedPushkeys : List RejectedPushkey := []
  deriving DecidableEq, Repr

/-! ### Atomic steps -/

/-- One atomic step of a pipeline. -/
inductive Cmd
  /-- `QueueState::is_rejected`. -/
  | isRejected (appId pushkey : String)
  /-- `DedupCache::is_duplicate`. -/
  | isDuplicate (eventId appId pushkey : String)
  /-- `Provider::deliver`. -/
  | deliver (provider : Provider) (n : Notification) (device : Device)
  /-- `NotificationQueue::enqueue`. -/
  | enqueue (n : Notification) (device : Device)
  /-- `DedupCache::record`. -/
  | record (eventId appId pushkey : String)
  /-- `QueueState::report_rejected`. -/
  | reportRejected (appId pushkey : String)
  /-- `NotificationQueue::take_at`. -/
  | takeAt (max : ℕ)
  /-- `NotificationQueue::ack`. -/
  | ack (ids : List ℕ)
  /-- Answer a poll request. -/
  | respond (entries : List PollEntry)
  /-- Send a poll request and wait for its answer. -/
  | poll (max : ℕ)
  /-- Send an ack request and wait for its answer. -/
  | sendAck (req : AckRequest)

/-- What a step returns. -/
abbrev Cmd.Res : Cmd → Type
  | isRejected _ _ => Bool
  | isDuplicate _ _ _ => Bool
  | deliver _ _ _ => Answers
  | enqueue _ _ => Except String Unit
  | record _ _ _ => Unit
  | reportRejected _ _ => Unit
  | takeAt _ => List PollEntry
  | ack _ => Unit
  | respond _ => Unit
  | poll _ => Except String (List PollEntry)
  | sendAck _ => Except String Unit

/-- A pipeline. -/
abbrev Pipeline := Prog Cmd Cmd.Res

namespace Pipeline

abbrev isRejected (appId pushkey : String) : Pipeline Bool :=
  Prog.perform (Cmd.isRejected appId pushkey)

abbrev isDuplicate (eventId appId pushkey : String) : Pipeline Bool :=
  Prog.perform (Cmd.isDuplicate eventId appId pushkey)

abbrev deliver (provider : Provider) (n : Notification) (device : Device) : Pipeline Answers :=
  Prog.perform (Cmd.deliver provider n device)

abbrev enqueue (n : Notification) (device : Device) : Pipeline (Except String Unit) :=
  Prog.perform (Cmd.enqueue n device)

abbrev record (eventId appId pushkey : String) : Pipeline Unit :=
  Prog.perform (Cmd.record eventId appId pushkey)

abbrev reportRejected (appId pushkey : String) : Pipeline Unit :=
  Prog.perform (Cmd.reportRejected appId pushkey)

abbrev takeAt (max : ℕ) : Pipeline (List PollEntry) := Prog.perform (Cmd.takeAt max)

abbrev ack (ids : List ℕ) : Pipeline Unit := Prog.perform (Cmd.ack ids)

abbrev respond (entries : List PollEntry) : Pipeline Unit := Prog.perform (Cmd.respond entries)

end Pipeline

/-! ### Delivering to one device -/

/-- What became of one device. -/
inductive Disposition
  | fine
  | reject (pushkey : String)
  | transient
  deriving DecidableEq, Repr

/-- The duplicate check. Count-only notifications always pass. -/
def suppressed (n : Notification) (device : Device) : Pipeline Bool :=
  match n.eventId with
  | some eventId => Pipeline.isDuplicate eventId device.appId device.pushkey
  | none => return false

/-- Record a success for later duplicate checks. -/
def recordSuccess (n : Notification) (device : Device) : Pipeline Unit :=
  match n.eventId with
  | some eventId => Pipeline.record eventId device.appId device.pushkey
  | none => return ()

/-- Queue-mode path for one device: rejection feedback, duplicate suppression, then enqueue. -/
def queueOne (n : Notification) (device : Device) : Pipeline Disposition := do
  -- the notify response is the only channel that reaches the homeserver
  if ← Pipeline.isRejected device.appId device.pushkey then return .reject device.pushkey
  else if ← suppressed n device then return .fine
  else
    match ← Pipeline.enqueue n device with
    -- queued counts as delivered
    | .ok _ => do
      recordSuccess n device
      return .fine
    | .error _ => return .transient

/-- The full pipeline for one device. -/
def deliverOne (crates : Crates) (state : AppState) (n : Notification) (device : Device) :
    Pipeline Disposition :=
  match state.providers.lookup device.appId with
  | none =>
    match state.queue with
    -- only the poll side knows the real list of apps
    | some _ => queueOne n device
    | none => if state.config.rejectUnknownApps then return .reject device.pushkey else return .fine
  | some provider => do
    -- suppressed is a success, the pushkey is valid
    if ← suppressed n device then return .fine
    else
      let answers ← Pipeline.deliver provider n device
      match provider.deliver crates device answers with
      | .delivered => do
        recordSuccess n device
        return .fine
      | .rejected => return .reject device.pushkey
      | .skipped => return .fine
      | .transient _ => return .transient

/-- The pushkey that a disposition rejects. -/
def Disposition.rejected? : Disposition → Option String
  | reject pushkey => some pushkey
  | _ => none

/-- The answer of `notify`: a transient failure fails the whole request, otherwise the rejected
pushkeys are listed. -/
def notifyResponse (dispositions : List Disposition) : Except (ℕ × String) (List String) :=
  let transient := dispositions.countP (· = .transient)
  if 0 < transient then
    .error (502, toString transient ++ " deliveries failed transiently, please retry")
  else .ok (dispositions.filterMap Disposition.rejected?)

/-! ### The queue side's endpoints -/

/-- `poll_wait`, woken up `wakeups` times before its timeout. -/
def pollWait (max : ℕ) : ℕ → Pipeline (List PollEntry)
  | 0 => Pipeline.takeAt max
  | wakeups + 1 => do
    let batch ← Pipeline.takeAt max
    if batch.isEmpty then pollWait max wakeups else return batch

/-- `POST /_pincerbell/v1/poll`. -/
def queuePoll (req : PollRequest) (wakeups : ℕ) : Pipeline Unit := do
  let max := min (Nat.max (req.max.getD 100) 1) 1000
  let entries ← pollWait max wakeups
  Pipeline.respond entries

/-- The report loop of `queue_ack`. -/
def reportAll : List RejectedPushkey → Pipeline Unit
  | [] => return ()
  | r :: rs => do
    Pipeline.reportRejected r.appId r.pushkey
    reportAll rs

/-- `POST /_pincerbell/v1/ack`. -/
def queueAck (req : AckRequest) : Pipeline Unit := do
  Pipeline.ack req.acked
  reportAll req.rejectedPushkeys

/-! ### What is queued -/

/-- The payload of a queue entry: the notification with the one device it is for. -/
def payload (n : Notification) (device : Device) : Value :=
  match n.toValue with
  | .object m => .object (Map.insert m "devices" (.array [device.toValue]))
  | v => v

/-- The coalescing key of a notification without an event. -/
def countKey (n : Notification) (device : Device) : Option CountKey :=
  if n.eventId.isNone then some (device.appId, device.pushkey) else none

/-- `NotificationQueue::enqueue`. -/
def NotificationQueue.enqueue (q : NotificationQueue) (now : Instant) (n : Notification)
    (device : Device) (inner : Inner) : Except String Unit × Inner :=
  (.ok (), q.enqueueAt now (payload n device) (countKey n device) inner)

/-- What a queue entry decodes to has one device. -/
theorem devices_of_fromValue_payload {n n' : Notification} {device : Device}
    (h : Notification.fromValue (payload n device) = some n') :
    ∃ device', n'.devices = [device'] := by
  obtain ⟨m, hm⟩ : ∃ m, payload n device =
      .object (Map.insert m "devices" (.array [device.toValue])) := ⟨_, rfl⟩
  rw [hm] at h
  obtain ⟨devices, hdevices, h⟩ := Option.bind_eq_some_iff.mp h
  -- the other fields do not matter
  have hsame : n'.devices = devices := by
    iterate 11 obtain ⟨_, -, h⟩ := Option.bind_eq_some_iff.mp h
    obtain rfl := Option.some_inj.mp h
    rfl
  simp only [Map.get_insert_self] at hdevices
  cases hd : Device.fromValue device.toValue with
  | none => simp [Value.decodeArray, hd] at hdevices
  | some d =>
    refine ⟨d, ?_⟩
    rw [hsame]
    simpa [Value.decodeArray, hd, eq_comm] using hdevices

end Pincerbell
