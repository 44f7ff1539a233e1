import Mathlib.Data.List.Sort
import Pincerbell.Api
import Pincerbell.Support.HashMap

/-!
# The queue side's ring buffer

The state and the operations of `NotificationQueue` in `queue.rs`. An enqueued entry waits in
`pending`; a poll leases it, and the lease ends with an acknowledgement or at its deadline, when
the next poll puts the entry back in front of `pending`. Count-only entries coalesce per device:
`countIndex` names the newest one of each key, and the others are dropped when they surface.

An `Instant` is the number of time units since some origin, so that the subtraction of `ℕ` is
`Instant::duration_since`, which saturates at zero. An entry id is a `u64` counter in the source;
no run comes near its end, and the model counts in `ℕ`.

* `enqueueAt`, `takeAt`, `ack` — the three operations, each under the queue's lock.
* `evict`, `reclaim`, `fetch` — the bodies of their loops.
-/

namespace Pincerbell

/-- `std::time::Instant`, counted from some origin. -/
abbrev Instant := ℕ

/-- `std::time::Duration`, in the unit of `Instant`. -/
abbrev Duration := ℕ

/-- One queued notification as the poll endpoint returns it. -/
structure PollEntry where
  id : ℕ
  notification : Value
  deriving Repr

/-- The coalescing key of a count-only notification: `(app_id, pushkey)`. -/
abbrev CountKey := String × String

/-- A queued notification with exactly one device. -/
structure Entry where
  id : ℕ
  enqueued : Instant
  payload : Value
  /-- Set for count-only notifications. -/
  countKey : Option CountKey
  deriving Repr

/-- What the poll endpoint returns of an entry. -/
def Entry.toPollEntry (entry : Entry) : PollEntry := ⟨entry.id, entry.payload⟩

/-- The mutable part of the queue, everything behind its lock. -/
structure Inner where
  nextId : ℕ := 0
  pending : List Entry := []
  /-- Id of the newest count-only entry per key. -/
  countIndex : HashMap CountKey ℕ := ∅
  /-- Polled but not yet acknowledged entries, with their lease deadline. -/
  leased : HashMap ℕ (Instant × Entry) := ∅

/-- The immutable part of the queue. -/
structure NotificationQueue where
  maxEntries : ℕ
  entryTtl : Duration
  lease : Duration
  deriving DecidableEq, Repr

/-- A stale count-only entry has been superseded by a newer badge state. -/
def isLive (countIndex : HashMap CountKey ℕ) (entry : Entry) : Bool :=
  match entry.countKey with
  | some k => countIndex.lookup k == some entry.id
  | none => true

/-- Drop the count-index mapping if this entry still owns it. -/
def forgetCountKey (countIndex : HashMap CountKey ℕ) (entry : Entry) : HashMap CountKey ℕ :=
  match entry.countKey with
  | some k => if countIndex.lookup k = some entry.id then countIndex.erase k else countIndex
  | none => countIndex

namespace NotificationQueue

variable (q : NotificationQueue)

/-- The eviction loop of `enqueueAt`: pop the oldest entries while the buffer is full. -/
def evict (countIndex : HashMap CountKey ℕ) : List Entry → List Entry × HashMap CountKey ℕ
  | [] => ([], countIndex)
  | dropped :: rest =>
    if q.maxEntries ≤ (dropped :: rest).length then
      if isLive countIndex dropped then evict (forgetCountKey countIndex dropped) rest
      else evict countIndex rest
    else (dropped :: rest, countIndex)

/-- Append one entry, after superseding an older count-only entry of its key and making room. -/
def enqueueAt (now : Instant) (payload : Value) (countKey : Option CountKey) (inner : Inner) :
    Inner :=
  let id := inner.nextId
  -- an older count-only entry of the key becomes stale, and is dropped when it surfaces
  let countIndex :=
    match countKey with
    | some k => inner.countIndex.insert k id
    | none => inner.countIndex
  let (pending, countIndex) := q.evict countIndex inner.pending
  { inner with
    nextId := id + 1
    pending := pending ++ [⟨id, now, payload, countKey⟩]
    countIndex }

/-- The ids whose lease has ended, in descending order. -/
def expiredIds (now : Instant) (inner : Inner) : List ℕ :=
  ((inner.leased.entries.filter fun l => l.2.1 ≤ now).map (·.1)).insertionSort (· ≥ ·)

/-- One turn of the reclaim loop of `takeAt`: end the lease of `id` and put its entry back in
front, unless it is stale or too old. The id comes from the iteration over the leases, so the
first case does not arise. -/
def reclaim (now : Instant) (inner : Inner) (id : ℕ) : Inner :=
  match inner.leased.lookup id with
  | none => inner
  | some (_, entry) =>
    let inner := { inner with leased := inner.leased.erase id }
    -- superseded while it was leased: it owns no mapping that could be forgotten
    if !isLive inner.countIndex entry then inner
    else if q.entryTtl ≤ now - entry.enqueued then
      { inner with countIndex := forgetCountKey inner.countIndex entry }
    else { inner with pending := entry :: inner.pending }

/-- The hand-out loop of `takeAt`: pop from the front until the batch is full. Popped entries are
dropped when stale or too old, and leased otherwise. -/
def fetch (now : Instant) (max : ℕ) :
    List Entry → List PollEntry → Inner → List PollEntry × Inner
  | [], batch, inner => (batch, { inner with pending := [] })
  | entry :: rest, batch, inner =>
    if batch.length < max then
      -- stale and expired entries do not count towards the batch
      if !isLive inner.countIndex entry then fetch now max rest batch inner
      else if q.entryTtl ≤ now - entry.enqueued then
        fetch now max rest batch
          { inner with countIndex := forgetCountKey inner.countIndex entry }
      else
        fetch now max rest (batch ++ [entry.toPollEntry])
          { inner with leased := inner.leased.insert entry.id (now + q.lease, entry) }
    else (batch, { inner with pending := entry :: rest })

/-- Non-waiting fetch: reclaim expired leases, then lease and return up to `max` entries. -/
def takeAt (now : Instant) (max : ℕ) (inner : Inner) : List PollEntry × Inner :=
  -- in descending order, so that pushing to the front leaves the lowest id first
  let inner := (expiredIds now inner).foldl (q.reclaim now) inner
  q.fetch now max inner.pending [] inner

end NotificationQueue

/-- One turn of the loop of `ack`. -/
def ackOne (inner : Inner) (id : ℕ) : Inner :=
  match inner.leased.lookup id with
  | some (_, entry) =>
    { inner with
      leased := inner.leased.erase id
      countIndex := forgetCountKey inner.countIndex entry }
  | none => inner

/-- Settle leased entries; unknown ids are ignored. -/
def ack (ids : List ℕ) (inner : Inner) : Inner := ids.foldl ackOne inner

end Pincerbell
