import Pincerbell.Dedup.Window
import Pincerbell.Deployment
import Pincerbell.Gateway.Endpoints

/-!
# What the log of a deployment tells

The steps at an instance are in the log, so its caches and its queue are those after a run of the
operations in the log, and every message in the network comes from a step in the log.

* `gather` — what the steps at an instance do to one of its parts.
* `dedup_eq`, `rejected_eq`, `queue_eq` — the parts of an instance.
* `responses_eq`, `acks_eq`, `exists_of_mem_acks` — the messages.
* `BranchStep`, `always_branchStep` — which steps a request consists of.
-/

namespace Pincerbell

/-- The recording in the duplicate cache that a step is. -/
def Cmd.recorded? (now : Instant) : Cmd → Option (Instant × Key)
  | .record eventId appId pushkey => some (now, eventId, appId, pushkey)
  | _ => none

/-- The recording in the cache of rejected pairs that a step is. -/
def Cmd.reported? (now : Instant) : Cmd → Option (Instant × Key)
  | .reportRejected appId pushkey => some (now, rejectedKey appId pushkey)
  | _ => none

/-- The operation on the queue that a step is. -/
def Cmd.op? (now : Instant) : Cmd → Option Op
  | .enqueue n device => some (.enqueueAt now (payload n device) (countKey n device))
  | .takeAt max => some (.takeAt now max)
  | .ack ids => some (.ack ids)
  | _ => none

namespace AppState

variable (state : AppState) (now : Instant) (l : Locks) (c : Cmd)

theorem dedup_lockEffect :
    (state.lockEffect now l c).dedup =
      (c.recorded? now).elim l.dedup fun r => state.dedup.recordAt r.1 r.2 l.dedup := by
  cases c with
  | record eventId appId pushkey => rfl
  | _ => cases hq : state.queue <;> simp [lockEffect, Cmd.recorded?, hq]

theorem queue_lockEffect_of_none (hq : state.queue = none) :
    (state.lockEffect now l c).queue = l.queue := by
  cases c <;> simp [lockEffect, hq]

variable {q : QueueState} (hq : state.queue = some q)

include hq

theorem rejected_lockEffect :
    (state.lockEffect now l c).rejected =
      (c.reported? now).elim l.rejected fun r => q.rejected.recordAt r.1 r.2 l.rejected := by
  cases c <;> simp [lockEffect, Cmd.reported?, hq]

theorem queue_lockEffect :
    (state.lockEffect now l c).queue = (c.op? now).elim l.queue (q.queue.step l.queue) := by
  cases c <;> simp [lockEffect, Cmd.op?, hq, NotificationQueue.step, NotificationQueue.enqueue]

end AppState

namespace Deployment

open Prog (Event Always Returns Chained Steps)

variable {ι : Type} [DecidableEq ι] {D : Deployment ι} {s : State ι} {i j : ι}

/-! ### The parts of an instance -/

/-- What the steps at an instance are, for one of its parts. -/
def gather {β : Type} (f : Instant → Cmd → Option β) (i : ι) (log : List (Step ι)) : List β :=
  log.filterMap fun r => if r.request.inst = i then f r.time r.event.1.2 else none

@[simp]
theorem gather_append {β : Type} (f : Instant → Cmd → Option β) (i : ι) (log log' : List (Step ι)) :
    gather f i (log ++ log') = gather f i log ++ gather f i log' :=
  List.filterMap_append

theorem gather_singleton {β : Type} (f : Instant → Cmd → Option β) {r : Step ι}
    (hr : r.request.inst = i) : gather f i [r] = (f r.time r.event.1.2).toList := by
  rw [gather, List.filterMap_cons, if_pos hr]
  cases f r.time r.event.1.2 <;> rfl

theorem mem_gather {β : Type} {f : Instant → Cmd → Option β} {log : List (Step ι)} {b : β} :
    b ∈ gather f i log ↔ ∃ r ∈ log, r.request.inst = i ∧ f r.time r.event.1.2 = some b := by
  simp [gather]

/-- A part of an instance that the steps change as `f` says is the result of their run. -/
theorem locks_eq (h : D.machine.Reachable s) {β γ : Type} (part : Locks → γ)
    (f : Instant → Cmd → Option β) (g : γ → β → γ)
    (hpart : ∀ now l c,
      part ((D.app i).lockEffect now l c) = (f now c).elim (part l) (g (part l))) :
    part (s.shared.locks i) = (gather f i s.log).foldl g (part {}) := by
  induction h with
  | start => rfl
  | arrive _ _ ih => exact ih
  | @perform s call k b now input c fn res shared _ _ _ hexec ih =>
    obtain ⟨res, -, heq⟩ := Option.map_eq_some_iff.mp hexec
    cases heq
    rw [Machine.performed, gather_append, List.foldl_append, ← ih]
    show part (Function.update s.shared.locks call.request.inst _ i) = _
    -- a step at `i` is gathered, a step at another instance is neither gathered nor seen
    by_cases hi : call.request.inst = i
    · subst hi
      rw [Function.update_self, hpart]
      cases hf : f now c.2 <;> simp [gather, hf]
    · rw [Function.update_of_ne (Ne.symm hi)]
      simp [gather, hi]

/-- The recordings in the duplicate cache of an instance. -/
abbrev dedupLog (i : ι) (log : List (Step ι)) : List (Instant × Key) := gather Cmd.recorded? i log

/-- The recordings in the cache of rejected pairs of an instance. -/
abbrev reportLog (i : ι) (log : List (Step ι)) : List (Instant × Key) := gather Cmd.reported? i log

/-- The operations on the queue of an instance. -/
abbrev queueLog (i : ι) (log : List (Step ι)) : List Op := gather Cmd.op? i log

theorem dedup_eq (h : D.machine.Reachable s) :
    (s.shared.locks i).dedup = (D.app i).dedup.after (dedupLog i s.log) :=
  locks_eq h Locks.dedup Cmd.recorded? (fun inner r => (D.app i).dedup.recordAt r.1 r.2 inner)
    fun now l c => (D.app i).dedup_lockEffect now l c

theorem rejected_eq (h : D.machine.Reachable s) {q : QueueState} (hq : (D.app i).queue = some q) :
    (s.shared.locks i).rejected = q.rejected.after (reportLog i s.log) :=
  locks_eq h Locks.rejected Cmd.reported? (fun inner r => q.rejected.recordAt r.1 r.2 inner)
    fun now l c => (D.app i).rejected_lockEffect now l c hq

theorem queue_eq (h : D.machine.Reachable s) {q : QueueState} (hq : (D.app i).queue = some q) :
    (s.shared.locks i).queue = q.queue.run (queueLog i s.log) :=
  locks_eq h Locks.queue Cmd.op? q.queue.step fun now l c => (D.app i).queue_lockEffect now l c hq

/-- An instance that is not in queue mode has an empty queue. -/
theorem queue_eq_empty (h : D.machine.Reachable s) (hq : (D.app i).queue = none) :
    (s.shared.locks i).queue = {} := by
  have hfold := locks_eq h (β := Empty) Locks.queue (fun _ _ => none) (fun inner _ => inner)
    fun now l c => (D.app i).queue_lockEffect_of_none now l c hq
  simpa [gather] using hfold

/-! ### Time -/

/-- The clock of an instance never goes back. -/
def Timed (i : ι) (log : List (Step ι)) : Prop :=
  Machine.Timed (log.filter fun r => r.request.inst = i)

instance (i : ι) (log : List (Step ι)) : Decidable (Timed i log) :=
  inferInstanceAs (Decidable (Machine.Timed _))

theorem Timed.sublist {log log' : List (Step ι)} (h : Timed i log') (hsub : log.Sublist log') :
    Timed i log :=
  List.Pairwise.sublist (hsub.filter _) h

/-- A step at an instance is no earlier than those before it. -/
theorem Timed.time_le {pre post : List (Step ι)} {r r' : Step ι}
    (h : Timed r.request.inst (pre ++ r :: post)) (hr' : r' ∈ pre)
    (hinst : r'.request.inst = r.request.inst) : r'.time ≤ r.time := by
  rw [Timed, List.filter_append, List.filter_cons_of_pos (by simp)] at h
  exact Machine.Timed.time_le h (by simp [hr', hinst])

/-- What is gathered with the times of the steps is in the order of the clock. -/
theorem Timed.sorted_gather {log : List (Step ι)} (h : Timed i log)
    {f : Instant → Cmd → Option (Instant × Key)} (hf : ∀ now c r, f now c = some r → r.1 = now) :
    DedupCache.Sorted (gather f i log) := by
  rw [DedupCache.Sorted, gather, List.pairwise_filterMap]
  rw [Timed, Machine.Timed, List.pairwise_filter] at h
  refine h.imp fun {r r'} hle b hb b' hb' => ?_
  rw [Option.ite_none_right_eq_some] at hb hb'
  rw [hf _ _ _ hb.2, hf _ _ _ hb'.2]
  exact hle (decide_eq_true hb.1) (decide_eq_true hb'.1)

/-- What is gathered before a step is no later than it. -/
theorem Timed.gather_le {pre post : List (Step ι)} {r : Step ι}
    (h : Timed r.request.inst (pre ++ r :: post)) {f : Instant → Cmd → Option (Instant × Key)}
    (hf : ∀ now c r, f now c = some r → r.1 = now) {b : Instant × Key}
    (hb : b ∈ gather f r.request.inst pre) : b.1 ≤ r.time := by
  obtain ⟨r', hr', hinst, hfr⟩ := mem_gather.mp hb
  rw [hf _ _ _ hfr]
  exact h.time_le hr' hinst

theorem fst_of_reported? (now : Instant) (c : Cmd) (r : Instant × Key)
    (h : c.reported? now = some r) : r.1 = now := by
  cases c <;> cases h
  rfl

/-! ### The messages -/

theorem responses_eq (h : D.machine.Reachable s) :
    s.shared.responses = s.log.flatMap fun r => responded r.request r.event.1.2 := by
  induction h with
  | start => rfl
  | arrive _ _ ih => exact ih
  | perform _ _ _ hexec ih =>
    obtain ⟨res, -, heq⟩ := Option.map_eq_some_iff.mp hexec
    cases heq
    simp [Machine.performed, effect, ih]

theorem acks_eq (h : D.machine.Reachable s) :
    s.shared.acks = s.log.flatMap fun r => acknowledged r.request r.event.1.2 := by
  induction h with
  | start => rfl
  | arrive _ _ ih => exact ih
  | perform _ _ _ hexec ih =>
    obtain ⟨res, -, heq⟩ := Option.map_eq_some_iff.mp hexec
    cases heq
    simp [Machine.performed, effect, ih]

/-- Every ack request in the network was sent by a poll cycle. -/
theorem exists_of_mem_acks (h : D.machine.Reachable s) {req : AckRequest}
    (hreq : (j, req) ∈ s.shared.acks) :
    ∃ r ∈ s.log, r.request.upstream? = some j ∧ r.event.1.2 = .sendAck req := by
  rw [acks_eq h, List.mem_flatMap] at hreq
  obtain ⟨r, hr, hmem⟩ := hreq
  refine ⟨r, hr, ?_⟩
  unfold acknowledged at hmem
  split at hmem
  next heq =>
    obtain ⟨k, hk, hpair⟩ := List.mem_map.mp hmem
    cases hpair
    exact ⟨Option.mem_toList.mp hk, heq⟩
  next => cases hmem

/-- An ack request that has arrived was sent. -/
theorem mem_acks_of_mem_calls (h : D.machine.Reachable s)
    {call : Call ι}
    (hcall : call ∈ s.calls) {req : AckRequest} (hreq : call.request = .queueAck j req) :
    (j, req) ∈ s.shared.acks := by
  -- the network keeps what is in it, so that an ack is still there later
  have hold := h.of_mem_calls
    (P := fun r x => ∀ j req, r = .queueAck j req → (j, req) ∈ x.acks) ?_ ?_ hcall
  · exact hold j req hreq
  · rintro r x hready j req rfl
    exact of_decide_eq_true hready
  · intro r r' now c input x res x' hexec hmem j req hr
    obtain ⟨res, -, heq⟩ := Option.map_eq_some_iff.mp hexec
    cases heq
    exact List.mem_append_left _ (hmem j req hr)

/-! ### The steps of a request -/

variable (D) in
/-- The steps of a request. -/
def BranchStep : Request ι → List MarkedEvent → Option ℕ × Cmd → Prop
  | .notify i n, _, c => c.1 = none ∧ ∃ device ∈ n.devices, DeviceStep (D.app i) n device c.2
  | .pollOnce i _ maxBatch, t, c => CycleStep (D.app i) maxBatch t c
  | .queuePoll _ _ _, t, c => PollStep (t.map Event.untag) c.2
  | .queueAck _ req, t, c => AckStep req (t.map Event.untag) c.2

omit [DecidableEq ι] in
/-- A response answers with what was taken before. -/
theorem BranchStep.of_respond {r : Request ι} {t : List MarkedEvent} {x : Option ℕ}
    {entries : List PollEntry} (h : D.BranchStep r t (x, .respond entries)) :
    ∃ max, ⟨.takeAt max, entries⟩ ∈ t.map Event.untag := by
  cases r with
  | notify i n =>
    obtain ⟨-, device, -, hstep⟩ := h
    exact hstep.elim
  | pollOnce i j m =>
    cases h with
    | entry _ hentry =>
      obtain ⟨_, _, _, _, _, _, _, hstep⟩ := hentry
      exact hstep.elim
  | queuePoll i req wakeups =>
    cases h with
    | respond hmem => exact ⟨_, hmem⟩
  | queueAck i req => cases h

omit [DecidableEq ι] in
/-- An ack is that of an ack request, and its first step. -/
theorem BranchStep.of_ack {r : Request ι} {t : List MarkedEvent} {x : Option ℕ}
    {ids : List ℕ} (h : D.BranchStep r t (x, .ack ids)) :
    ∃ j req, r = .queueAck j req ∧ ids = req.acked ∧ t = [] := by
  cases r with
  | notify i n =>
    obtain ⟨-, device, -, hstep⟩ := h
    exact hstep.elim
  | pollOnce i j m =>
    cases h with
    | entry _ hentry =>
      obtain ⟨_, _, _, _, _, _, _, hstep⟩ := hentry
      exact hstep.elim
  | queuePoll i req wakeups => cases h
  | queueAck i req =>
    cases h with
    | ack hnil => exact ⟨i, req, rfl, rfl, List.map_eq_nil_iff.mp hnil⟩

omit [DecidableEq ι] in
/-- Only an instance in queue mode queues. -/
theorem BranchStep.of_enqueue {r : Request ι} {t : List MarkedEvent} {x : Option ℕ}
    {n : Notification} {device : Device} (h : D.BranchStep r t (x, .enqueue n device)) :
    (D.app r.inst).queue.isSome := by
  cases r with
  | notify i n =>
    obtain ⟨-, device, -, hstep⟩ := h
    exact hstep.1
  | pollOnce i j m =>
    cases h with
    | entry _ hentry =>
      obtain ⟨_, _, _, _, _, _, _, hstep⟩ := hentry
      exact hstep.1
  | queuePoll i req wakeups => cases h
  | queueAck i req => cases h

theorem always_branchStep (r : Request ι) :
    ∀ p ∈ D.machine.branches r, p.Always fun t e => D.BranchStep r t e.1 := by
  intro p hp
  -- one pipeline for each kind of request, and one for each device of a notification
  cases r with
  | notify i n =>
    obtain ⟨device, hdevice, rfl⟩ := List.mem_map.mp hp
    refine (Prog.always_tag_iff.mpr ?_).map _
    exact always_deviceStep_deliverOne.mono fun _ _ he => ⟨rfl, device, hdevice, he⟩
  | pollOnce i j maxBatch =>
    obtain rfl := List.mem_singleton.mp hp
    exact always_cycleStep_pollOnce.map _
  | queuePoll i req wakeups =>
    obtain rfl := List.mem_singleton.mp hp
    refine (Prog.always_tag_iff.mpr ?_).map _
    refine (always_pollStep_queuePoll req wakeups).mono fun t e he => ?_
    simp only [BranchStep, Event.map_untag_map_tag]
    exact he
  | queueAck i req =>
    obtain rfl := List.mem_singleton.mp hp
    refine (Prog.always_tag_iff.mpr ?_).map _
    refine (always_ackStep_queueAck req).mono fun t e he => ?_
    simp only [BranchStep, Event.map_untag_map_tag]
    exact he

/-- The steps of a request are linked. -/
theorem chained_branches (r : Request ι) :
    ∀ p ∈ D.machine.branches r, p.Chained (MarkedLinked D.crates) (MarkedQuiet D.crates) none := by
  have hnone : MarkedQuiet D.crates none := by rintro e ⟨⟩
  intro p hp
  cases r with
  | notify i n =>
    obtain ⟨device, -, rfl⟩ := List.mem_map.mp hp
    exact (chained_tag_deliverOne hnone none).map _
  | pollOnce i j maxBatch =>
    obtain rfl := List.mem_singleton.mp hp
    exact chained_pollOnce.map _
  | queuePoll i req wakeups =>
    obtain rfl := List.mem_singleton.mp hp
    exact (chained_tag none (chained_queuePoll quiet_none) hnone).map _
  | queueAck i req =>
    obtain rfl := List.mem_singleton.mp hp
    exact (chained_tag none (chained_queueAck quiet_none) hnone).map _

/-! ### Single steps -/

variable {pre post : List (Step ι)} {r : Step ι}

/-- A logged step is one that its request can take. -/
theorem branchStep_of_log (h : D.machine.Reachable s) (hlog : s.log = pre ++ r :: post) :
    D.BranchStep r.request (Machine.trace r.call r.branch pre) r.event.1 :=
  h.always (P := fun req t e => D.BranchStep req t e.1) always_branchStep hlog

/-- A logged step is linked to the one before it in its branch. -/
theorem linked_of_log (h : D.machine.Reachable s) (hlog : s.log = pre ++ r :: post) :
    MarkedLinked D.crates (Machine.trace r.call r.branch pre).getLast? r.event :=
  h.always (P := fun _ t e => MarkedLinked D.crates t.getLast? e)
    (fun r p hp => (chained_branches r p hp).always.mono fun t e he => by simpa using he) hlog

/-- A logged step had the answer that the state before it gives. -/
theorem answer_of_log (h : D.machine.Reachable s) (hlog : s.log = pre ++ r :: post) :
    ∃ s₀ input, D.machine.Reachable s₀ ∧ s₀.log = pre ∧
      D.answer r.request r.time s₀.shared r.event.1.2 input = some r.event.2 := by
  obtain ⟨s₀, call, input, f, shared, hs₀, hpre, -, -, -, hexec⟩ := h.exists_perform hlog
  obtain ⟨res, hres, heq⟩ := Option.map_eq_some_iff.mp hexec
  cases heq
  exact ⟨s₀, input, hs₀, hpre, hres⟩

/-- The answer of a duplicate check. -/
theorem isDuplicate_of_log (h : D.machine.Reachable s) (hlog : s.log = pre ++ r :: post) {key : Key}
    {duplicate : Bool} (hr : r.event.untag = checkOf duplicate key) :
    (D.app r.request.inst).dedup.isDuplicateAt r.time key
      ((D.app r.request.inst).dedup.after (dedupLog r.request.inst pre)) = duplicate := by
  obtain ⟨s₀, input, hs₀, rfl, hanswer⟩ := answer_of_log h hlog
  obtain ⟨req, call, branch, now, ⟨x, c⟩, res⟩ := r
  cases hr
  rw [← dedup_eq hs₀]
  cases input <;> exact Option.some_inj.mp hanswer

/-- The answer of the check for rejected pairs. -/
theorem isRejected_of_log (h : D.machine.Reachable s) (hlog : s.log = pre ++ r :: post)
    {q : QueueState} (hq : (D.app r.request.inst).queue = some q) {appId pushkey : String}
    {rejected : Bool} (hr : r.event.untag = ⟨.isRejected appId pushkey, rejected⟩) :
    q.rejected.isDuplicateAt r.time (rejectedKey appId pushkey)
      (q.rejected.after (reportLog r.request.inst pre)) = rejected := by
  obtain ⟨s₀, input, hs₀, rfl, hanswer⟩ := answer_of_log h hlog
  obtain ⟨req, call, branch, now, ⟨x, c⟩, res⟩ := r
  cases hr
  rw [← rejected_eq hs₀ hq]
  -- whatever the input is, the answer is found behind the locks
  have hlock : (D.app req.inst).lockAnswer now (s₀.shared.locks req.inst)
      (.isRejected appId pushkey) = some res := by
    cases input <;> exact hanswer
  rw [AppState.lockAnswer, hq] at hlock
  exact Option.some_inj.mp hlock

/-- What was taken from a queue. -/
theorem takeAt_of_log (h : D.machine.Reachable s) (hlog : s.log = pre ++ r :: post) {max : ℕ}
    {entries : List PollEntry} (hr : r.event.untag = ⟨.takeAt max, entries⟩) :
    ∃ q, (D.app r.request.inst).queue = some q ∧
      entries = q.queue.batch (queueLog r.request.inst pre) r.time max := by
  obtain ⟨s₀, input, hs₀, rfl, hanswer⟩ := answer_of_log h hlog
  obtain ⟨req, call, branch, now, ⟨x, c⟩, res⟩ := r
  cases hr
  have hlock : (D.app req.inst).lockAnswer now (s₀.shared.locks req.inst) (.takeAt max) =
      some res := by
    cases input <;> exact hanswer
  obtain ⟨q, hq, rfl⟩ := Option.map_eq_some_iff.mp hlock
  exact ⟨q, hq, by rw [NotificationQueue.batch, ← queue_eq hs₀ hq]⟩

/-- What a poll fetched is a response of its upstream. -/
theorem poll_of_log (h : D.machine.Reachable s) (hlog : s.log = pre ++ r :: post) {max : ℕ}
    {entries : List PollEntry} (hr : r.event.untag = ⟨.poll max, .ok entries⟩) :
    ∃ j, r.request.upstream? = some j ∧
      ∃ r' ∈ pre, r'.request.inst = j ∧ r'.event.1.2 = .respond entries := by
  obtain ⟨s₀, input, hs₀, rfl, hanswer⟩ := answer_of_log h hlog
  obtain ⟨req, call, branch, now, ⟨x, c⟩, res⟩ := r
  cases hr
  cases input with
  | response k =>
    simp only [answer] at hanswer
    split at hanswer
    -- the response was in the network, and a step has put it there
    next j entries' hk =>
      split at hanswer
      next hup =>
        cases hanswer
        refine ⟨j, hup, ?_⟩
        have hmem := List.mem_of_getElem? hk
        rw [responses_eq hs₀, List.mem_flatMap] at hmem
        obtain ⟨r', hr', hmem⟩ := hmem
        unfold responded at hmem
        split at hmem
        next heq =>
          cases List.mem_singleton.mp hmem
          exact ⟨r', hr', rfl, heq⟩
        next => cases hmem
      next => cases hanswer
    next => cases hanswer
  | failure e => cases hanswer
  | _ => cases hanswer

/-! ### Recordings and successes -/

/-- A recording belongs to a step of the log. -/
theorem exists_of_mem_dedupLog {log : List (Step ι)} {t : Instant} {key : Key}
    (h : (t, key) ∈ dedupLog i log) :
    ∃ r ∈ log, r.request.inst = i ∧ r.time = t ∧ r.event.untag = recordOf key := by
  obtain ⟨r, hr, hinst, hrec⟩ := mem_gather.mp h
  refine ⟨r, hr, hinst, ?_⟩
  obtain ⟨req, k, b, now, ⟨x, c⟩, res⟩ := r
  cases c with
  | record eventId appId pushkey =>
    cases hrec
    exact ⟨rfl, rfl⟩
  | _ => cases hrec

/-- A record comes after the success that it records. -/
theorem success_of_record (h : D.machine.Reachable s) (hlog : s.log = pre ++ r :: post) {key : Key}
    (hr : r.event.untag = recordOf key) :
    ∃ r' ∈ pre, r'.request = r.request ∧ successOf D.crates r'.event.untag = some key := by
  obtain ⟨e, hlast, -, hs⟩ := (linked_of_log h hlog).record key hr
  obtain ⟨r', hr', hk, -, rfl⟩ := Machine.mem_trace.mp (List.mem_of_getLast? hlast)
  refine ⟨r', hr', ?_, hs⟩
  exact h.tracks.request_inj (by simp [hlog, hr']) (by simp [hlog]) hk

/-- A duplicate repeats a success at the same instance. -/
theorem success_of_duplicate (h : D.machine.Reachable s) (hlog : s.log = pre ++ r :: post)
    {key : Key} (hr : r.event.untag = checkOf true key) :
    ∃ r' ∈ pre, r'.request.inst = r.request.inst ∧
      successOf D.crates r'.event.untag = some key := by
  -- the key was recorded, and what is recorded is a success
  obtain ⟨t, hl, -⟩ := DedupCache.isDuplicateAt_iff.mp (isDuplicate_of_log h hlog hr)
  obtain ⟨r₁, hr₁, hinst, -, hrec⟩ := exists_of_mem_dedupLog (DedupCache.mem_of_lookup_after hl)
  obtain ⟨pre', post', rfl⟩ := List.append_of_mem hr₁
  have hlog' : s.log = pre' ++ r₁ :: (post' ++ r :: post) := by simpa using hlog
  obtain ⟨r', hr', hreq, hs⟩ := success_of_record h hlog' hrec
  exact ⟨r', List.mem_append_left _ hr', by rw [hreq, hinst], hs⟩

variable (D) in
/-- A push service has accepted the notification of the step. -/
def Delivered (r : Step ι) (key : Key) : Prop :=
  ∃ provider n device answers, r.event.untag = ⟨.deliver provider n device, answers⟩ ∧
    provider.deliver D.crates device answers = .delivered ∧ dedupKey n device = some key

/-- At an instance without a queue, a success is a delivery. -/
theorem delivered_of_success (h : D.machine.Reachable s) (hlog : s.log = pre ++ r :: post)
    {key : Key} (hs : successOf D.crates r.event.untag = some key)
    (hqueue : (D.app r.request.inst).queue = none) : D.Delivered r key := by
  have hstep := branchStep_of_log h hlog
  obtain ⟨req, k, b, now, ⟨x, c⟩, res⟩ := r
  cases c with
  | deliver provider n device =>
    simp only [Event.untag, successOf] at hs
    split at hs
    next hdelivered => exact ⟨provider, n, device, res, rfl, hdelivered, hs⟩
    next => cases hs
  | enqueue n device =>
    have hsome := hstep.of_enqueue
    rw [hqueue] at hsome
    cases hsome
  | _ => cases hs

end Deployment

end Pincerbell
