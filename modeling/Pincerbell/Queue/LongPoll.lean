import Pincerbell.Gateway
import Pincerbell.Queue.Invariant
import Pincerbell.Support.History

/-!
# The long poll

`poll_wait` and `enqueue` in their atomic steps, for any number of calls of both, interleaved in any
way. A poller registers a waiter, takes, and parks when it got nothing; an enqueuer pushes under the
lock and then notifies. `Notify::notify_waiters` signals the waiters that are registered at that
moment, and nobody else.

* `LongPoll.State`, `LongPoll.Label`, `LongPoll.step` — the system.
* `LongPoll.Effect` — what each step requires and does; the other facts about a step follow from it.
* `LongPoll.Waits`, `LongPoll.Calls` — what the pollers and the enqueue calls have done in a run.
* `LongPoll.no_lost_wakeup` — a parked poller that is not signalled has only been overtaken by
  pushes whose notification is still to come.
-/

namespace Pincerbell

namespace LongPoll

/-! ### The system -/

/-- Where a call of `poll_wait` is. A waiter carries whether it has been signalled. -/
inductive Poller
  /-- Not called. -/
  | idle
  /-- At the top of the loop. The waiter of the last turn is dropped. -/
  | loop (max : ℕ)
  /-- The waiter is registered. -/
  | enabled (max : ℕ) (signalled : Bool)
  /-- `take_at` found nothing. -/
  | checked (max : ℕ) (signalled : Bool)
  /-- In `select!`. -/
  | parked (max : ℕ) (signalled : Bool)
  | returned (batch : List PollEntry)

/-- Where a call of `enqueue` is. -/
inductive EnqueueCall
  /-- Not called. -/
  | idle
  /-- The payload is built. -/
  | started (n : Notification) (device : Device)
  /-- The entry is in the queue. -/
  | pushed
  /-- The waiters are notified. -/
  | returned

/-- The queue and all the calls on it. -/
structure State where
  inner : Inner := {}
  pollers : ℕ → Poller := fun _ => .idle
  enqueues : ℕ → EnqueueCall := fun _ => .idle

/-- The atomic steps. -/
inductive Label
  /-- A call of `poll_wait`. -/
  | pollWait (p max : ℕ)
  /-- `notified` and `enable`. -/
  | register (p : ℕ)
  /-- `take_at`, under the lock. -/
  | takeAt (p : ℕ) (now : Instant)
  /-- The poller enters `select!`. -/
  | park (p : ℕ)
  /-- `select!` ends with the signal. -/
  | wake (p : ℕ)
  /-- `select!` ends at the deadline. -/
  | timeout (p : ℕ)
  /-- A call of `enqueue`. -/
  | enqueue (e : ℕ) (n : Notification) (device : Device)
  /-- `enqueue_at`, under the lock. -/
  | push (e : ℕ) (now : Instant)
  /-- `notify_waiters`, with which the call returns. -/
  | notifyWaiters (e : ℕ)
  /-- `ack`, under the lock. -/
  | ack (ids : List ℕ)

/-- What `notify_waiters` does to a poller: it signals a registered waiter. -/
def Poller.signal : Poller → Poller
  | .enabled max _ => .enabled max true
  | .checked max _ => .checked max true
  | .parked max _ => .parked max true
  | poller => poller

namespace State

/-- Move one poller. -/
def setPoller (s : State) (p : ℕ) (poller : Poller) : State :=
  { s with pollers := Function.update s.pollers p poller }

/-- Move one enqueue call. -/
def setEnqueue (s : State) (e : ℕ) (call : EnqueueCall) : State :=
  { s with enqueues := Function.update s.enqueues e call }

variable (s : State) (p p' e e' : ℕ) (poller : Poller) (call : EnqueueCall)

@[simp]
theorem pollers_setPoller :
    (s.setPoller p poller).pollers p' = if p' = p then poller else s.pollers p' :=
  Function.update_apply s.pollers p poller p'

@[simp]
theorem enqueues_setPoller : (s.setPoller p poller).enqueues = s.enqueues := rfl

@[simp]
theorem inner_setPoller : (s.setPoller p poller).inner = s.inner := rfl

@[simp]
theorem enqueues_setEnqueue :
    (s.setEnqueue e call).enqueues e' = if e' = e then call else s.enqueues e' :=
  Function.update_apply s.enqueues e call e'

@[simp]
theorem pollers_setEnqueue : (s.setEnqueue e call).pollers = s.pollers := rfl

@[simp]
theorem inner_setEnqueue : (s.setEnqueue e call).inner = s.inner := rfl

end State

/-- One atomic step, if it is possible. -/
def step (q : NotificationQueue) (s : State) : Label → Option State
  | .pollWait p max =>
    match s.pollers p with
    | .idle => some (s.setPoller p (.loop max))
    | _ => none
  | .register p =>
    match s.pollers p with
    | .loop max => some (s.setPoller p (.enabled max false))
    | _ => none
  | .takeAt p now =>
    match s.pollers p with
    | .enabled max signalled =>
      let (batch, inner) := q.takeAt now max s.inner
      -- a batch is returned, and an empty one is waited for
      some <| { s with inner }.setPoller p <|
        if batch.isEmpty then .checked max signalled else .returned batch
    | _ => none
  | .park p =>
    match s.pollers p with
    | .checked max signalled => some (s.setPoller p (.parked max signalled))
    | _ => none
  | .wake p =>
    match s.pollers p with
    | .parked max true => some (s.setPoller p (.loop max))
    | _ => none
  | .timeout p =>
    match s.pollers p with
    | .parked _ _ => some (s.setPoller p (.returned []))
    | _ => none
  | .enqueue e n device =>
    match s.enqueues e with
    | .idle => some (s.setEnqueue e (.started n device))
    | _ => none
  | .push e now =>
    match s.enqueues e with
    | .started n device =>
      some ({ s with inner := (q.enqueue now n device s.inner).2 }.setEnqueue e .pushed)
    | _ => none
  | .notifyWaiters e =>
    match s.enqueues e with
    | .pushed =>
      some ({ s with pollers := fun p => (s.pollers p).signal }.setEnqueue e .returned)
    | _ => none
  | .ack ids => some { s with inner := ack ids s.inner }

variable {q : NotificationQueue} {s s' : State} {l : Label} {labels : List Label} {p e : ℕ}

/-! ### One step -/

/-- What a step requires and what it does. -/
def Effect (q : NotificationQueue) (s s' : State) : Label → Prop
  | .pollWait p max => s.pollers p = .idle ∧ s' = s.setPoller p (.loop max)
  | .register p => ∃ max, s.pollers p = .loop max ∧ s' = s.setPoller p (.enabled max false)
  | .takeAt p now => ∃ max signalled poller, s.pollers p = .enabled max signalled ∧
      s' = { s with inner := (q.takeAt now max s.inner).2 }.setPoller p poller
  | .park p => ∃ max signalled, s.pollers p = .checked max signalled ∧
      s' = s.setPoller p (.parked max signalled)
  | .wake p => ∃ max, s.pollers p = .parked max true ∧ s' = s.setPoller p (.loop max)
  | .timeout p => ∃ max signalled, s.pollers p = .parked max signalled ∧
      s' = s.setPoller p (.returned [])
  | .enqueue e n device => s.enqueues e = .idle ∧ s' = s.setEnqueue e (.started n device)
  | .push e now => ∃ n device, s.enqueues e = .started n device ∧
      s' = { s with inner := (q.enqueue now n device s.inner).2 }.setEnqueue e .pushed
  | .notifyWaiters e => s.enqueues e = .pushed ∧
      s' = { s with pollers := fun p => (s.pollers p).signal }.setEnqueue e .returned
  | .ack ids => s' = { s with inner := ack ids s.inner }

/-- Every step has its effect. -/
theorem effect_of_step (hstep : step q s l = some s') : Effect q s s' l := by
  cases l with
  | ack ids =>
    cases hstep
    rfl
  | pollWait p max | enqueue e n device | notifyWaiters e =>
    simp only [step] at hstep
    split at hstep
    next hpc =>
      cases hstep
      exact ⟨hpc, rfl⟩
    next => cases hstep
  | register p | wake p =>
    simp only [step] at hstep
    split at hstep
    next max hpc =>
      cases hstep
      exact ⟨max, hpc, rfl⟩
    next => cases hstep
  | park p | timeout p =>
    simp only [step] at hstep
    split at hstep
    next max signalled hpc =>
      cases hstep
      exact ⟨max, signalled, hpc, rfl⟩
    next => cases hstep
  | takeAt p now =>
    simp only [step] at hstep
    split at hstep
    next max signalled hpc =>
      cases hstep
      exact ⟨max, signalled, _, hpc, rfl⟩
    next => cases hstep
  | push e now =>
    simp only [step] at hstep
    split at hstep
    next n device hpc =>
      cases hstep
      exact ⟨n, device, hpc, rfl⟩
    next => cases hstep

/-- The poller has taken since it registered its waiter, and the waiter has not been signalled. -/
def Poller.awaits : Poller → Bool
  | .checked _ signalled => !signalled
  | .parked _ signalled => !signalled
  | _ => false

/-- After a signal nobody awaits one. -/
@[simp]
theorem Poller.awaits_signal (poller : Poller) : poller.signal.awaits = false := by
  cases poller <;> rfl

/-- Moving a poller, but not to a place where it starts to await a signal. -/
theorem awaits_of_setPoller {poller : Poller} {p' : ℕ}
    (hpoller : poller.awaits = true → (s.pollers p').awaits = true)
    (hp : ((s.setPoller p' poller).pollers p).awaits = true) : (s.pollers p).awaits = true := by
  rw [State.pollers_setPoller] at hp
  split at hp
  next heq =>
    rw [heq]
    exact hpoller hp
  next => exact hp

/-- A poller awaits a signal when the step was its take, or when it did so before and the step was
neither a take of its own nor a notification. -/
theorem awaits_step (hstep : step q s l = some s') (hp : (s'.pollers p).awaits = true) :
    (∃ now, l = .takeAt p now) ∨
      ((s.pollers p).awaits = true ∧ (∀ now, l ≠ .takeAt p now) ∧
        ∀ e, l ≠ .notifyWaiters e) := by
  have heffect := effect_of_step hstep
  cases l with
  | takeAt p' now =>
    by_cases hself : p = p'
    · exact Or.inl ⟨now, by rw [hself]⟩
    · obtain ⟨max, signalled, poller, -, rfl⟩ := heffect
      refine Or.inr ⟨?_, by simp [Ne.symm hself], by simp⟩
      simpa [hself] using hp
  | notifyWaiters e =>
    -- everybody has been signalled
    obtain ⟨-, rfl⟩ := heffect
    simp at hp
  | park p' =>
    obtain ⟨max, signalled, hpc, rfl⟩ := heffect
    exact Or.inr ⟨awaits_of_setPoller (by rw [hpc]; exact id) hp, by simp, by simp⟩
  | pollWait p' max =>
    obtain ⟨-, rfl⟩ := heffect
    exact Or.inr ⟨awaits_of_setPoller (by simp [Poller.awaits]) hp, by simp, by simp⟩
  | register p' | wake p' =>
    obtain ⟨max, -, rfl⟩ := heffect
    exact Or.inr ⟨awaits_of_setPoller (by simp [Poller.awaits]) hp, by simp, by simp⟩
  | timeout p' =>
    obtain ⟨max, signalled, -, rfl⟩ := heffect
    exact Or.inr ⟨awaits_of_setPoller (by simp [Poller.awaits]) hp, by simp, by simp⟩
  | enqueue e n device =>
    obtain ⟨-, rfl⟩ := heffect
    exact Or.inr ⟨hp, by simp, by simp⟩
  | push e now =>
    obtain ⟨n, device, -, rfl⟩ := heffect
    exact Or.inr ⟨hp, by simp, by simp⟩
  | ack ids =>
    obtain rfl := heffect
    exact Or.inr ⟨hp, by simp, by simp⟩

/-- How a step moves an enqueue call. -/
theorem enqueues_step (hstep : step q s l = some s') (e : ℕ) :
    (∃ n device, l = .enqueue e n device ∧ s.enqueues e = .idle ∧
      s'.enqueues e = .started n device) ∨
    (∃ now n device, l = .push e now ∧ s.enqueues e = .started n device ∧
      s'.enqueues e = .pushed) ∨
    (l = .notifyWaiters e ∧ s.enqueues e = .pushed ∧ s'.enqueues e = .returned) ∨
    (s'.enqueues e = s.enqueues e ∧ (∀ n device, l ≠ .enqueue e n device) ∧
      (∀ now, l ≠ .push e now) ∧ l ≠ .notifyWaiters e) := by
  have heffect := effect_of_step hstep
  cases l with
  | enqueue e' n device =>
    obtain ⟨hpc, rfl⟩ := heffect
    by_cases hself : e = e'
    · subst hself
      exact Or.inl ⟨n, device, rfl, hpc, by simp⟩
    · simp [hself, Ne.symm hself]
  | push e' now =>
    obtain ⟨n, device, hpc, rfl⟩ := heffect
    by_cases hself : e = e'
    · subst hself
      exact Or.inr (Or.inl ⟨now, n, device, rfl, hpc, by simp⟩)
    · simp [hself, Ne.symm hself]
  | notifyWaiters e' =>
    obtain ⟨hpc, rfl⟩ := heffect
    by_cases hself : e = e'
    · subst hself
      exact Or.inr (Or.inr (Or.inl ⟨rfl, hpc, by simp⟩))
    · simp [hself, Ne.symm hself]
  -- the steps of the pollers, and acknowledgements
  | pollWait p max =>
    obtain ⟨-, rfl⟩ := heffect
    simp
  | register p | wake p =>
    obtain ⟨max, -, rfl⟩ := heffect
    simp
  | park p | timeout p =>
    obtain ⟨max, signalled, -, rfl⟩ := heffect
    simp
  | takeAt p now =>
    obtain ⟨max, signalled, poller, -, rfl⟩ := heffect
    simp
  | ack ids =>
    obtain rfl := heffect
    simp

/-! ### Runs -/

/-- The state after a list of steps from the start, if they are possible. -/
def run (q : NotificationQueue) (labels : List Label) : Option State :=
  History.run (step q) {} labels

/-- Since the last take of the poller nobody has notified. -/
def Waits (labels : List Label) (p : ℕ) : Prop :=
  ∃ pre now post, labels = pre ++ .takeAt p now :: post ∧
    (∀ now', .takeAt p now' ∉ post) ∧ ∀ e, .notifyWaiters e ∉ post

/-- A poller that awaits a signal waits since its last take. -/
theorem waits_of_awaits (hrun : run q labels = some s) (hp : (s.pollers p).awaits = true) :
    Waits labels p := by
  revert hp
  refine History.run_induction (P := fun labels s => (s.pollers p).awaits = true → Waits labels p)
    (by simp [Poller.awaits]) ?_ hrun
  intro labels s l s' ih hstep hp
  rcases awaits_step hstep hp with ⟨now, rfl⟩ | ⟨hbefore, htake, hnotify⟩
  · exact ⟨labels, now, [], rfl, by simp, by simp⟩
  · -- it waited before, and the step does not end that
    obtain ⟨pre, now, post, rfl, htakes, hnotifies⟩ := ih hbefore
    refine ⟨pre, now, post ++ [l], by simp, ?_, ?_⟩
    · intro now' hmem
      rcases List.mem_append.mp hmem with hmem | hmem
      · exact htakes now' hmem
      · exact htake now' (List.mem_singleton.mp hmem).symm
    · intro e hmem
      rcases List.mem_append.mp hmem with hmem | hmem
      · exact hnotifies e hmem
      · exact hnotify e (List.mem_singleton.mp hmem).symm

/-- What an enqueue call has done: it has notified exactly when it has returned, it is not idle once
it has pushed, and it notifies after it has pushed. -/
structure Calls (labels : List Label) (s : State) : Prop where
  notified : ∀ e, .notifyWaiters e ∈ labels ↔ s.enqueues e = .returned
  called : ∀ e now, .push e now ∈ labels → s.enqueues e = .pushed ∨ s.enqueues e = .returned
  ordered : ∀ pre e now post, labels = pre ++ .push e now :: post → .notifyWaiters e ∉ pre

/-- The calls of a run. -/
theorem calls_of_run (hrun : run q labels = some s) : Calls labels s := by
  refine History.run_induction (P := Calls) ⟨by simp, by simp, by simp⟩ ?_ hrun
  intro labels s l s' ih hstep
  constructor
  case notified =>
    intro e
    rw [List.mem_append, List.mem_singleton, ih.notified]
    rcases enqueues_step hstep e with ⟨n, device, rfl, hpc, hpc'⟩ |
      ⟨now, n, device, rfl, hpc, hpc'⟩ | ⟨rfl, hpc, hpc'⟩ | ⟨heq, -, -, hne⟩
    · simp [hpc, hpc']
    · simp [hpc, hpc']
    · simp [hpc']
    · simp [heq, Ne.symm hne]
  case called =>
    intro e now hmem
    rw [List.mem_append, List.mem_singleton] at hmem
    rcases enqueues_step hstep e with ⟨n, device, rfl, hpc, hpc'⟩ |
      ⟨now', n, device, rfl, hpc, hpc'⟩ | ⟨rfl, hpc, hpc'⟩ | ⟨heq, -, hne, -⟩
    · simpa [hpc] using ih.called e now (hmem.resolve_right (by simp))
    · exact Or.inl hpc'
    · exact Or.inr hpc'
    · rw [heq]
      exact ih.called e now (hmem.resolve_right fun h => hne now h.symm)
  case ordered =>
    intro pre e now post heq
    rcases History.concat_eq_append_cons_iff.mp heq with ⟨rfl, rfl, -⟩ | ⟨post', -, heq⟩
    · -- a call that pushes now has not returned before
      intro hmem
      have hreturned := (ih.notified e).mp hmem
      rcases enqueues_step hstep e with ⟨_, _, hl, -, -⟩ | ⟨_, _, _, -, hpc, -⟩ | ⟨hl, -, -⟩ |
        ⟨-, -, hne, -⟩
      · cases hl
      · rw [hreturned] at hpc
        cases hpc
      · cases hl
      · exact hne now rfl
    · exact ih.ordered pre e now post' heq

/-- In any interleaving of polls and enqueues: when a poller is parked and its waiter has not been
signalled, then every enqueue that has pushed since the last take of the poller has yet to notify;
and if every enqueue call has returned, nothing has been pushed since. -/
theorem no_lost_wakeup (q : NotificationQueue) (labels : List Label) (s : State) (p max : ℕ)
    (hrun : run q labels = some s) (hparked : s.pollers p = .parked max false) :
    ∃ pre now post, labels = pre ++ .takeAt p now :: post ∧
      (∀ now', .takeAt p now' ∉ post) ∧
      (∀ e now', .push e now' ∈ post → .notifyWaiters e ∉ labels) ∧
      ((∀ e, s.enqueues e = .idle ∨ s.enqueues e = .returned) →
        ∀ e now', .push e now' ∉ post) := by
  have hcalls := calls_of_run hrun
  have hawaits : (s.pollers p).awaits = true := by rw [hparked]; rfl
  obtain ⟨pre, now, post, rfl, htakes, hnotifies⟩ := waits_of_awaits hrun hawaits
  have hpending : ∀ e now', .push e now' ∈ post →
      .notifyWaiters e ∉ pre ++ .takeAt p now :: post := by
    intro e now' hmem hnotified
    obtain ⟨mid, rest, rfl⟩ := List.append_of_mem hmem
    -- it did not notify before its push, nor since the take
    have hbefore : Label.notifyWaiters e ∉ pre ++ .takeAt p now :: mid :=
      hcalls.ordered _ e now' rest (by simp)
    rcases List.mem_append.mp hnotified with hpre | hpost
    · exact hbefore (List.mem_append_left _ hpre)
    · rcases List.mem_cons.mp hpost with heq | hpost
      · cases heq
      · exact hnotifies e hpost
  refine ⟨pre, now, post, rfl, htakes, hpending, ?_⟩
  intro hreturned e now' hmem
  have hnot := hpending e now' hmem
  rw [hcalls.notified] at hnot
  have hpushed := hcalls.called e now' (by simp [hmem])
  rcases hreturned e with hidle | hdone
  · simp [hidle] at hpushed
  · exact hnot hdone

/-- A poller checks and finds nothing; then an enqueue pushes, and the poller parks before the
enqueue notifies. -/
def pushedBetween : List Label :=
  let device : Device := { appId := "app", pushkey := "key" }
  [.pollWait 0 10, .register 0, .takeAt 0 5, .enqueue 0 { devices := [device] } device, .push 0 6,
    .park 0]

/-- In that interleaving the notification is still to come. -/
theorem no_lost_wakeup_between :
    ∃ s, run ⟨10, 3600, 60⟩ pushedBetween = some s ∧ s.pollers 0 = .parked 10 false ∧
      ∃ pre now post, pushedBetween = pre ++ .takeAt 0 now :: post ∧
        ∀ e now', .push e now' ∈ post → .notifyWaiters e ∉ pushedBetween := by
  have hparked : (run ⟨10, 3600, 60⟩ pushedBetween).map (fun s => s.pollers 0) =
      some (.parked 10 false) := rfl
  obtain ⟨s, hrun, hpc⟩ := Option.map_eq_some_iff.mp hparked
  obtain ⟨pre, now, post, heq, -, hpending, -⟩ := no_lost_wakeup _ _ s 0 10 hrun hpc
  exact ⟨s, hrun, hpc, pre, now, post, heq, hpending⟩

end LongPoll

end Pincerbell
