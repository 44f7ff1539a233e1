import Pincerbell.Deployment

/-!
# Restarting the queue side

A queue side keeps its buffer and its id counter in memory, so that a restart loses the entries and
starts to count from zero again. The poll loops go on: a cycle that polled one process may send its
ack to the next one, where the ids stand for other entries.

* `Relay`, `Label`, `step` — a queue side that may be restarted, and any number of poll cycles,
  whose acks may arrive never, late or often.
* `Relay.Inv` — what the messages of the running process are about.
* `AckSafe` — an ack settles only what its cycle has fetched and handled.
* `AckTimely` — an ack for an earlier process finds none of its ids leased.
* `acksSafe_iff` — a run is safe exactly when its acks are timely.
* `not_acksSafe` — a run that is not.
-/

namespace Pincerbell.Restart

open Deployment (event trio)

/-! ### The relay -/

/-- A cycle of a poll loop. -/
structure Cycle where
  crates : Crates
  state : AppState
  maxBatch : ℕ
  /-- What it has performed. -/
  trace : List MarkedEvent
  rest : Marked (Except String ℕ)
  /-- The process of the queue side that has answered its poll. -/
  process : Option ℕ

/-- The queue side, its network and its poll loops. -/
structure Relay where
  queue : Inner := {}
  /-- Which process of the queue side is running: the number of restarts. -/
  process : ℕ := 0
  /-- Answers to polls, with the process that gave them. -/
  responses : List (ℕ × List PollEntry) := []
  cycles : List Cycle := []
  /-- Ack requests, with the cycle that has sent them. -/
  acks : List (ℕ × AckRequest) := []

/-- What can happen. -/
inductive Label
  | enqueue (now : Instant) (n : Notification) (device : Device)
  /-- A poll request is answered. -/
  | takeAt (now : Instant) (max : ℕ)
  | restart
  | startCycle (crates : Crates) (state : AppState) (maxBatch : ℕ)
  /-- The poll of a cycle fails, or gets a response that was sent. -/
  | polled (cycle : ℕ) (result : Except String ℕ)
  /-- A cycle performs its next command; the results are those of its surroundings. -/
  | performed (cycle : ℕ) (results : (c : Cmd) → c.Res)
  /-- An ack request arrives. -/
  | acked (k : ℕ)

namespace Cycle

/-- A cycle that has just begun. -/
def start (crates : Crates) (state : AppState) (maxBatch : ℕ) : Cycle :=
  ⟨crates, state, maxBatch, [], pollOnce crates state maxBatch, none⟩

/-- The poll returns. -/
def polled (cycle : Cycle) (result : Except String (ℕ × List PollEntry)) : Option Cycle :=
  match cycle.rest with
  | .call (x, .poll max) f =>
    let res := result.map Prod.snd
    some { cycle with
      trace := cycle.trace ++ [⟨(x, .poll max), res⟩]
      rest := f res
      process := result.toOption.map Prod.fst }
  | _ => none

/-- The ack request that a command sends. -/
def sent : Cmd → List AckRequest
  | .sendAck req => [req]
  | _ => []

/-- Any other command, with the ack request that it sends. -/
def performed (cycle : Cycle) (results : (c : Cmd) → c.Res) : Option (Cycle × List AckRequest) :=
  match cycle.rest with
  | .call (_, .poll _) _ => none
  | .call c f =>
    let res := results c.2
    some ({ cycle with trace := cycle.trace ++ [⟨c, res⟩], rest := f res }, sent c.2)
  | .pure _ => none

end Cycle

/-- What a poll gets. -/
def Relay.response (s : Relay) : Except String ℕ → Option (Except String (ℕ × List PollEntry))
  | .error e => some (.error e)
  | .ok k => s.responses[k]?.map .ok

variable (q : NotificationQueue)

/-- One step, if it is possible. -/
def step (s : Relay) : Label → Option Relay
  | .enqueue now n device => some { s with queue := (q.enqueue now n device s.queue).2 }
  | .takeAt now max =>
    some { s with
      queue := (q.takeAt now max s.queue).2
      responses := s.responses ++ [(s.process, (q.takeAt now max s.queue).1)] }
  -- the buffer, the leases and the id counter are gone
  | .restart => some { s with queue := {}, process := s.process + 1 }
  | .startCycle crates state maxBatch =>
    some { s with cycles := s.cycles ++ [.start crates state maxBatch] }
  | .polled i result => do
    let cycle ← s.cycles[i]?
    let response ← s.response result
    let cycle ← cycle.polled response
    return { s with cycles := s.cycles.set i cycle }
  | .performed i results => do
    let cycle ← s.cycles[i]?
    let (cycle, reqs) ← cycle.performed results
    return { s with
      cycles := s.cycles.set i cycle
      acks := s.acks ++ reqs.map fun req => (i, req) }
  | .acked k => do
    let (_, req) ← s.acks[k]?
    return { s with queue := ack req.acked s.queue }

/-- The state after the given steps, if all of them are possible. -/
def run (labels : List Label) : Option Relay := labels.foldlM (step q) {}

/-! ### Cycles -/

/-- What a cycle has done: it runs `pollOnce`, and what it has fetched is a response of the process
that it notes. -/
structure Cycle.Sound (responses : List (ℕ × List PollEntry)) (cycle : Cycle) : Prop where
  steps : (pollOnce cycle.crates cycle.state cycle.maxBatch).Steps cycle.trace cycle.rest
  fetched : ∀ {x max entries}, ⟨(x, .poll max), .ok entries⟩ ∈ cycle.trace →
    ∃ p, cycle.process = some p ∧ (p, entries) ∈ responses

/-- The cycle has got to sending the ack request. -/
def Cycle.HasSent (cycle : Cycle) (req : AckRequest) : Prop :=
  ∃ t x f, t <+: cycle.trace ∧ (pollOnce cycle.crates cycle.state cycle.maxBatch).Steps t
    (Prog.call (x, .sendAck req) f)

/-- The cycle has gone on. -/
structure Cycle.Extends (cycle cycle' : Cycle) : Prop where
  crates : cycle'.crates = cycle.crates
  state : cycle'.state = cycle.state
  maxBatch : cycle'.maxBatch = cycle.maxBatch
  trace : cycle.trace <+: cycle'.trace

variable {responses responses' : List (ℕ × List PollEntry)} {cycle cycle' : Cycle}
  {req : AckRequest}

theorem Cycle.HasSent.extends (h : cycle.HasSent req) (he : cycle.Extends cycle') :
    cycle'.HasSent req := by
  obtain ⟨t, x, f, hsub, hsteps⟩ := h
  refine ⟨t, x, f, hsub.trans he.trace, ?_⟩
  rw [he.crates, he.state, he.maxBatch]
  exact hsteps

theorem Cycle.Sound.mono (h : cycle.Sound responses) (hsub : responses ⊆ responses') :
    cycle.Sound responses' where
  steps := h.steps
  fetched hmem := by
    obtain ⟨p, hp, hresponse⟩ := h.fetched hmem
    exact ⟨p, hp, hsub hresponse⟩

theorem Cycle.sound_start (crates : Crates) (state : AppState) (maxBatch : ℕ) :
    (Cycle.start crates state maxBatch).Sound responses where
  steps := .refl _
  fetched hmem := by cases hmem

/-- A cycle polls first. -/
theorem trace_of_poll {crates : Crates} {state : AppState} {maxBatch max : ℕ} {x : Option ℕ}
    {t : List MarkedEvent} {f : Except String (List PollEntry) → Marked (Except String ℕ)}
    (h : (pollOnce crates state maxBatch).Steps t (Prog.call (x, .poll max) f)) : t = [] := by
  -- a step for an entry is never a poll
  have hstep := always_cycleStep_pollOnce.of_steps (h.snoc (.error ""))
  cases hstep with
  | poll hnil => exact hnil
  | entry _ hentry =>
    obtain ⟨_, _, _, _, _, _, _, hstep⟩ := hentry
    cases hstep

/-- A cycle whose poll returns. -/
theorem Cycle.Sound.polled (h : cycle.Sound responses)
    {result : Except String (ℕ × List PollEntry)} (hpolled : cycle.polled result = some cycle')
    (hresult : ∀ p entries, result = .ok (p, entries) → (p, entries) ∈ responses) :
    cycle'.Sound responses ∧ cycle.Extends cycle' := by
  obtain ⟨crates, state, maxBatch, trace, rest, process⟩ := cycle
  unfold Cycle.polled at hpolled
  split at hpolled
  next x max f hrest =>
    cases hpolled
    obtain rfl : rest = Prog.call (x, .poll max) f := hrest
    obtain rfl : trace = [] := trace_of_poll h.steps
    refine ⟨⟨h.steps.snoc _, ?_⟩, rfl, rfl, rfl, List.nil_prefix⟩
    intro x' max' entries hmem
    -- the poll is all that has been performed
    obtain ⟨p, rfl⟩ : ∃ p, result = .ok (p, entries) := by
      have heq := List.mem_singleton.mp hmem
      cases result with
      | error e => cases heq
      | ok response =>
        cases heq
        exact ⟨response.1, rfl⟩
    exact ⟨p, rfl, hresult p entries rfl⟩
  next => cases hpolled

/-- A cycle that performs another command. -/
theorem Cycle.Sound.performed (h : cycle.Sound responses) {results : (c : Cmd) → c.Res}
    {reqs : List AckRequest} (hperformed : cycle.performed results = some (cycle', reqs)) :
    cycle'.Sound responses ∧ cycle.Extends cycle' ∧ ∀ req ∈ reqs, cycle'.HasSent req := by
  obtain ⟨crates, state, maxBatch, trace, rest, process⟩ := cycle
  unfold Cycle.performed at hperformed
  split at hperformed
  next => cases hperformed
  next c f hpoll hrest =>
    cases hperformed
    obtain rfl : rest = Prog.call c f := hrest
    refine ⟨⟨h.steps.snoc _, ?_⟩, ⟨rfl, rfl, rfl, List.prefix_append _ _⟩, ?_⟩
    · intro x max entries hmem
      rcases List.mem_append.mp hmem with hmem | hmem
      · exact h.fetched hmem
      · -- the command is no poll
        obtain rfl : (x, Cmd.poll max) = c := congrArg Sigma.fst (List.mem_singleton.mp hmem)
        exact (hpoll x max f rfl .rfl).elim
    · intro req hreq
      obtain ⟨x, c⟩ := c
      obtain rfl : c = .sendAck req := by
        unfold sent at hreq
        split at hreq
        next heq => exact heq.trans (congrArg _ (List.mem_singleton.mp hreq).symm)
        next => cases hreq
      exact ⟨trace, x, f, List.prefix_append _ _, h.steps⟩
  next => cases hperformed

/-! ### The messages of the running process -/

/-- The messages and the cycles are as they should be, and the queue is that of a run of its own
operations since the last restart. -/
structure Relay.Inv (q : NotificationQueue) (s : Relay) (ops : List Op) : Prop where
  queue : s.queue = q.run ops
  process_le : ∀ {p entries}, (p, entries) ∈ s.responses → p ≤ s.process
  enqueued : ∀ {entries entry}, (s.process, entries) ∈ s.responses → entry ∈ entries →
    ∃ e ∈ enqueued ops, e.toPollEntry = entry
  sound : ∀ cycle ∈ s.cycles, cycle.Sound s.responses
  sent : ∀ {i req}, (i, req) ∈ s.acks → ∃ cycle, s.cycles[i]? = some cycle ∧ cycle.HasSent req

variable {q} {s s' : Relay} {ops : List Op}

/-- A step of the queue, and what it answers. -/
theorem Relay.Inv.op (h : s.Inv q ops) (op : Op) {out : List (List PollEntry)}
    (hout : ∀ entries ∈ out, entries = q.output s.queue op) :
    Relay.Inv q { s with
      queue := q.step s.queue op
      responses := s.responses ++ out.map fun entries => (s.process, entries) } (ops ++ [op]) where
  queue := by rw [q.run_concat, ← h.queue]
  process_le hmem := by
    rcases List.mem_append.mp hmem with hmem | hmem
    · exact h.process_le hmem
    · obtain ⟨entries, -, heq⟩ := List.mem_map.mp hmem
      cases heq
      exact Nat.le_refl _
  enqueued hmem hentry := by
    rcases List.mem_append.mp hmem with hmem | hmem
    · obtain ⟨e, he, heq⟩ := h.enqueued hmem hentry
      exact ⟨e, NotificationQueue.mem_enqueued_append he, heq⟩
    · obtain ⟨entries, hentries, heq⟩ := List.mem_map.mp hmem
      cases heq
      rw [hout _ hentries, h.queue] at hentry
      obtain ⟨e, he, heq, -⟩ := q.of_mem_output hentry
      exact ⟨e, NotificationQueue.mem_enqueued_append he, heq⟩
  sound c hc := (h.sound c hc).mono (List.subset_append_left _ _)
  sent := h.sent

/-- A step of the queue that answers nothing. -/
theorem Relay.Inv.op_silent (h : s.Inv q ops) (op : Op) :
    Relay.Inv q { s with queue := q.step s.queue op } (ops ++ [op]) := by
  have hop := h.op op fun entries hmem => absurd hmem List.not_mem_nil
  rw [List.map_nil, List.append_nil] at hop
  exact hop

/-- A cycle that goes on. -/
theorem Relay.Inv.set (h : s.Inv q ops) {i : ℕ} (hcycle : s.cycles[i]? = some cycle)
    (hsound : cycle'.Sound s.responses) (he : cycle.Extends cycle') {reqs : List AckRequest}
    (hsent : ∀ req ∈ reqs, cycle'.HasSent req) :
    Relay.Inv q { s with
      cycles := s.cycles.set i cycle'
      acks := s.acks ++ reqs.map fun req => (i, req) } ops where
  queue := h.queue
  process_le := h.process_le
  enqueued := h.enqueued
  sound c hc := by
    rcases List.mem_or_eq_of_mem_set hc with hc | rfl
    · exact h.sound c hc
    · exact hsound
  sent := by
    intro k req hk
    have hlt : i < s.cycles.length := (List.getElem?_eq_some_iff.mp hcycle).1
    rcases List.mem_append.mp hk with hk | hk
    · obtain ⟨c, hc, hsent⟩ := h.sent hk
      -- an ack of this cycle, or of another one
      by_cases hik : i = k
      · subst hik
        cases hcycle.symm.trans hc
        exact ⟨cycle', List.getElem?_set_self hlt, hsent.extends he⟩
      · exact ⟨c, by rw [List.getElem?_set_ne hik, hc], hsent⟩
    · obtain ⟨req', hreq', heq⟩ := List.mem_map.mp hk
      cases heq
      exact ⟨cycle', List.getElem?_set_self hlt, hsent _ hreq'⟩

/-- One step keeps the invariant, for the operations since the last restart. -/
theorem Relay.Inv.step (h : s.Inv q ops) {label : Label} (hstep : step q s label = some s') :
    ∃ ops', s'.Inv q ops' := by
  cases label with
  | enqueue now n device =>
    cases hstep
    refine ⟨ops ++ [.enqueueAt now (payload n device) (countKey n device)], ?_⟩
    exact h.op_silent (.enqueueAt now (payload n device) (countKey n device))
  | takeAt now max =>
    cases hstep
    exact ⟨_, h.op (.takeAt now max) fun entries hmem => List.mem_singleton.mp hmem⟩
  | restart =>
    cases hstep
    refine ⟨[], rfl, fun hmem => Nat.le_succ_of_le (h.process_le hmem), ?_, h.sound, h.sent⟩
    -- the new process has not answered anything
    intro entries entry hmem
    exact absurd (h.process_le hmem) (Nat.not_succ_le_self _)
  | startCycle crates state maxBatch =>
    cases hstep
    refine ⟨ops, h.queue, h.process_le, h.enqueued, ?_, ?_⟩
    · intro c hc
      rcases List.mem_append.mp hc with hc | hc
      · exact h.sound c hc
      · rw [List.mem_singleton.mp hc]
        exact Cycle.sound_start crates state maxBatch
    · intro i req hmem
      obtain ⟨c, hc, hsent⟩ := h.sent hmem
      exact ⟨c, by rw [List.getElem?_append_left (List.getElem?_eq_some_iff.mp hc).1, hc], hsent⟩
  | polled i result =>
    obtain ⟨c, hc, hstep⟩ := Option.bind_eq_some_iff.mp hstep
    obtain ⟨response, hresponse, hstep⟩ := Option.bind_eq_some_iff.mp hstep
    obtain ⟨c', hc', hstep⟩ := Option.bind_eq_some_iff.mp hstep
    cases hstep
    have hmem : ∀ p entries, response = .ok (p, entries) → (p, entries) ∈ s.responses := by
      rintro p entries rfl
      cases result with
      | error e => cases hresponse
      | ok k =>
        obtain ⟨x, hx, heq⟩ := Option.map_eq_some_iff.mp hresponse
        cases heq
        exact List.mem_of_getElem? hx
    obtain ⟨hsound, he⟩ := (h.sound c (List.mem_of_getElem? hc)).polled hc' hmem
    refine ⟨ops, ?_⟩
    have hset := h.set hc hsound he fun req hreq => absurd hreq List.not_mem_nil
    rw [List.map_nil, List.append_nil] at hset
    exact hset
  | performed i results =>
    obtain ⟨c, hc, hstep⟩ := Option.bind_eq_some_iff.mp hstep
    obtain ⟨⟨c', reqs⟩, hc', hstep⟩ := Option.bind_eq_some_iff.mp hstep
    cases hstep
    obtain ⟨hsound, he, hsent⟩ := (h.sound c (List.mem_of_getElem? hc)).performed hc'
    exact ⟨ops, h.set hc hsound he hsent⟩
  | acked k =>
    obtain ⟨⟨i, req⟩, -, hstep⟩ := Option.bind_eq_some_iff.mp hstep
    cases hstep
    refine ⟨ops ++ [.ack req.acked], ?_⟩
    exact h.op_silent (.ack req.acked)

theorem Relay.Inv.foldlM (h : s.Inv q ops) {labels : List Label}
    (hrun : labels.foldlM (Restart.step q) s = some s') : ∃ ops', s'.Inv q ops' := by
  induction labels generalizing s ops with
  | nil =>
    cases hrun
    exact ⟨ops, h⟩
  | cons label labels ih =>
    rw [List.foldlM_cons] at hrun
    obtain ⟨s₁, hs₁, hrun⟩ := Option.bind_eq_some_iff.mp hrun
    obtain ⟨ops₁, h₁⟩ := h.step hs₁
    exact ih h₁ hrun

/-- The invariant holds after every run. -/
theorem Relay.inv_of_run {labels : List Label} (hrun : run q labels = some s) :
    ∃ ops, s.Inv q ops := by
  have hinit : Relay.Inv q {} [] := by constructor <;> simp [NotificationQueue.run]
  exact hinit.foldlM hrun

/-! ### What an ack settles -/

/-- The cycle has fetched the entry, and if the entry can be decoded, has handled its devices. -/
def Cycle.Processed (cycle : Cycle) (e : Entry) (req : AckRequest) : Prop :=
  (∃ entries, ⟨(none, .poll cycle.maxBatch), .ok entries⟩ ∈ cycle.trace ∧
    e.toPollEntry ∈ entries) ∧
  ∀ n, Notification.fromValue e.payload = some n → ∀ device ∈ n.devices,
    Handled cycle.crates cycle.state e.id n device cycle.trace req

/-- What the ack request `k` settles was handed out to its cycle by the running process, and the
cycle has processed it. -/
def AckSafe (s : Relay) (k : ℕ) : Prop :=
  ∀ i req, s.acks[k]? = some (i, req) → ∀ id ∈ req.acked, ∀ deadline e,
    s.queue.leased.lookup id = some (deadline, e) →
    ∃ cycle, s.cycles[i]? = some cycle ∧ cycle.process = some s.process ∧ cycle.Processed e req

/-- The ack request `k`, if its cycle polled an earlier process, finds none of its ids leased. -/
def AckTimely (s : Relay) (k : ℕ) : Prop :=
  ∀ i req cycle, s.acks[k]? = some (i, req) → s.cycles[i]? = some cycle →
    cycle.process ≠ some s.process → ∀ id ∈ req.acked, s.queue.leased.lookup id = none

/-- `P` holds whenever an ack request arrives in a run. -/
def AtAcks (q : NotificationQueue) (P : Relay → ℕ → Prop) (labels : List Label) : Prop :=
  ∀ pre k post s, labels = pre ++ .acked k :: post → run q pre = some s → P s k

/-- A timely ack settles only what its cycle has processed. -/
theorem Relay.Inv.ackSafe (h : s.Inv q ops) {k : ℕ} (htimely : AckTimely s k) : AckSafe s k := by
  intro i req hack id hid deadline e hleased
  obtain ⟨cycle, hcycle, t, x, f, hsub, hsteps⟩ := h.sent (List.mem_of_getElem? hack)
  have hprocess : cycle.process = some s.process := by
    by_contra hne
    rw [htimely i req cycle hack hcycle hne id hid] at hleased
    cases hleased
  refine ⟨cycle, hcycle, hprocess, ?_⟩
  obtain ⟨entries, hfetched, entry, hentry, rfl, hhandled⟩ := exists_of_mem_acked hsteps hid
  -- the cycle has fetched a response of the running process
  obtain ⟨p, hp, hresponse⟩ :=
    (h.sound cycle (List.mem_of_getElem? hcycle)).fetched (hsub.subset hfetched)
  obtain rfl : p = s.process := Option.some_inj.mp (hp.symm.trans hprocess)
  obtain ⟨e', he', rfl⟩ := h.enqueued hresponse hentry
  -- which is about the entry that is leased
  rw [h.queue] at hleased
  obtain ⟨he, hid'⟩ := q.enqueued_of_leased hleased
  obtain rfl : e' = e := enqueued_inj he' he hid'.symm
  refine ⟨⟨entries, hsub.subset hfetched, hentry⟩, fun n hn device hdevice => ?_⟩
  obtain ⟨rest, hrest⟩ := hsub
  rw [← hrest]
  exact (hhandled n hn device hdevice).append [] rest (List.Subset.refl _)

/-- In every run, the acks settle only entries that their cycles have fetched since the last restart
and processed, exactly when no ack for an earlier process arrives while one of its ids is leased. -/
theorem acksSafe_iff (q : NotificationQueue) (labels : List Label) :
    AtAcks q AckSafe labels ↔ AtAcks q AckTimely labels := by
  constructor
  · intro hsafe pre k post s hlabels hrun i req cycle hack hcycle hne id hid
    by_contra hsome
    obtain ⟨⟨deadline, e⟩, hleased⟩ := Option.ne_none_iff_exists'.mp hsome
    obtain ⟨cycle', hcycle', hprocess, -⟩ :=
      hsafe pre k post s hlabels hrun i req hack id hid deadline e hleased
    cases hcycle.symm.trans hcycle'
    exact hne hprocess
  · intro htimely pre k post s hlabels hrun
    obtain ⟨ops, h⟩ := Relay.inv_of_run hrun
    exact h.ackSafe (htimely pre k post s hlabels hrun)

/-! #### An entry that nobody has fetched -/

/-- The push service accepts everything. -/
def accepted : (c : Cmd) → c.Res
  | .isRejected _ _ => false
  | .isDuplicate _ _ _ => false
  | .deliver _ _ _ => ⟨.ok "token", .ok (), .ok [], .ok ⟨200, .ok ""⟩⟩
  | .enqueue _ _ => .ok ()
  | .record _ _ _ => ()
  | .reportRejected _ _ => ()
  | .takeAt _ => []
  | .ack _ => ()
  | .respond _ => ()
  | .poll _ => .error ""
  | .sendAck _ => .ok ()

/-- A cycle fetches the first entry and delivers it. In the meantime the queue side is restarted,
gets another notification, and hands it out in a response that is lost. -/
def restarted : List Label :=
  let device := event.devices[0]
  [.enqueue 0 event device, .takeAt 0 100, .startCycle trio.crates (trio.app .poll) 100,
    .polled 0 (.ok 0), .restart, .enqueue 0 { event with eventId := some "$f" } device,
    .takeAt 0 100, .performed 0 accepted, .performed 0 accepted, .performed 0 accepted,
    .performed 0 accepted]

/-- The ack for the entry of the old process settles that of the new one, which is then lost. -/
theorem not_acksSafe : ¬ ∀ q labels, AtAcks q AckSafe labels := by
  intro h
  let q : NotificationQueue := ⟨10, fromSecs 3600, fromSecs 60⟩
  have hsome : (run q restarted).isSome = true := by decide
  obtain ⟨cycle, hcycle, hprocess, -⟩ := h q (restarted ++ [.acked 0]) restarted 0 [] _ rfl
    (Option.some_get hsome).symm 0 ⟨[0], []⟩ rfl 0 (List.mem_singleton.mpr rfl) _ _ rfl
  -- the cycle had polled the old process
  have hold : ((run q restarted).get hsome).cycles[0]?.map Cycle.process = some (some 0) := rfl
  rw [hcycle, Option.map_some, hprocess] at hold
  cases hold

end Pincerbell.Restart
