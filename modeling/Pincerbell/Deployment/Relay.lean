import Pincerbell.Deployment.Log

/-!
# The relay between a queue side and its pollers

Where an ack that settles an entry comes from: some poll cycle has fetched that entry and handled
it before it sent the ack.

* `exists_enqueued_of_fetched` — what a cycle fetches was enqueued by its upstream.
* `payload_of_enqueued` — what is queued is a notification with one device.
* `cycle_of_mem_acks` — an ack in the network was sent by a cycle.
* `Attempt`, `attempt_of_ack` — an entry that an ack settles was fetched and handled.
-/

namespace Pincerbell

open Prog (Event Always Returns Steps)

namespace Deployment

variable {ι : Type} [DecidableEq ι] {D : Deployment ι} {s : State ι} {i j : ι}
  {pre post : List (Step ι)} {r : Step ι}

/-! ### What is fetched -/

/-- What is queued is a notification with one device. -/
theorem payload_of_enqueued {log : List (Step ι)} {e : Entry}
    (he : e ∈ enqueued (queueLog j log)) : ∃ n device, e.payload = payload n device := by
  obtain ⟨r, -, -, hop⟩ := mem_gather.mp (exists_op_of_mem_enqueued he)
  unfold Cmd.op? at hop
  split at hop
  next n device _ =>
    simp only [Option.some.injEq, Op.enqueueAt.injEq] at hop
    exact ⟨n, device, hop.2.1.symm⟩
  all_goals cases hop

/-- What the log has enqueued before, it has enqueued. -/
theorem mem_enqueued_log_append {log log' : List (Step ι)} {e : Entry}
    (he : e ∈ enqueued (queueLog j log)) : e ∈ enqueued (queueLog j (log ++ log')) := by
  rw [queueLog, gather_append]
  exact NotificationQueue.mem_enqueued_append he

/-- What is sent in answer to a poll was taken from the queue. -/
theorem exists_enqueued_of_respond (h : D.machine.Reachable s) (hlog : s.log = pre ++ r :: post)
    {entries : List PollEntry} (hr : r.event.1.2 = .respond entries) {p : PollEntry}
    (hp : p ∈ entries) : ∃ e ∈ enqueued (queueLog r.request.inst s.log), e.toPollEntry = p := by
  obtain ⟨req, k, b, now, ⟨x, c⟩, res⟩ := r
  obtain rfl : c = .respond entries := hr
  obtain ⟨max, hmem⟩ := (branchStep_of_log h hlog).of_respond
  obtain ⟨e, he, htake⟩ := List.mem_map.mp hmem
  obtain ⟨r', hr', hk, -, rfl⟩ := Machine.mem_trace.mp he
  obtain ⟨pre', post', rfl⟩ := List.append_of_mem hr'
  -- the step that took the entries belongs to the same request
  have hlog' : s.log = pre' ++ r' :: (post' ++ ⟨req, k, b, now, ⟨(x, .respond entries), res⟩⟩ ::
      post) := by simpa using hlog
  have hreq : r'.request = req := h.tracks.request_inj (by simp [hlog']) (by simp [hlog]) hk
  obtain ⟨q, hq, rfl⟩ := takeAt_of_log h hlog' htake
  have hout : p ∈ q.queue.output (q.queue.run (queueLog r'.request.inst pre'))
      (.takeAt r'.time max) := hp
  obtain ⟨e, he, hep, -⟩ := q.queue.of_mem_output hout
  refine ⟨e, ?_, hep⟩
  rw [hlog', ← hreq]
  exact mem_enqueued_log_append he

/-- What a cycle has fetched was enqueued by its upstream. -/
theorem exists_enqueued_of_fetched (h : D.machine.Reachable s) {k : ℕ}
    {call : Call ι}
    (hcall : s.calls[k]? = some call) (hup : call.request.upstream? = some j) {x : Option ℕ} {m : ℕ}
    {entries : List PollEntry} (hfetched : ⟨(x, .poll m), .ok entries⟩ ∈ Machine.trace k 0 s.log)
    {p : PollEntry} (hp : p ∈ entries) : ∃ e ∈ enqueued (queueLog j s.log), e.toPollEntry = p := by
  obtain ⟨r, hr, rfl, -, hevent⟩ := Machine.mem_trace.mp hfetched
  obtain ⟨pre, post, hlog⟩ := List.append_of_mem hr
  have hreq : r.request = call.request := h.tracks.request_eq hr hcall
  obtain ⟨j', hup', r', hr', rfl, hrespond⟩ := poll_of_log h hlog (by rw [hevent]; rfl)
  obtain rfl : r'.request.inst = j := Option.some_inj.mp (hup'.symm.trans (hreq ▸ hup))
  obtain ⟨pre', post', rfl⟩ := List.append_of_mem hr'
  have hlog' : s.log = pre' ++ r' :: (post' ++ r :: post) := by simpa using hlog
  exact exists_enqueued_of_respond h hlog' hrespond hp

/-- What is leased was enqueued, and is leased under its own id. -/
theorem enqueued_of_leased (h : D.machine.Reachable s) {id : ℕ} {deadline : Instant} {e : Entry}
    (hleased : (s.shared.locks j).queue.leased.lookup id = some (deadline, e)) :
    e ∈ enqueued (queueLog j s.log) ∧ e.id = id := by
  cases hq : (D.app j).queue with
  | none =>
    rw [queue_eq_empty h hq] at hleased
    cases hleased
  | some q =>
    rw [queue_eq h hq] at hleased
    exact q.queue.enqueued_of_leased hleased

/-! ### What is settled -/

/-- An ack request in the network: the cycle that has sent it. -/
theorem cycle_of_mem_acks (h : D.machine.Reachable s) {req : AckRequest}
    (hreq : (j, req) ∈ s.shared.acks) :
    ∃ k call i m t x f, s.calls[k]? = some call ∧ call.request = .pollOnce i j m ∧
      t <+: Machine.trace k 0 s.log ∧
      Steps (pollOnce D.crates (D.app i) m) t (Prog.call (x, .sendAck req) f) := by
  obtain ⟨r, hr, hup, hsend⟩ := exists_of_mem_acks h hreq
  obtain ⟨call, hcall, hcallreq⟩ := h.tracks.logged hr
  obtain ⟨pre, post, hlog⟩ := List.append_of_mem hr
  obtain ⟨s₀, call₀, input, f, shared, hs₀, hpre, hcall₀, hreq₀, hrest, -⟩ := h.exists_perform hlog
  obtain ⟨p₀, hp₀, hsteps⟩ := hs₀.tracks.steps hcall₀ hrest
  obtain ⟨req', k, b, now, ⟨x, c⟩, res⟩ := r
  obtain rfl : c = .sendAck req := hsend
  cases req' with
  | pollOnce i j' m =>
    obtain rfl : j' = j := Option.some_inj.mp hup
    -- a cycle has one branch
    rw [hreq₀] at hp₀
    have hbranches : ([Finished.cycle <$> pollOnce D.crates (D.app i) m] :
        List (Prog (Option ℕ × Cmd) (fun c => c.2.Res) Finished))[b]? = some p₀ := hp₀
    obtain ⟨rfl, rfl⟩ : b = 0 ∧ Finished.cycle <$> pollOnce D.crates (D.app i) m = p₀ := by
      cases b with
      | zero => exact ⟨rfl, Option.some_inj.mp hbranches⟩
      | succ b => cases hbranches
    obtain ⟨f', hsteps, -⟩ := hsteps.of_map
    refine ⟨k, call, i, m, _, x, f', hcall, hcallreq, ?_, hsteps⟩
    rw [hpre, hlog, Machine.trace_append]
    exact List.prefix_append _ _
  | _ => cases hup

/-- A poll cycle for upstream `j` has fetched the entry, and if the entry can be decoded, has
handled its devices before it sent the ack request. -/
def Attempt (D : Deployment ι) (s : State ι) (j : ι) (req : AckRequest) (e : Entry) (k : ℕ)
    (i : ι) : Prop :=
  (∃ call m entries, s.calls[k]? = some call ∧ call.request = .pollOnce i j m ∧
    ⟨(none, .poll m), .ok entries⟩ ∈ Machine.trace k 0 s.log ∧ e.toPollEntry ∈ entries) ∧
  ∀ n, Notification.fromValue e.payload = some n → ∀ device ∈ n.devices,
    Handled D.crates (D.app i) e.id n device (Machine.trace k 0 s.log) req

/-- An entry that an ack settles was fetched and handled by the cycle that has sent the ack. -/
theorem attempt_of_ack (h : D.machine.Reachable s) {c : ℕ}
    {call : Call ι}
    (hcall : s.calls[c]? = some call) {b : ℕ} {x : Option ℕ} {ids : List ℕ}
    {f : Unit → Prog (Option ℕ × Cmd) (fun c => c.2.Res) Finished}
    (hnext : call.rest[b]? = some (Prog.call (x, .ack ids) f)) {id : ℕ} (hid : id ∈ ids)
    {deadline : Instant} {e : Entry}
    (hleased : (s.shared.locks call.request.inst).queue.leased.lookup id = some (deadline, e)) :
    ∃ j req k i, call.request = .queueAck j req ∧ Attempt D s j req e k i := by
  obtain ⟨p₀, hp₀, hsteps⟩ := h.tracks.steps hcall hnext
  -- the ack is that of an ack request, and the ack request was sent by a cycle
  obtain ⟨j, req, hreq, rfl, -⟩ := ((always_branchStep _ p₀ (List.mem_of_getElem? hp₀)).of_steps
    (hsteps.snoc ())).of_ack
  rw [hreq, Request.inst] at hleased
  obtain ⟨k, cycle, i, m, t, y, g, hcycle, hcyclereq, hsub, hsend⟩ :=
    cycle_of_mem_acks h (mem_acks_of_mem_calls h (List.mem_of_getElem? hcall) hreq)
  obtain ⟨entries, hfetched, entry, hentry, rfl, hhandled⟩ := exists_of_mem_acked hsend hid
  -- the entry that was fetched is the one that is leased
  obtain ⟨e', he', rfl⟩ := exists_enqueued_of_fetched h hcycle (by rw [hcyclereq]; rfl)
    (hsub.subset hfetched) hentry
  obtain ⟨he, heid⟩ := enqueued_of_leased h hleased
  obtain rfl : e' = e := enqueued_inj he' he heid.symm
  refine ⟨j, req, k, i, hreq, ⟨cycle, m, entries, hcycle, hcyclereq, hsub.subset hfetched,
    hentry⟩, fun n hn device hdevice => ?_⟩
  obtain ⟨rest, hrest⟩ := hsub
  rw [← hrest]
  exact (hhandled n hn device hdevice).append [] rest (List.Subset.refl _)

end Deployment

end Pincerbell
