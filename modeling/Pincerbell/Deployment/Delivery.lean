import Pincerbell.Deployment.Relay

/-!
# Nothing is acknowledged away undelivered

An ack that settles an entry was sent by a poll cycle that had fetched the entry, and either could
not decode it or ran the pipeline of its device without a transient failure. Where that pipeline was
suppressed as a duplicate, a push service had accepted the notification before.

* `SuppressedRightly` — what stands behind a suppression.
* `settled_of_ack` — the statement, for any interleaving and any loss, duplication or delay of
  messages.
-/

namespace Pincerbell.Deployment

open Prog (Event Returns)

variable {ι : Type} [DecidableEq ι] {D : Deployment ι} {s : State ι}

/-- A cycle that suppressed the entry `id` under `key` did so after a delivery at its instance. -/
def SuppressedRightly (D : Deployment ι) (s : State ι) (k : ℕ) (i : ι) (id : ℕ) (key : Key) :
    Prop :=
  ∃ pre r post, s.log = pre ++ r :: post ∧ r.call = k ∧
    r.event = (checkOf true key).tag (some id) ∧
      ∃ r' ∈ pre, r'.request.inst = i ∧ D.Delivered r' key

theorem suppressedRightly_of_mem (h : D.machine.Reachable s) {k : ℕ} {i : ι} {j : ι} {m : ℕ}
    {call : Call ι}
    (hcall : s.calls[k]? = some call) (hreq : call.request = .pollOnce i j m)
    (hqueue : (D.config i).queue = none) {id : ℕ} {key : Key}
    (hmem : (checkOf true key).tag (some id) ∈ Machine.trace k 0 s.log) :
    D.SuppressedRightly s k i id key := by
  obtain ⟨r, hr, rfl, -, hevent⟩ := Machine.mem_trace.mp hmem
  obtain ⟨pre, post, hlog⟩ := List.append_of_mem hr
  have hinst : r.request.inst = i := by rw [h.tracks.request_eq hr hcall, hreq]; rfl
  refine ⟨pre, r, post, hlog, rfl, hevent, ?_⟩
  -- a poll side does not queue, so that the success is a delivery
  obtain ⟨r', hr', hinst', hs⟩ := success_of_duplicate h hlog (by rw [hevent]; rfl)
  obtain ⟨pre', post', rfl⟩ := List.append_of_mem hr'
  have hlog' : s.log = pre' ++ r' :: (post' ++ r :: post) := by simpa using hlog
  have hnone : (D.app r'.request.inst).queue = none := by
    rw [hinst', hinst, app, AppState.new, hqueue, Option.map_none]
  exact ⟨r', hr', by rw [hinst', hinst], delivered_of_success h hlog' hs hnone⟩

/-- When an ack is about to settle a leased entry, a cycle of some poller has fetched the entry and
either cannot decode it, or has run the pipeline of its device, which did not fail transiently, and
which suppressed only what that poller had delivered. -/
theorem settled_of_ack (h : D.machine.Reachable s)
    (hpoll : ∀ call ∈ s.calls, ∀ i j m, call.request = .pollOnce i j m → (D.config i).queue = none)
    {c : ℕ} {call : Call ι}
    (hcall : s.calls[c]? = some call) {b : ℕ} {x : Option ℕ} {ids : List ℕ}
    {f : Unit → Prog (Option ℕ × Cmd) (fun c => c.2.Res) Finished}
    (hnext : call.rest[b]? = some (Prog.call (x, .ack ids) f)) {id : ℕ} (hid : id ∈ ids)
    {deadline : Instant} {e : Entry} (hleased :
      (s.shared.locks call.request.inst).queue.leased.lookup id = some (deadline, e)) :
    ∃ k i cycle m, s.calls[k]? = some cycle ∧
      cycle.request = .pollOnce i call.request.inst m ∧
      (∃ entries, ⟨(none, .poll m), .ok entries⟩ ∈ Machine.trace k 0 s.log ∧
        e.toPollEntry ∈ entries) ∧
      (Notification.fromValue e.payload = none ∨
        ∃ n device t₁ t₂ t₃ d, Notification.fromValue e.payload = some n ∧ n.devices = [device] ∧
          Machine.trace k 0 s.log = t₁ ++ t₂.map (Event.tag (some id)) ++ t₃ ∧
          (deliverOne D.crates (D.app i) n device).Returns t₂ d ∧ d ≠ .transient ∧
          ∀ key, checkOf true key ∈ t₂ → d = .fine ∧ dedupKey n device = some key ∧
            D.SuppressedRightly s k i id key) := by
  obtain ⟨j, req, k, i, hreq, ⟨cycle, m, entries, hcycle, hcyclereq, hfetched, hentry⟩,
    hhandled⟩ := attempt_of_ack h hcall hnext hid hleased
  obtain ⟨he, rfl⟩ := enqueued_of_leased h hleased
  have hinst : call.request.inst = j := by rw [hreq]; rfl
  refine ⟨k, i, cycle, m, hcycle, hinst ▸ hcyclereq, ⟨entries, hfetched, hentry⟩, ?_⟩
  cases hdecode : Notification.fromValue e.payload with
  | none => exact Or.inl rfl
  | some n =>
    -- what is queued has one device
    obtain ⟨n₀, device₀, hpayload⟩ := payload_of_enqueued he
    obtain ⟨device, hdevices⟩ := devices_of_fromValue_payload (hpayload ▸ hdecode)
    obtain ⟨t₁, t₂, t₃, d, htrace, hret, hd, -⟩ := hhandled n hdecode device (by simp [hdevices])
    refine Or.inr ⟨n, device, t₁, t₂, t₃, d, rfl, hdevices, htrace, hret, hd, fun key hkey => ?_⟩
    obtain ⟨hfine, hkeyed⟩ := (deviceRun_of_returns hret).of_mem_check hkey
    refine ⟨hfine, hkeyed, ?_⟩
    refine suppressedRightly_of_mem h hcycle hcyclereq
      (hpoll cycle (List.mem_of_getElem? hcycle) i j m hcyclereq) ?_
    rw [htrace]
    simp only [List.mem_append, List.mem_map]
    exact Or.inl (Or.inr ⟨_, hkey, rfl⟩)

/-- The entry is fetched, delivered and acknowledged, and the ack has arrived. -/
def relayed : List (Machine.Label (Request Side) Input) :=
  queued ++
    [.arrive (.pollOnce .poll .queue 100), .perform 2 0 0 (.response 0), .perform 2 0 0 .none,
      .perform 2 0 0 (status 200), .perform 2 0 0 .none, .perform 2 0 0 (.sent (.ok ())),
      .arrive (.queueAck .queue ⟨[0], []⟩)]

theorem settled_of_ack_relayed :
    ∃ s, trio.machine.run relayed = some s ∧ ∃ (k : ℕ) (i : Side) (cycle : Call Side) (m : ℕ),
      s.calls[k]? = some cycle ∧ cycle.request = .pollOnce i .queue m := by
  have hsome : (trio.machine.run relayed).isSome = true := by decide
  have hreach := Machine.reachable_get hsome
  have hcall : ((trio.machine.run relayed).get hsome).calls[3]? =
      some ⟨.queueAck .queue ⟨[0], []⟩, trio.branches (.queueAck .queue ⟨[0], []⟩)⟩ := by rfl
  have hleased :
      (((trio.machine.run relayed).get hsome).shared.locks .queue).queue.leased.lookup 0 =
        some (fromSecs 60, ⟨0, 0, payload event { appId := "app", pushkey := "pk" }, none⟩) := by
    rfl
  -- the only cycle is one of the poll side, which does not queue
  have hpoll : ∀ call ∈ ((trio.machine.run relayed).get hsome).calls, ∀ i j m,
      call.request = .pollOnce i j m → (trio.config i).queue = none := by
    have hrequests : ((trio.machine.run relayed).get hsome).calls.map Machine.Call.request =
        [.notify .queue event, .queuePoll .queue ⟨none⟩ 0, .pollOnce .poll .queue 100,
          .queueAck .queue ⟨[0], []⟩] := by rfl
    intro call hmem i j m hreq
    have hreq' := List.mem_map_of_mem (f := Machine.Call.request) hmem
    rw [hrequests, hreq] at hreq'
    obtain ⟨rfl, -⟩ : i = .poll ∧ j = .queue ∧ m = 100 := by simpa using hreq'
    rfl
  have hnext : (trio.branches (.queueAck .queue ⟨[0], []⟩))[0]? =
      some (Prog.call ((none : Option ℕ), .ack [0]) fun _ => Prog.pure .served) := by rfl
  obtain ⟨k, i, cycle, m, hcycle, hcyclereq, -⟩ :=
    settled_of_ack hreach hpoll hcall hnext (List.mem_singleton.mpr rfl) hleased
  exact ⟨_, (Option.some_get hsome).symm, k, i, cycle, m, hcycle, hcyclereq⟩

end Pincerbell.Deployment
