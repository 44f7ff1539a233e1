import Pincerbell.Deployment.Rejection
import Pincerbell.Deployment.Relay

/-!
# Rejection feedback through the relay

A pushkey that the poll side rejects is reported with the ack that settles its entry, and the queue
side answers the next notify for the pair with what was reported.

* `ReportsWithAck` — the cycle that has sent a settling ack reports its rejection in the same ack.
* `RejectsReported` — what the queue side answers for a pair, in terms of the accepted reports.
* `feedback` — both hold in every reachable state.
* `not_reportsEveryCycle` — the rejection of another cycle may stay unreported.
-/

namespace Pincerbell

open Prog (Event Returns Steps)

/-- The endpoint for acks records every report. -/
theorem mem_of_returns_reportAll {rs : List RejectedPushkey} {t : List (Event Cmd Cmd.Res)}
    {u : Unit} (h : (reportAll rs).Returns t u) {r : RejectedPushkey} (hr : r ∈ rs) :
    ⟨.reportRejected r.appId r.pushkey, ()⟩ ∈ t := by
  induction rs generalizing t with
  | nil => cases hr
  | cons r' rs ih =>
    rw [reportAll, Prog.perform_bind] at h
    obtain ⟨_, t', rfl, hrest⟩ := Prog.returns_call_iff.mp h
    rcases List.mem_cons.mp hr with rfl | hr
    · exact List.mem_cons_self
    · exact List.mem_cons_of_mem _ (ih hrest hr)

namespace Deployment

variable {ι : Type} [DecidableEq ι] {D : Deployment ι} {s : State ι}

/-! ### Reports -/

variable (D s) in
/-- When an ack is about to settle a leased entry, the cycle that has sent it has fetched the entry,
has run the pipelines of its devices without a transient failure, and if it has rejected a pushkey,
the handling of the ack goes on to record it. -/
def ReportsWithAck : Prop :=
  ∀ (c : ℕ) (call : Call ι) (b : ℕ) (x : Option ℕ) (ids : List ℕ)
    (f : Unit → Prog (Option ℕ × Cmd) (fun c => c.2.Res) Finished),
    s.calls[c]? = some call → call.rest[b]? = some (Prog.call (x, .ack ids) f) →
    ∀ id ∈ ids, ∀ deadline e,
      (s.shared.locks call.request.inst).queue.leased.lookup id = some (deadline, e) →
      ∃ k i m cycle entries, s.calls[k]? = some cycle ∧
        cycle.request = .pollOnce i call.request.inst m ∧
        ⟨(none, .poll m), .ok entries⟩ ∈ Machine.trace k 0 s.log ∧ e.toPollEntry ∈ entries ∧
        ∀ n, Notification.fromValue e.payload = some n → ∀ device ∈ n.devices,
          ∃ t₁ t₂ t₃ d, Machine.trace k 0 s.log = t₁ ++ t₂.map (Event.tag (some id)) ++ t₃ ∧
            (deliverOne D.crates (D.app i) n device).Returns t₂ d ∧ d ≠ .transient ∧
            ∀ pushkey, d = .reject pushkey → ∀ t y, (f ()).Returns t y →
              ⟨(none, .reportRejected device.appId pushkey), ()⟩ ∈ t

/-- What follows the ack of an ack request is the loop over its reports. -/
theorem rest_of_ack (h : D.machine.Reachable s) {c : ℕ} {call : Call ι}
    (hcall : s.calls[c]? = some call) {j : ι} {req : AckRequest}
    (hreq : call.request = .queueAck j req)
    {b : ℕ} {x : Option ℕ} {ids : List ℕ}
    {f : Unit → Prog (Option ℕ × Cmd) (fun c => c.2.Res) Finished}
    (hnext : call.rest[b]? = some (Prog.call (x, .ack ids) f)) :
    f () = (fun _ => Finished.served) <$> (reportAll req.rejectedPushkeys).tag none := by
  obtain ⟨p₀, hp₀, hsteps⟩ := h.tracks.steps hcall hnext
  -- the ack is the first step, so that the branch is as it was in the beginning
  obtain ⟨-, -, -, -, hnil⟩ := ((always_branchStep _ p₀ (List.mem_of_getElem? hp₀)).of_steps
    (hsteps.snoc ())).of_ack
  rw [hnil, Prog.steps_nil_iff] at hsteps
  subst hsteps
  have hmem := List.mem_of_getElem? hp₀
  rw [hreq] at hmem
  have heq : Prog.call (x, .ack ids) f =
      (fun _ => Finished.served) <$> (queueAck req).tag none := List.mem_singleton.mp hmem
  cases heq
  rfl

theorem reportsWithAck (h : D.machine.Reachable s) : ReportsWithAck D s := by
  intro c call b x ids f hcall hnext id hid deadline e hleased
  obtain ⟨j, req, k, i, hreq, ⟨cycle, m, entries, hcycle, hcyclereq, hfetched, hentry⟩, hhandled⟩ :=
    attempt_of_ack h hcall hnext hid hleased
  obtain ⟨-, rfl⟩ := enqueued_of_leased h hleased
  have hinst : call.request.inst = j := by rw [hreq]; rfl
  refine ⟨k, i, m, cycle, entries, hcycle, hinst ▸ hcyclereq, hfetched, hentry,
    fun n hn device hdevice => ?_⟩
  obtain ⟨t₁, t₂, t₃, d, htrace, hret, hd, hreport⟩ := hhandled n hn device hdevice
  refine ⟨t₁, t₂, t₃, d, htrace, hret, hd, fun pushkey hpk t y hrest => ?_⟩
  -- what follows the ack is the loop over the reports of the same request
  rw [rest_of_ack h hcall hreq hnext, Prog.returns_map_iff] at hrest
  obtain ⟨u, hrest, -⟩ := hrest
  obtain ⟨t', rfl, hloop⟩ := Prog.returns_tag_iff.mp hrest
  exact List.mem_map_of_mem (f := Event.tag none)
    (mem_of_returns_reportAll hloop (hreport pushkey hpk))

/-! ### Answers to notify requests -/

variable (D s) in
/-- When the pipeline of a device of an app without a provider has run at a queue side `j` whose
clock never goes back: it rejects exactly when the pair is among the last 65536 accepted reports and
the report is younger than `rejected_ttl`, and then it has queued nothing and the pair has been
reported. -/
def RejectsReported (j : ι) (cfg : QueueConfig) : Prop :=
  ∀ (k : ℕ) (call : Call ι) (b : ℕ) (x : Option ℕ) (n : Notification) (device : Device)
    (t₁ : List MarkedEvent) (t : List (Event Cmd Cmd.Res)) (t₃ : List MarkedEvent)
    (d : Disposition),
    s.calls[k]? = some call → call.request.inst = j →
    Machine.trace k b s.log = t₁ ++ t.map (Event.tag x) ++ t₃ →
    (deliverOne D.crates (D.app j) n device).Returns t d →
    (D.providers j).lookup device.appId = none →
    ∃ pre r post, s.log = pre ++ r :: post ∧ r.call = k ∧ r.branch = b ∧
      Machine.trace k b pre = t₁ ∧ r.event.1.2 = .isRejected device.appId device.pushkey ∧
      (d = .reject device.pushkey ↔
        ∃ reported, (reported, rejectedKey device.appId device.pushkey) ∈
            ((QueueState.new cfg).rejected.accepted (reportLog j pre)).rtake 65536 ∧
          r.time - reported < fromSecs cfg.rejectedTtlSecs) ∧
      (d = .reject device.pushkey → (∀ e ∈ t, ∀ n' device', e.1 ≠ .enqueue n' device') ∧
        ∃ r' ∈ pre, r'.request.inst = j ∧
          r'.event.1.2 = .reportRejected device.appId device.pushkey)

theorem rejectsReported (h : D.machine.Reachable s) {j : ι} (htimed : Timed j s.log)
    {cfg : QueueConfig} (hcfg : (D.config j).queue = some cfg) (httl : cfg.rejectedTtlSecs ≠ 0) :
    RejectsReported D s j cfg := by
  rintro k call b x n device t₁ t t₃ d hcall rfl htrace hret hprovider
  have hqueue : (D.app call.request.inst).queue = some (QueueState.new cfg) := by
    rw [app, AppState.new, hcfg, Option.map_some]
  obtain ⟨rejected, rest, rfl, hd, hrest⟩ :=
    (deviceRun_of_returns hret).of_queue hprovider (by simp [hqueue])
  -- the check for rejected pairs, and what the cache has answered
  have hsplit : Machine.trace k b s.log = t₁ ++
      Event.tag x ⟨.isRejected device.appId device.pushkey, rejected⟩ ::
        (rest.map (Event.tag x) ++ t₃) := by
    rw [htrace]
    simp
  obtain ⟨pre, r, post, hlog, hrk, hrb, hevent, hpre, -⟩ := Machine.exists_of_trace_eq_append hsplit
  have hreq : r.request = call.request := h.tracks.request_eq (by simp [hlog]) (hrk ▸ hcall)
  rw [← hreq] at hqueue htimed ⊢
  have hcheck : r.event.untag = ⟨.isRejected device.appId device.pushkey, rejected⟩ := by
    rw [hevent, Event.untag_tag]
  have hanswer := isRejected_of_log h hlog hqueue hcheck
  have hzero : fromSecs cfg.rejectedTtlSecs ≠ 0 := Nat.mul_ne_zero httl (by decide)
  have hiff : d = .reject device.pushkey ↔
      ∃ reported, (reported, rejectedKey device.appId device.pushkey) ∈
        ((QueueState.new cfg).rejected.accepted (reportLog r.request.inst pre)).rtake 65536 ∧
          r.time - reported < fromSecs cfg.rejectedTtlSecs := by
    rw [hd, ← hanswer]
    rw [hlog] at htimed
    refine DedupCache.isDuplicateAt_after_iff hzero ?_ fun b hb =>
      htimed.gather_le fst_of_reported? hb
    exact (htimed.sublist (List.sublist_append_left _ _)).sorted_gather fst_of_reported?
  refine ⟨pre, r, post, hlog, hrk, hrb, hpre, by rw [hevent]; rfl, hiff, fun hreject => ⟨?_, ?_⟩⟩
  · rw [hrest (hd.mp hreject)]
    rintro e he n' device' heq
    rw [List.mem_singleton.mp he] at heq
    cases heq
  · obtain ⟨reported, hmem, -⟩ := hiff.mp hreject
    -- what was accepted was reported by a step before the check
    have hlogged := (DedupCache.accepted_sublist _ _).subset (List.mem_of_mem_drop hmem)
    obtain ⟨r', hr', hinst, hreported⟩ := mem_gather.mp hlogged
    refine ⟨r', hr', hinst, ?_⟩
    revert hreported
    cases r'.event.1.2 with
    | reportRejected appId pushkey =>
      intro hreported
      simp only [Cmd.reported?, rejectedKey, Option.some.injEq, Prod.mk.injEq] at hreported
      rw [hreported.2.2.1, hreported.2.2.2]
    | _ => rintro ⟨⟩

/-- Rejection feedback in every reachable state: a rejection is reported with the ack that settles
its entry, and a queue side whose clock never goes back rejects exactly what was reported, while the
report is young and among the last ones. -/
theorem feedback (h : D.machine.Reachable s) :
    ReportsWithAck D s ∧ ∀ j cfg, (D.config j).queue = some cfg → cfg.rejectedTtlSecs ≠ 0 →
      Timed j s.log → RejectsReported D s j cfg :=
  ⟨reportsWithAck h, fun _ _ hcfg httl htimed => rejectsReported h htimed hcfg httl⟩

theorem feedback_fedBack :
    ∃ s, trio.machine.run fedBack = some s ∧ ∃ pre, pre <+: s.log ∧ ∃ reported,
      (reported, rejectedKey "app" "pk") ∈
        ((QueueState.new {}).rejected.accepted (reportLog .queue pre)).rtake 65536 := by
  have hcall : ((trio.machine.run fedBack).get isSome_fedBack).calls[4]? =
      some ⟨.notify .queue event, [Prog.pure (.device (.reject "pk"))]⟩ := by rfl
  have htimed : Timed .queue ((trio.machine.run fedBack).get isSome_fedBack).log := by
    decide
  have htrace : Machine.trace 4 0 ((trio.machine.run fedBack).get isSome_fedBack).log =
      [] ++ [⟨Cmd.isRejected "app" "pk", true⟩].map (Event.tag none) ++ [] := by rfl
  have hret : (deliverOne trio.crates (trio.app .queue) event
      { appId := "app", pushkey := "pk" }).Returns
      [⟨Cmd.isRejected "app" "pk", true⟩] (.reject "pk") := Prog.Steps.call (Prog.Steps.refl _)
  obtain ⟨pre, r, post, hlog, -, -, -, -, hiff, -⟩ :=
    (feedback (Machine.reachable_get isSome_fedBack)).2 .queue {} rfl (by decide) htimed 4 _ 0 none
      event { appId := "app", pushkey := "pk" } [] _ [] _ hcall rfl htrace hret rfl
  obtain ⟨reported, hmem, -⟩ := hiff.mp rfl
  exact ⟨_, (Option.some_get isSome_fedBack).symm, pre, ⟨_, hlog.symm⟩, reported, hmem⟩

/-! ### The rejection of another cycle -/

variable (D s) in
/-- When an ack is about to settle a leased entry, every cycle that has fetched the entry, rejected
a pushkey of it and ended sees the pushkey reported in that ack. -/
def ReportsEveryCycle : Prop :=
  ∀ (c : ℕ) (call : Call ι) (b : ℕ) (x : Option ℕ) (ids : List ℕ)
    (f : Unit → Prog (Option ℕ × Cmd) (fun c => c.2.Res) Finished),
    s.calls[c]? = some call → call.rest[b]? = some (Prog.call (x, .ack ids) f) →
    ∀ id ∈ ids, ∀ deadline e,
      (s.shared.locks call.request.inst).queue.leased.lookup id = some (deadline, e) →
      ∀ k i m cycle result entries, s.calls[k]? = some cycle →
        cycle.request = .pollOnce i call.request.inst m →
        cycle.rest = [Prog.pure (.cycle result)] →
        ⟨(none, .poll m), .ok entries⟩ ∈ Machine.trace k 0 s.log → e.toPollEntry ∈ entries →
        ∀ n, Notification.fromValue e.payload = some n → ∀ device ∈ n.devices,
          ∀ t₁ t₂ t₃ pushkey, Machine.trace k 0 s.log = t₁ ++ t₂.map (Event.tag (some id)) ++ t₃ →
            (deliverOne D.crates (D.app i) n device).Returns t₂ (.reject pushkey) →
            ∀ req, call.request = .queueAck call.request.inst req →
              ⟨device.appId, pushkey⟩ ∈ req.rejectedPushkeys

/-- The first poll side rejects the device, but its ack is lost. After the lease the second one
delivers to it, and its ack arrives. -/
def overruled : List (Machine.Label (Request Side) Input) :=
  queued ++
    [.arrive (.pollOnce .strict .queue 100), .perform 2 0 0 (.response 0),
      .perform 2 0 0 (.sent (.error "")), .arrive (.queuePoll .queue ⟨none⟩ 0),
      .perform 3 0 (fromSecs 60) .none, .perform 3 0 (fromSecs 60) .none,
      .arrive (.pollOnce .poll .queue 100), .perform 4 0 (fromSecs 60) (.response 1),
      .perform 4 0 (fromSecs 60) .none, .perform 4 0 (fromSecs 60) (status 200),
      .perform 4 0 (fromSecs 60) .none, .perform 4 0 (fromSecs 60) (.sent (.ok ())),
      .arrive (.queueAck .queue ⟨[0], []⟩)]

theorem not_reportsEveryCycle : ¬ ∀ s, trio.machine.Reachable s → ReportsEveryCycle trio s := by
  intro hall
  have hsome : (trio.machine.run overruled).isSome = true := by decide
  have hcall : ((trio.machine.run overruled).get hsome).calls[5]? =
      some ⟨.queueAck .queue ⟨[0], []⟩, trio.branches (.queueAck .queue ⟨[0], []⟩)⟩ := by rfl
  have hnext : (trio.branches (.queueAck .queue ⟨[0], []⟩))[0]? =
      some (Prog.call ((none : Option ℕ), .ack [0]) fun _ => Prog.pure .served) := by rfl
  have hleased :
      (((trio.machine.run overruled).get hsome).shared.locks .queue).queue.leased.lookup 0 =
        some (fromSecs 120, ⟨0, 0, payload event { appId := "app", pushkey := "pk" }, none⟩) := by
    rfl
  have hcycle : ((trio.machine.run overruled).get hsome).calls[2]? =
      some ⟨.pollOnce .strict .queue 100, [Prog.pure (.cycle (.error ""))]⟩ := by rfl
  have hdecode : Notification.fromValue (payload event { appId := "app", pushkey := "pk" }) =
      some event := by rfl
  have hreject : (deliverOne trio.crates (trio.app .strict) event
      { appId := "app", pushkey := "pk" }).Returns [] (.reject "pk") := by
    exact Prog.Steps.refl _
  have htrace : ∀ t : List MarkedEvent, t = t ++ [].map (Event.tag (some 0)) ++ [] := by simp
  have hfetched : ∃ t : List MarkedEvent,
      Machine.trace 2 0 ((trio.machine.run overruled).get hsome).log =
        ⟨(none, .poll 100),
          .ok [⟨0, payload event { appId := "app", pushkey := "pk" }⟩]⟩ :: t := ⟨_, rfl⟩
  obtain ⟨t, hfetched⟩ := hfetched
  have hreported := hall _ (Machine.reachable_get hsome) 5 _ 0 none [0] _ hcall hnext 0 (by simp)
    _ _ hleased 2 .strict 100 _ _ _ hcycle rfl rfl (hfetched ▸ List.mem_cons_self)
    (List.mem_singleton.mpr rfl) event hdecode _ (List.mem_singleton.mpr rfl) _ [] [] "pk"
    (htrace _) hreject _ rfl
  exact List.not_mem_nil hreported

end Deployment

end Pincerbell
