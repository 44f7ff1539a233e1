import Pincerbell.Deployment.Log

/-!
# Which pushkeys a notify request rejects

Rejecting a pushkey makes the homeserver delete the pusher for good.

* `notifyResponse_eq_error_iff`, `notifyResponse_eq_ok` — the answer in terms of what became of the
  devices.
* `returns_of_notify` — a finished branch of a notify request is a complete run of its device's
  pipeline.
* `Justified` — the log justifies a rejection; `justified_iff` relates it to the steps of the
  device.
* `Decided` — the step that decides about a device has been taken.
* `notify_rejects` — the answer of a notify request in terms of the log.
-/

namespace Pincerbell

open Prog (Event Returns)

/-- A request fails exactly when some device has failed transiently. -/
theorem notifyResponse_eq_error_iff {ds : List Disposition} :
    (∃ message, notifyResponse ds = .error (502, message)) ↔ .transient ∈ ds := by
  unfold notifyResponse
  dsimp only
  split
  next hpos =>
    have hmem : .transient ∈ ds := by simpa [List.countP_pos_iff] using hpos
    exact iff_of_true ⟨_, rfl⟩ hmem
  next hzero =>
    have hmem : .transient ∉ ds := by simpa [List.countP_pos_iff] using hzero
    exact iff_of_false (by rintro ⟨_, ⟨⟩⟩) hmem

theorem notifyResponse_eq_ok {ds : List Disposition} (h : .transient ∉ ds) :
    notifyResponse ds = .ok (ds.filterMap Disposition.rejected?) := by
  unfold notifyResponse
  dsimp only
  rw [if_neg]
  simpa [List.countP_pos_iff] using h

/-- What the answer lists for a device. -/
theorem DeviceRun.rejected?_eq {crates : Crates} {state : AppState} {n : Notification}
    {device : Device} {t : List (Event Cmd Cmd.Res)} {d : Disposition} {P : Prop} [Decidable P]
    (h : DeviceRun crates state n device t d) (hP : d = .reject device.pushkey ↔ P) :
    d.rejected? = if P then some device.pushkey else none := by
  split
  next hrejects => rw [hP.mpr hrejects, Disposition.rejected?]
  next hnot =>
    cases d with
    | reject pushkey =>
      obtain rfl := h.eq_pushkey rfl
      exact absurd (hP.mp rfl) hnot
    | _ => rfl

namespace Deployment

variable {ι : Type} [DecidableEq ι] {D : Deployment ι} {s : State ι} {i : ι} {n : Notification}
  {k : ℕ} {call : Call ι}

/-- The steps of one device of a notify request. -/
def deviceTrace (k b : ℕ) (log : List (Step ι)) : List (Event Cmd Cmd.Res) :=
  (Machine.trace k b log).map Event.untag

/-- A finished branch of a notify request is a complete run of the pipeline of its device. -/
theorem returns_of_notify (h : D.machine.Reachable s) (hcall : s.calls[k]? = some call)
    (hreq : call.request = .notify i n) {b : ℕ} {device : Device} (hb : n.devices[b]? = some device)
    {d : Disposition} (hdone : call.rest[b]? = some (Prog.pure (.device d))) :
    (deliverOne D.crates (D.app i) n device).Returns (deviceTrace k b s.log) d := by
  obtain ⟨p₀, hp₀, hsteps⟩ := h.tracks.steps hcall hdone
  rw [hreq] at hp₀
  -- the branch is that of the device, and its marks are all `none`
  have hbranch : p₀ = Finished.device <$> (deliverOne D.crates (D.app i) n device).tag none := by
    have hget : (D.machine.branches (.notify i n))[b]? =
        some (Finished.device <$> (deliverOne D.crates (D.app i) n device).tag none) := by
      show (n.devices.map _)[b]? = _
      rw [List.getElem?_map, hb, Option.map_some]
    exact Option.some_inj.mp (hp₀.symm.trans hget)
  subst hbranch
  obtain ⟨d', hret, heq⟩ := Prog.returns_map_iff.mp hsteps
  cases heq
  obtain ⟨t, htrace, hret⟩ := Prog.returns_tag_iff.mp hret
  rw [deviceTrace, htrace, Event.map_untag_map_tag]
  exact hret

/-- A notify request that has finished has a disposition for each device. -/
theorem length_dispositions (h : D.machine.Reachable s) (hcall : s.calls[k]? = some call)
    (hreq : call.request = .notify i n) {ds : List Disposition}
    (hdone : call.rest = ds.map fun d => Prog.pure (.device d)) :
    ds.length = n.devices.length := by
  -- a request has a branch for each device
  have hrest := h.tracks.length hcall
  rw [hdone, hreq, List.length_map] at hrest
  rw [hrest]
  show (n.devices.map _).length = _
  rw [List.length_map]

/-! ### What a rejection rests on -/

/-- The step `r` of branch `b` of call `k`, with `pre` before it, looks up whether the pair of the
device is recorded as rejected. -/
structure LooksUp (k b : ℕ) (device : Device) (log pre : List (Step ι)) (r : Step ι) : Prop where
  log_eq : ∃ post, log = pre ++ r :: post
  call : r.call = k
  branch : r.branch = b
  cmd : r.event.1.2 = .isRejected device.appId device.pushkey

/-- After the steps `pre`, the queue side has the pair recorded as rejected at the time `now`. -/
def Recorded (i : ι) (q : QueueState) (device : Device) (pre : List (Step ι)) (now : Instant) :
    Prop :=
  q.rejected.isDuplicateAt now (rejectedKey device.appId device.pushkey)
    (q.rejected.after (reportLog i pre)) = true

/-- The log justifies rejecting the pushkey of a device: the push service has answered definitively,
the pair was recorded as rejected when it was looked up in queue mode, or the app is unknown and
`reject_unknown_apps` is set. -/
inductive Justified (D : Deployment ι) (i : ι) (n : Notification) (device : Device) (k b : ℕ)
    (log : List (Step ι)) : Prop
  | definitive {provider answers} : (D.app i).providers.lookup device.appId = some provider →
    (∀ eventId, ⟨.isDuplicate eventId device.appId device.pushkey, true⟩ ∉ deviceTrace k b log) →
    ⟨.deliver provider n device, answers⟩ ∈ deviceTrace k b log →
    provider.Definitive D.crates device answers → Justified D i n device k b log
  | recorded {q pre r} : (D.app i).providers.lookup device.appId = none →
    (D.app i).queue = some q → LooksUp k b device log pre r → Recorded i q device pre r.time →
    Justified D i n device k b log
  | unknown : (D.app i).providers.lookup device.appId = none → (D.app i).queue = none →
    (D.app i).config.rejectUnknownApps = true → Justified D i n device k b log

/-- What a device has ended with was decided in the log. For an app with a provider the delivery was
made, unless a duplicate was found; for one without, the queue side has looked the pair up. -/
structure Decided (D : Deployment ι) (i : ι) (n : Notification) (device : Device) (k b : ℕ)
    (log : List (Step ι)) (d : Disposition) : Prop where
  provided : ∀ provider, (D.app i).providers.lookup device.appId = some provider →
    (∃ eventId, ⟨.isDuplicate eventId device.appId device.pushkey, true⟩ ∈ deviceTrace k b log ∧
      d = .fine) ∨
    ∃ answers, ⟨.deliver provider n device, answers⟩ ∈ deviceTrace k b log ∧
      (d = .reject device.pushkey ↔ provider.Definitive D.crates device answers)
  queued : ∀ q, (D.app i).providers.lookup device.appId = none → (D.app i).queue = some q →
    ∃ pre r, LooksUp k b device log pre r ∧
      (d = .reject device.pushkey ↔ Recorded i q device pre r.time)
  unknown : (D.app i).providers.lookup device.appId = none → (D.app i).queue = none →
    (d = .reject device.pushkey ↔ (D.app i).config.rejectUnknownApps = true)

omit [DecidableEq ι] in
theorem mem_deviceTrace {b : ℕ} {log : List (Step ι)} {e : Event Cmd Cmd.Res} :
    e ∈ deviceTrace k b log ↔
      ∃ pre r post, log = pre ++ r :: post ∧ r.call = k ∧ r.branch = b ∧ r.event.untag = e := by
  rw [deviceTrace, List.mem_map]
  constructor
  · rintro ⟨e', he', rfl⟩
    obtain ⟨r, hr, hk, hb, rfl⟩ := Machine.mem_trace.mp he'
    obtain ⟨pre, post, hlog⟩ := List.append_of_mem hr
    exact ⟨pre, r, post, hlog, hk, hb, rfl⟩
  · rintro ⟨pre, r, post, rfl, hk, hb, rfl⟩
    exact ⟨r.event, Machine.mem_trace.mpr ⟨r, by simp, hk, hb, rfl⟩, rfl⟩

/-- A look-up of a notify request has found what is recorded. -/
theorem LooksUp.event_eq (h : D.machine.Reachable s) (hcall : s.calls[k]? = some call)
    (hreq : call.request = .notify i n) {b : ℕ} {device : Device} {pre : List (Step ι)} {r : Step ι}
    (hr : LooksUp k b device s.log pre r) {q : QueueState} (hq : (D.app i).queue = some q) :
    ∃ rejected, r.event.untag = ⟨.isRejected device.appId device.pushkey, rejected⟩ ∧
      (rejected = true ↔ Recorded i q device pre r.time) := by
  obtain ⟨post, hlog⟩ := hr.log_eq
  have hinst : r.request.inst = i := by
    rw [h.tracks.request_eq (by simp [hlog]) (hr.call ▸ hcall), hreq]
    rfl
  obtain ⟨rejected, hevent⟩ : ∃ rejected,
      r.event.untag = ⟨.isRejected device.appId device.pushkey, rejected⟩ := by
    have hcmd := hr.cmd
    obtain ⟨req, _, branch, now, ⟨x, c⟩, res⟩ := r
    cases hcmd
    exact ⟨res, rfl⟩
  refine ⟨rejected, hevent, ?_⟩
  rw [Recorded, ← hinst, isRejected_of_log h hlog (hinst ▸ hq) hevent]

/-- The steps of a device justify a rejection exactly when the log does. -/
theorem justified_iff (h : D.machine.Reachable s) (hcall : s.calls[k]? = some call)
    (hreq : call.request = .notify i n) {b : ℕ} {device : Device} :
    Rejects D.crates (D.app i) n device (deviceTrace k b s.log) ↔
      Justified D i n device k b s.log := by
  constructor
  · intro hrejects
    cases hrejects with
    | definitive hprovider hfresh hdeliver hdefinitive =>
      exact .definitive hprovider hfresh hdeliver hdefinitive
    | unknown hprovider hqueue hreject => exact .unknown hprovider hqueue hreject
    | reported hprovider hqueue hmem =>
      obtain ⟨q, hq⟩ := Option.isSome_iff_exists.mp hqueue
      obtain ⟨pre, r, post, hlog, hk, hb, hevent⟩ := mem_deviceTrace.mp hmem
      have hlooks : LooksUp k b device s.log pre r :=
        ⟨⟨post, hlog⟩, hk, hb, congrArg Sigma.fst hevent⟩
      obtain ⟨rejected, hevent', hiff⟩ := hlooks.event_eq h hcall hreq hq
      cases hevent.symm.trans hevent'
      exact .recorded hprovider hq hlooks (hiff.mp rfl)
  · intro hjustified
    cases hjustified with
    | definitive hprovider hfresh hdeliver hdefinitive =>
      exact .definitive hprovider hfresh hdeliver hdefinitive
    | unknown hprovider hqueue hreject => exact .unknown hprovider hqueue hreject
    | @recorded q pre r hprovider hq hlooks hrecorded =>
      obtain ⟨rejected, hevent, hiff⟩ := hlooks.event_eq h hcall hreq hq
      obtain rfl := hiff.mpr hrecorded
      obtain ⟨post, hlog⟩ := hlooks.log_eq
      exact .reported hprovider (by rw [hq]; rfl)
        (mem_deviceTrace.mpr ⟨pre, r, post, hlog, hlooks.call, hlooks.branch, hevent⟩)

/-- A device of a notify request has ended as was decided in the log. -/
theorem decided (h : D.machine.Reachable s) (hcall : s.calls[k]? = some call)
    (hreq : call.request = .notify i n) {b : ℕ} {device : Device} {d : Disposition}
    (hrun : DeviceRun D.crates (D.app i) n device (deviceTrace k b s.log) d) :
    Decided D i n device k b s.log d where
  provided _ hprovider := hrun.of_provider hprovider
  unknown hprovider hqueue := hrun.of_unknown hprovider hqueue
  queued q hprovider hq := by
    obtain ⟨rejected, rest, htrace, hd, -⟩ := hrun.of_queue hprovider (by rw [hq]; rfl)
    obtain ⟨pre, r, post, hlog, hk, hb, hevent⟩ := mem_deviceTrace.mp
      (htrace ▸ List.mem_cons_self : _ ∈ deviceTrace k b s.log)
    have hlooks : LooksUp k b device s.log pre r :=
      ⟨⟨post, hlog⟩, hk, hb, congrArg Sigma.fst hevent⟩
    obtain ⟨rejected', hevent', hiff⟩ := hlooks.event_eq h hcall hreq hq
    cases hevent.symm.trans hevent'
    exact ⟨pre, r, hlooks, hd.trans hiff⟩

open scoped Classical in
/-- A notify request that has finished fails exactly when a device has failed transiently. Otherwise
its answer lists, in the order of the devices, the pushkeys of exactly those devices for which the
log justifies a rejection. What decides about a device, the answer of its push service or a look-up
of its pair, has always taken place. -/
theorem notify_rejects (h : D.machine.Reachable s) (hcall : s.calls[k]? = some call)
    (hreq : call.request = .notify i n) {ds : List Disposition}
    (hdone : call.rest = ds.map fun d => Prog.pure (.device d)) :
    ((∃ message, notifyResponse ds = .error (502, message)) ↔ .transient ∈ ds) ∧
    (.transient ∉ ds → notifyResponse ds = .ok
      (((List.finRange n.devices.length).filter fun b : Fin n.devices.length =>
        Justified D i n n.devices[b] k b s.log).map
          fun b : Fin n.devices.length => n.devices[b].pushkey)) ∧
    ∀ (b : ℕ) (device : Device) (d : Disposition), n.devices[b]? = some device →
      ds[b]? = some d → Decided D i n device k b s.log d := by
  have hruns : ∀ {b : ℕ} {device : Device} {d : Disposition}, n.devices[b]? = some device →
      ds[b]? = some d → DeviceRun D.crates (D.app i) n device (deviceTrace k b s.log) d :=
    fun hb hd => deviceRun_of_returns (returns_of_notify h hcall hreq hb (by simp [hdone, hd]))
  refine ⟨notifyResponse_eq_error_iff, fun hfine => ?_, fun b device d hb hd =>
    decided h hcall hreq (hruns hb hd)⟩
  have hlength := length_dispositions h hcall hreq hdone
  -- the dispositions by the places of the devices
  have hds : ds = (List.finRange n.devices.length).map fun b : Fin n.devices.length => ds[b] := by
    apply List.ext_getElem <;> simp [hlength]
  rw [notifyResponse_eq_ok hfine]
  refine congrArg _ ?_
  conv_lhs => rw [hds]
  rw [List.filterMap_map, ← List.filterMap_eq_map, List.filterMap_filter]
  refine List.filterMap_congr fun b _ => ?_
  have hrun := hruns (List.getElem?_eq_getElem b.2) (d := ds[b]) (by simp)
  simpa using hrun.rejected?_eq (hrun.eq_reject_iff.trans (justified_iff h hcall hreq))

/-- The poll side rejects the device, its ack arrives, and the queue side answers the next
notify. -/
def fedBack : List (Machine.Label (Request Side) Input) :=
  queued ++
    [.arrive (.pollOnce .strict .queue 100), .perform 2 0 0 (.response 0),
      .perform 2 0 0 (.sent (.ok ())), .arrive (.queueAck .queue ⟨[0], [⟨"app", "pk"⟩]⟩),
      .perform 3 0 0 .none, .perform 3 0 0 .none,
      .arrive (.notify .queue event), .perform 4 0 (fromSecs 1) .none]

theorem isSome_fedBack : (trio.machine.run fedBack).isSome = true := by decide

theorem notify_rejects_fedBack :
    ∃ s, trio.machine.run fedBack = some s ∧
      ¬ (∃ message, notifyResponse [.reject "pk"] = .error (502, message)) ∧
      ∃ pre r, LooksUp 4 0 event.devices[0] s.log pre r ∧
        Recorded .queue (QueueState.new {}) event.devices[0] pre r.time := by
  have hcall : ((trio.machine.run fedBack).get isSome_fedBack).calls[4]? =
      some ⟨.notify .queue event,
        [Disposition.reject "pk"].map fun d => Prog.pure (.device d)⟩ := by rfl
  obtain ⟨hfailed, -, hdecided⟩ :=
    notify_rejects (Machine.reachable_get isSome_fedBack) hcall rfl rfl
  obtain ⟨pre, r, hlooks, hiff⟩ := (hdecided 0 _ _ rfl rfl).queued _ rfl rfl
  exact ⟨_, (Option.some_get isSome_fedBack).symm, hfailed.not.mpr (by simp), pre, r, hlooks,
    hiff.mp rfl⟩

end Deployment

end Pincerbell
