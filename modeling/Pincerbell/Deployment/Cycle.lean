import Pincerbell.Deployment.Delivery

/-!
# A whole cycle of the poll loop

What a cycle that has ended has done, whatever else was going on: it went through everything that it
had fetched, one device after the other, no matter how the ones before ended, and its ack says
exactly how they ended.

* `HandledDevice`, `HandledEntry` — what a cycle has done for a device, and for an entry.
* `ackFor` — the ack for what was done.
* `returns_deliverDevices_exact`, `returns_handleEntries_exact`, `returns_pollOnce_exact` — the two
  loops and the cycle.
* `nodup_of_fetched` — nothing is fetched twice in a cycle.
* `cycle_exact` — the statement about the cycles of a deployment.
-/

namespace Pincerbell

open Prog (Event Returns Steps)

/-! ### What is done -/

/-- The pipeline of a device has run with these steps and this disposition. -/
structure HandledDevice where
  device : Device
  steps : List (Event Cmd Cmd.Res)
  disposition : Disposition

/-- What has been done for the devices of a fetched entry. -/
structure HandledEntry where
  entry : PollEntry
  devices : List HandledDevice

/-- The pushkey that the device is rejected with. -/
def HandledDevice.rejected? (r : HandledDevice) : Option RejectedPushkey :=
  match r.disposition with
  | .reject pushkey => some ⟨r.device.appId, pushkey⟩
  | _ => none

namespace HandledEntry

/-- No device has failed transiently. -/
def settled (r : HandledEntry) : Bool := r.devices.all fun d => d.disposition ≠ .transient

/-- The steps, marked with the entry. -/
def steps (r : HandledEntry) : List MarkedEvent :=
  r.devices.flatMap fun d => d.steps.map (Event.tag (some r.entry.id))

/-- These are runs of the pipelines of all devices of the entry. One that cannot be decoded has
none. -/
structure Valid (crates : Crates) (state : AppState) (r : HandledEntry) : Prop where
  undecodable : Notification.fromValue r.entry.notification = none → r.devices = []
  devices : ∀ n, Notification.fromValue r.entry.notification = some n →
    r.devices.map HandledDevice.device = n.devices ∧
      ∀ d ∈ r.devices, (deliverOne crates state n d.device).Returns d.steps d.disposition

end HandledEntry

/-- The ack for what has been done. -/
def ackFor (runs : List HandledEntry) : AckRequest where
  acked := (runs.filter HandledEntry.settled).map fun r => r.entry.id
  rejectedPushkeys := runs.flatMap fun r => r.devices.filterMap HandledDevice.rejected?

/-- An ack that says more. -/
def AckRequest.append (req req' : AckRequest) : AckRequest :=
  ⟨req.acked ++ req'.acked, req.rejectedPushkeys ++ req'.rejectedPushkeys⟩

variable {crates : Crates} {state : AppState} {n : Notification} {t : List MarkedEvent}

/-! ### The two loops -/

/-- The inner loop runs the pipelines of all devices. -/
theorem returns_deliverDevices_exact {id : ℕ} {devices : List Device} {acc acc' : Bool × AckRequest}
    (h : (deliverDevices crates state id n devices acc).Returns t acc') :
    ∃ runs : List HandledDevice, runs.map HandledDevice.device = devices ∧
      (∀ d ∈ runs, (deliverOne crates state n d.device).Returns d.steps d.disposition) ∧
      t = (runs.flatMap fun d => d.steps.map (Event.tag (some id))) ∧
      acc' = (acc.1 || !runs.all fun d => d.disposition ≠ .transient,
        acc.2.append ⟨[], runs.filterMap HandledDevice.rejected?⟩) := by
  induction devices generalizing acc t with
  | nil =>
    obtain ⟨rfl, rfl⟩ := Prog.returns_pure_iff.mp h
    exact ⟨[], rfl, by simp, rfl, by simp [AckRequest.append]⟩
  | cons device devices ih =>
    obtain ⟨d, t₁, t₂, rfl, hrun, hrest⟩ := Prog.returns_bind_iff.mp h
    obtain ⟨steps, rfl, hret⟩ := Prog.returns_tag_iff.mp hrun
    -- the accumulator after the device, and what the rest of the loop makes of it
    obtain ⟨acc₁, hacc₁, hloop⟩ : ∃ acc₁ : Bool × AckRequest,
        acc₁ = (acc.1 || decide (d = .transient),
          acc.2.append ⟨[], ((⟨device, steps, d⟩ : HandledDevice).rejected?).toList⟩) ∧
        (deliverDevices crates state id n devices acc₁).Returns t₂ acc' := by
      cases d <;> exact ⟨_, by simp [AckRequest.append, HandledDevice.rejected?], hrest⟩
    obtain ⟨runs, hdevices, hvalid, rfl, rfl⟩ := ih hloop
    refine ⟨⟨device, steps, d⟩ :: runs, by rw [List.map_cons, hdevices], ?_, rfl, ?_⟩
    · intro r hr
      rcases List.mem_cons.mp hr with rfl | hr
      · exact hret
      · exact hvalid r hr
    · rw [hacc₁]
      cases hrejected : (⟨device, steps, d⟩ : HandledDevice).rejected? <;>
        simp [AckRequest.append, hrejected, Bool.or_assoc]

/-- The outer loop goes through all entries. -/
theorem returns_handleEntries_exact {entries : List PollEntry} {ack ack' : AckRequest}
    (h : (handleEntries crates state entries ack).Returns t ack') :
    ∃ runs : List HandledEntry, runs.map HandledEntry.entry = entries ∧
      (∀ r ∈ runs, r.Valid crates state) ∧ t = runs.flatMap HandledEntry.steps ∧
      ack' = ack.append (ackFor runs) := by
  induction entries generalizing ack t with
  | nil =>
    obtain ⟨rfl, rfl⟩ := Prog.returns_pure_iff.mp h
    exact ⟨[], rfl, by simp, rfl, by simp [AckRequest.append, ackFor]⟩
  | cons entry entries ih =>
    -- the run of the entry, and what the rest of the loop makes of the ack
    obtain ⟨r, t₂, rfl, hvalid, rfl, hloop⟩ : ∃ (r : HandledEntry) (t₂ : List MarkedEvent),
        r.entry = entry ∧ r.Valid crates state ∧ t = r.steps ++ t₂ ∧
        (handleEntries crates state entries (ack.append (ackFor [r]))).Returns t₂ ack' := by
      unfold handleEntries at h
      split at h
      next hnone =>
        refine ⟨⟨entry, []⟩, t, rfl, ⟨fun _ => rfl, fun n hn => ?_⟩, rfl, ?_⟩
        · rw [hnone] at hn
          cases hn
        · simpa [AckRequest.append, ackFor, HandledEntry.settled] using h
      next n hn =>
        obtain ⟨acc, t₁, t₂, rfl, hdevices, hrest⟩ := Prog.returns_bind_iff.mp h
        obtain ⟨runs, hmap, hruns, rfl, rfl⟩ := returns_deliverDevices_exact hdevices
        refine ⟨⟨entry, runs⟩, t₂, rfl, ⟨fun hnone => ?_, fun n' hn' => ?_⟩, rfl, ?_⟩
        · rw [hn] at hnone
          cases hnone
        · obtain rfl := Option.some_inj.mp (hn.symm.trans hn')
          exact ⟨hmap, hruns⟩
        · have hall : (runs.all fun d => d.disposition ≠ .transient) =
              (⟨entry, runs⟩ : HandledEntry).settled := rfl
          rw [hall] at hrest
          cases hsettled : (⟨entry, runs⟩ : HandledEntry).settled <;>
            simpa [AckRequest.append, ackFor, hsettled] using hrest
    obtain ⟨runs, rfl, hruns, rfl, rfl⟩ := ih hloop
    refine ⟨r :: runs, rfl, List.forall_mem_cons.mpr ⟨hvalid, hruns⟩, rfl, ?_⟩
    cases hsettled : r.settled <;> simp [AckRequest.append, ackFor, hsettled]

/-! ### The cycle -/

/-- A cycle that has ended with this result has fetched nothing, or has done all of this. -/
inductive CycleRun (crates : Crates) (state : AppState) (maxBatch : ℕ) :
    List MarkedEvent → Except String ℕ → Prop
  | failed (e : String) : CycleRun crates state maxBatch [⟨(none, .poll maxBatch), .error e⟩]
      (.error e)
  /-- There is nothing to acknowledge. -/
  | silent (runs : List HandledEntry) : (∀ r ∈ runs, r.Valid crates state) → ackFor runs = {} →
    CycleRun crates state maxBatch
      (⟨(none, .poll maxBatch), .ok (runs.map HandledEntry.entry)⟩ ::
        runs.flatMap HandledEntry.steps)
      (.ok runs.length)
  | acknowledged (runs : List HandledEntry) (answer : Except String Unit) :
    (∀ r ∈ runs, r.Valid crates state) → ackFor runs ≠ {} →
    CycleRun crates state maxBatch
      (⟨(none, .poll maxBatch), .ok (runs.map HandledEntry.entry)⟩ ::
        (runs.flatMap HandledEntry.steps ++ [⟨(none, .sendAck (ackFor runs)), answer⟩]))
      (answer.map fun _ => runs.length)

theorem returns_pollOnce_exact {maxBatch : ℕ} {result : Except String ℕ}
    (h : (pollOnce crates state maxBatch).Returns t result) :
    CycleRun crates state maxBatch t result := by
  rw [pollOnce, Prog.perform_bind] at h
  obtain ⟨fetched, t', rfl, hrest⟩ := Prog.returns_call_iff.mp h
  cases fetched with
  | error e =>
    obtain ⟨rfl, rfl⟩ := Prog.returns_pure_iff.mp hrest
    exact .failed e
  | ok entries =>
    obtain ⟨ack, t₁, t₂, rfl, hentries, hend⟩ := Prog.returns_bind_iff.mp hrest
    obtain ⟨runs, rfl, hvalid, rfl, hack⟩ := returns_handleEntries_exact hentries
    obtain rfl : ack = ackFor runs := hack
    have hempty : ((ackFor runs).acked.isEmpty && (ackFor runs).rejectedPushkeys.isEmpty) = true ↔
        ackFor runs = {} := by
      cases ackFor runs
      simp
    split at hend
    next hnothing =>
      obtain ⟨rfl, rfl⟩ := Prog.returns_pure_iff.mp hend
      simpa using CycleRun.silent runs hvalid (hempty.mp hnothing)
    next hsomething =>
      rw [Prog.perform_bind] at hend
      obtain ⟨answer, t₃, rfl, hafter⟩ := Prog.returns_call_iff.mp hend
      have hne : ackFor runs ≠ {} := fun h => hsomething (hempty.mpr h)
      cases answer with
      | error e =>
        obtain ⟨rfl, rfl⟩ := Prog.returns_pure_iff.mp hafter
        exact .acknowledged runs (.error e) hvalid hne
      | ok u =>
        obtain ⟨rfl, rfl⟩ := Prog.returns_pure_iff.mp hafter
        rw [List.length_map]
        exact .acknowledged runs (.ok u) hvalid hne

/-! ### The cycles of a deployment -/

namespace Deployment

variable {ι : Type} [DecidableEq ι] {D : Deployment ι} {s : State ι} {i j : ι} {k m : ℕ}

/-- An answer to a poll has no entry twice. -/
theorem nodup_of_respond (h : D.machine.Reachable s) {pre post : List (Step ι)} {r : Step ι}
    (hlog : s.log = pre ++ r :: post) {entries : List PollEntry}
    (hr : r.event.1.2 = .respond entries) : (entries.map PollEntry.id).Nodup := by
  obtain ⟨req, c, b, now, ⟨x, cmd⟩, res⟩ := r
  obtain rfl : cmd = .respond entries := hr
  obtain ⟨max, hmem⟩ := (branchStep_of_log h hlog).of_respond
  obtain ⟨e, he, htake⟩ := List.mem_map.mp hmem
  obtain ⟨r', hr', -, -, rfl⟩ := Machine.mem_trace.mp he
  obtain ⟨pre', post', rfl⟩ := List.append_of_mem hr'
  have hlog' : s.log = pre' ++ r' :: (post' ++ ⟨req, c, b, now, ⟨(x, .respond entries), res⟩⟩ ::
      post) := by simpa using hlog
  obtain ⟨q, -, rfl⟩ := takeAt_of_log h hlog' htake
  have hnodup := q.queue.nodup_scan r'.time max (q.queue.run_wf (queueLog r'.request.inst pre'))
  rw [List.append_assoc, List.map_append] at hnodup
  rw [NotificationQueue.map_id_batch]
  exact (List.nodup_append.mp hnodup).1

/-- A cycle fetches no entry twice. -/
theorem nodup_of_fetched (h : D.machine.Reachable s) {x : Option ℕ} {entries : List PollEntry}
    (hfetched : ⟨(x, .poll m), .ok entries⟩ ∈ Machine.trace k 0 s.log) :
    (entries.map PollEntry.id).Nodup := by
  obtain ⟨r, hr, -, -, hevent⟩ := Machine.mem_trace.mp hfetched
  obtain ⟨pre, post, hlog⟩ := List.append_of_mem hr
  obtain ⟨-, -, r', hr', -, hrespond⟩ := poll_of_log h hlog (by rw [hevent]; rfl)
  obtain ⟨pre', post', rfl⟩ := List.append_of_mem hr'
  exact nodup_of_respond h (by simpa using hlog) hrespond

/-- What the cycle of a call has done when it has ended. -/
theorem cycleRun_of_ended (h : D.machine.Reachable s) {call : Call ι}
    (hcall : s.calls[k]? = some call) (hreq : call.request = .pollOnce i j m)
    {result : Except String ℕ} (hdone : call.rest[0]? = some (Prog.pure (.cycle result))) :
    CycleRun D.crates (D.app i) m (Machine.trace k 0 s.log) result := by
  obtain ⟨p₀, hp₀, hsteps⟩ := h.tracks.steps hcall hdone
  rw [hreq] at hp₀
  obtain rfl : Finished.cycle <$> pollOnce D.crates (D.app i) m = p₀ := Option.some_inj.mp hp₀
  obtain ⟨result', hret, heq⟩ := Prog.returns_map_iff.mp hsteps
  cases heq
  exact returns_pollOnce_exact hret

/-- In every interleaving, a cycle that has ended has either fetched nothing, or run the pipelines
of all devices of the entries that it has fetched, in order and each entry once, whatever the ones
before ended with. Its ack names the entries that cannot be decoded or of which no device failed
transiently, and each rejected pushkey, and it sends none when there are neither. -/
theorem cycle_exact (h : D.machine.Reachable s) {call : Call ι} (hcall : s.calls[k]? = some call)
    (hreq : call.request = .pollOnce i j m) {result : Except String ℕ}
    (hdone : call.rest[0]? = some (Prog.pure (.cycle result))) :
    CycleRun D.crates (D.app i) m (Machine.trace k 0 s.log) result ∧
      ∀ x entries, ⟨(x, .poll m), .ok entries⟩ ∈ Machine.trace k 0 s.log →
        (entries.map PollEntry.id).Nodup :=
  ⟨cycleRun_of_ended h hcall hreq hdone, fun _ _ hfetched => nodup_of_fetched h hfetched⟩

theorem cycle_exact_relayed : ∃ s, trio.machine.run relayed = some s ∧
    CycleRun trio.crates (trio.app .poll) 100 (Machine.trace 2 0 s.log) (.ok 1) := by
  have hsome : (trio.machine.run relayed).isSome = true := by decide
  have hcall : ((trio.machine.run relayed).get hsome).calls[2]? =
      some ⟨.pollOnce .poll .queue 100, [Prog.pure (.cycle (.ok 1))]⟩ := by rfl
  exact ⟨_, (Option.some_get hsome).symm,
    (cycle_exact (Machine.reachable_get hsome) hcall rfl rfl).1⟩

end Deployment

end Pincerbell
