import Pincerbell.Deployment.Cycle
import Pincerbell.Queue.Lease

/-!
# Entries that are acknowledged in time

When the ack of a cycle reaches the queue before the leases of what the cycle fetched have ended, an
entry of which no device failed transiently has been handed out for the last time: up to the ack the
lease keeps it from every other poll, and from then on it is gone.

* `notMem_batch_of_running`, `notMem_batch_of_settled` — the two halves for a run of the queue.
* `CycleRun.of_mem` — what a cycle fetched and sent.
* `handed_out_once` — the statement about a deployment with any number of pollers.
-/

namespace Pincerbell

namespace NotificationQueue

variable {q : NotificationQueue} {pre mid ops : List Op} {e : Entry} {t : Instant} {max id : ℕ}

/-- What is gone is not returned again. -/
theorem notMem_batch_of_not_held (he : e ∈ enqueued ops) (hgone : ¬ (q.run ops).Held e)
    (ops' : List Op) (now : Instant) (max : ℕ) :
    e.id ∉ (q.batch (ops ++ ops') now max).map PollEntry.id := by
  intro hin
  rw [map_id_batch] at hin
  obtain ⟨e', he', hid⟩ := List.mem_map.mp hin
  have hheld := (q.of_mem_taken he').1
  -- what has this id is the entry itself
  obtain rfl := enqueued_inj ((q.inv_run _).held_enqueued hheld) (mem_enqueued_append he) hid
  exact q.not_held_append he hgone ops' hheld

/-- Before its lease ends, a returned entry is leased or gone. -/
theorem leased_or_gone (hid : id ∈ (q.batch pre t max).map PollEntry.id)
    (hmid : ∀ u ∈ mid.filterMap Op.time?, u < t + q.lease) :
    ∃ e ∈ enqueued (pre ++ .takeAt t max :: mid), e.id = id ∧
      ((q.run (pre ++ .takeAt t max :: mid)).leased.lookup e.id = some (t + q.lease, e) ∨
        ¬ (q.run (pre ++ .takeAt t max :: mid)).Held e) := by
  rw [map_id_batch] at hid
  obtain ⟨e, he, rfl⟩ := List.mem_map.mp hid
  have hl : (q.run (pre ++ [.takeAt t max])).leased.lookup e.id = some (t + q.lease, e) := by
    rw [run_concat]
    exact q.lookup_takeAt_of_taken t max (q.run_wf pre) he
  have hmem := (q.inv_run _).held_enqueued (Or.inr ⟨_, hl⟩)
  have hsplit : pre ++ .takeAt t max :: mid = pre ++ [.takeAt t max] ++ mid := by simp
  rw [hsplit]
  exact ⟨e, mem_enqueued_append hmem, rfl, lookup_run_of_lt hl mid hmid⟩

/-- A lease that runs keeps its entry from every poll. -/
theorem notMem_batch_of_running (hid : id ∈ (q.batch pre t max).map PollEntry.id)
    (hmid : ∀ u ∈ mid.filterMap Op.time?, u < t + q.lease) {now : Instant}
    (hnow : now < t + q.lease) (max' : ℕ) :
    id ∉ (q.batch (pre ++ .takeAt t max :: mid) now max').map PollEntry.id := by
  obtain ⟨e, he, rfl, hl | hgone⟩ := leased_or_gone hid hmid
  · intro hin
    rw [map_id_batch] at hin
    obtain ⟨e', he', hid'⟩ := List.mem_map.mp hin
    -- only what is not leased, or no longer, is returned
    have hended := (q.of_mem_taken he').2.2 _ e (hid' ▸ hl)
    exact absurd hended (Nat.not_le_of_lt hnow)
  · simpa using notMem_batch_of_not_held he hgone [] now max'

/-- What is acknowledged before its lease ends is not returned again. -/
theorem notMem_batch_of_settled (hid : id ∈ (q.batch pre t max).map PollEntry.id)
    (hmid : ∀ u ∈ mid.filterMap Op.time?, u < t + q.lease) {ids : List ℕ} (hack : id ∈ ids)
    (suf : List Op) (now : Instant) (max' : ℕ) :
    id ∉ (q.batch (pre ++ .takeAt t max :: mid ++ .ack ids :: suf) now max').map PollEntry.id := by
  obtain ⟨e, he, rfl, hl | hgone⟩ := leased_or_gone hid hmid
  · exact notMem_batch_of_ack hack (by rw [hl]; rfl) now max'
  · exact notMem_batch_of_not_held he hgone _ now max'

end NotificationQueue

open Prog (Event)

/-! ### The cycle -/

section CycleRun

variable {crates : Crates} {state : AppState} {m : ℕ} {t : List MarkedEvent}
  {result : Except String ℕ}

/-- The steps for an entry are marked. -/
theorem HandledEntry.marked_of_mem {runs : List HandledEntry} {e : MarkedEvent}
    (he : e ∈ runs.flatMap HandledEntry.steps) : e.1.1 ≠ none := by
  obtain ⟨r, -, he⟩ := List.mem_flatMap.mp he
  obtain ⟨d, -, he⟩ := List.mem_flatMap.mp he
  obtain ⟨e, -, rfl⟩ := List.mem_map.mp he
  rintro ⟨⟩

/-- What a cycle has fetched, it has handled, and its ack says so. -/
theorem CycleRun.of_mem (h : CycleRun crates state m t result) {entries : List PollEntry}
    (hfetched : ⟨(none, .poll m), .ok entries⟩ ∈ t) {req : AckRequest} {answer : Except String Unit}
    (hsent : ⟨(none, .sendAck req), answer⟩ ∈ t) :
    ∃ runs : List HandledEntry, runs.map HandledEntry.entry = entries ∧ req = ackFor runs ∧
      ∀ r ∈ runs, r.Valid crates state ∧ r.steps <:+: t := by
  -- the only steps that are not marked are the fetch and the ack
  cases h with
  | failed e =>
    cases List.mem_singleton.mp hsent
  | silent runs hvalid hempty =>
    rcases List.mem_cons.mp hsent with heq | hsent
    · cases heq
    · exact absurd rfl (HandledEntry.marked_of_mem hsent)
  | acknowledged runs answer' hvalid hne =>
    have hreq : req = ackFor runs := by
      rcases List.mem_cons.mp hsent with heq | hsent
      · cases heq
      rcases List.mem_append.mp hsent with hsent | hsent
      · exact absurd rfl (HandledEntry.marked_of_mem hsent)
      · cases List.mem_singleton.mp hsent
        rfl
    have hentries : runs.map HandledEntry.entry = entries := by
      rcases List.mem_cons.mp hfetched with heq | hfetched
      · cases heq
        rfl
      rcases List.mem_append.mp hfetched with hfetched | hfetched
      · exact absurd rfl (HandledEntry.marked_of_mem hfetched)
      · cases List.mem_singleton.mp hfetched
    refine ⟨runs, hentries, hreq, fun r hr => ⟨hvalid r hr, ?_⟩⟩
    have hentry : r.steps <:+: runs.flatMap HandledEntry.steps := by
      obtain ⟨runs₁, runs₂, rfl⟩ := List.append_of_mem hr
      exact ⟨runs₁.flatMap HandledEntry.steps, runs₂.flatMap HandledEntry.steps, by simp⟩
    exact hentry.trans ((List.prefix_append _ _).isInfix.trans (List.suffix_cons _ _).isInfix)

/-- What the ack of a cycle settles. -/
theorem mem_acked_ackFor {runs : List HandledEntry} {r : HandledEntry} (hr : r ∈ runs)
    (hsettled : r.settled = true) : r.entry.id ∈ (ackFor runs).acked :=
  List.mem_map_of_mem (List.mem_filter.mpr ⟨hr, hsettled⟩)

end CycleRun

/-! ### The deployment -/

namespace Deployment

variable {ι : Type} [DecidableEq ι] {D : Deployment ι} {s : State ι} {i j : ι} {k m : ℕ}

/-- The step hands these entries out of the queue of `j`. -/
def HandsOut (j : ι) (r : Step ι) (entries : List PollEntry) : Prop :=
  r.request.inst = j ∧ ∃ max, r.event.untag = ⟨.takeAt max, entries⟩

/-- What a step hands out is a batch of the queue. -/
theorem HandsOut.batch_eq (h : D.machine.Reachable s) {q : QueueState}
    (hq : (D.app j).queue = some q) {pre post : List (Step ι)} {r : Step ι}
    (hlog : s.log = pre ++ r :: post) {entries : List PollEntry} (hr : HandsOut j r entries) :
    ∃ max, entries = q.queue.batch (queueLog j pre) r.time max ∧
      ∀ log, queueLog j (r :: log) = .takeAt r.time max :: queueLog j log := by
  obtain ⟨rfl, max, hevent⟩ := hr
  obtain ⟨q', hq', rfl⟩ := takeAt_of_log h hlog hevent
  obtain rfl := Option.some_inj.mp (hq'.symm.trans hq)
  have hcmd : r.event.1.2 = .takeAt max := congrArg (fun e : Event Cmd Cmd.Res => e.1) hevent
  refine ⟨max, rfl, fun log => ?_⟩
  rw [← List.singleton_append, queueLog, gather_append, gather_singleton _ rfl, hcmd]
  rfl

/-- The times that the operations on a queue read are those of their steps. -/
theorem exists_of_mem_time {log : List (Step ι)} {u : Instant}
    (hu : u ∈ (queueLog j log).filterMap Op.time?) :
    ∃ r ∈ log, r.request.inst = j ∧ r.time = u := by
  obtain ⟨op, hop, hu⟩ := List.mem_filterMap.mp hu
  obtain ⟨r, hr, hinst, hcmd⟩ := mem_gather.mp hop
  refine ⟨r, hr, hinst, ?_⟩
  unfold Cmd.op? at hcmd
  split at hcmd <;> cases hcmd <;> cases hu <;> rfl

/-- What is handed out and acknowledged before its lease has ended is not handed out again. -/
theorem notMem_of_acked (h : D.machine.Reachable s) (htimed : Timed j s.log) {q : QueueState}
    (hq : (D.app j).queue = some q) {pre mid post : List (Step ι)} {r a r' : Step ι}
    (hlog : s.log = pre ++ r :: (mid ++ a :: post)) {entries entries' : List PollEntry} {id : ℕ}
    (hr : HandsOut j r entries) (hid : id ∈ entries.map PollEntry.id) (hinst : a.request.inst = j)
    {ids : List ℕ} (hack : a.event.1.2 = .ack ids) (hids : id ∈ ids)
    (htime : a.time < r.time + q.queue.lease) (hr' : r' ∈ mid ++ a :: post)
    (hout : HandsOut j r' entries') : id ∉ entries'.map PollEntry.id := by
  -- up to the ack the lease runs
  obtain ⟨max, rfl, htake⟩ := hr.batch_eq h hq hlog
  have hearly : ∀ r₁ ∈ mid, r₁.request.inst = j → r₁.time < r.time + q.queue.lease := by
    intro r₁ hr₁ hinst₁
    have hlog' : s.log = (pre ++ r :: mid) ++ a :: post := by simp [hlog]
    rw [← hinst, hlog'] at htimed
    exact lt_of_le_of_lt (htimed.time_le (by simp [hr₁]) (hinst₁.trans hinst.symm)) htime
  have htimes : ∀ mid', (∀ r₁ ∈ mid', r₁ ∈ mid) →
      ∀ u ∈ (queueLog j mid').filterMap Op.time?, u < r.time + q.queue.lease := by
    intro mid' hsub u hu
    obtain ⟨r₁, hr₁, hinst₁, rfl⟩ := exists_of_mem_time hu
    exact hearly r₁ (hsub r₁ hr₁) hinst₁
  rcases List.mem_append.mp hr' with hmid | hpost
  · -- handed out while the lease runs
    obtain ⟨mid₁, mid₂, rfl⟩ := List.append_of_mem hmid
    obtain ⟨max', rfl, -⟩ := hout.batch_eq h hq
      (show s.log = (pre ++ r :: mid₁) ++ r' :: (mid₂ ++ a :: post) by simp [hlog])
    have hops : queueLog j (pre ++ r :: mid₁) =
        queueLog j pre ++ .takeAt r.time max :: queueLog j mid₁ := by
      rw [← htake]
      exact gather_append _ _ _ _
    rw [hops]
    exact NotificationQueue.notMem_batch_of_running hid
      (htimes mid₁ fun _ hr₁ => List.mem_append_left _ hr₁) (hearly r' hmid hout.1) max'
  rcases List.mem_cons.mp hpost with rfl | hpost
  · -- the ack hands nothing out
    obtain ⟨-, max', hevent⟩ := hout
    have hcmd := congrArg (fun e : Event Cmd Cmd.Res => e.1) hevent
    cases hack.symm.trans hcmd
  · -- handed out after the ack
    obtain ⟨post₁, post₂, rfl⟩ := List.append_of_mem hpost
    obtain ⟨max', rfl, -⟩ := hout.batch_eq h hq
      (show s.log = (pre ++ r :: mid ++ a :: post₁) ++ r' :: post₂ by simp [hlog])
    have hops : queueLog j (pre ++ r :: mid ++ a :: post₁) =
        queueLog j pre ++ .takeAt r.time max :: queueLog j mid ++ .ack ids :: queueLog j post₁ := by
      have hop : queueLog j (a :: post₁) = .ack ids :: queueLog j post₁ := by
        rw [← List.singleton_append, queueLog, gather_append, gather_singleton _ hinst, hack]
        rfl
      rw [← htake, ← hop]
      simp only [gather_append]
    rw [hops]
    exact NotificationQueue.notMem_batch_of_settled hid (htimes mid fun _ hr₁ => hr₁) hids _ _ max'

/-- In every interleaving with any number of pollers, when the ack of a cycle is carried out before
the leases of the batch that the cycle has fetched have ended, no entry of the batch is handed out
again that cannot be decoded or of which no device failed transiently. -/
theorem handed_out_once (h : D.machine.Reachable s) (htimed : Timed j s.log) {q : QueueState}
    (hq : (D.app j).queue = some q) {call : Call ι} (hcall : s.calls[k]? = some call)
    (hreq : call.request = .pollOnce i j m) {result : Except String ℕ}
    (hdone : call.rest[0]? = some (Prog.pure (.cycle result))) {entries : List PollEntry}
    (hfetched : ⟨(none, .poll m), .ok entries⟩ ∈ Machine.trace k 0 s.log) {req : AckRequest}
    {answer : Except String Unit}
    (hsent : ⟨(none, .sendAck req), answer⟩ ∈ Machine.trace k 0 s.log)
    {pre mid post : List (Step ι)} {r a : Step ι} (hlog : s.log = pre ++ r :: (mid ++ a :: post))
    (hr : HandsOut j r entries) (ha : a.request = .queueAck j req) {ids : List ℕ}
    (hack : a.event.1.2 = .ack ids) (htime : a.time < r.time + q.queue.lease) :
    ∃ runs : List HandledEntry, runs.map HandledEntry.entry = entries ∧
      (∀ e ∈ runs, e.Valid D.crates (D.app i) ∧ e.steps <:+: Machine.trace k 0 s.log) ∧
      ∀ e ∈ runs, e.settled = true → ∀ r' ∈ mid ++ a :: post, ∀ entries', HandsOut j r' entries' →
        e.entry.id ∉ entries'.map PollEntry.id := by
  obtain ⟨runs, hentries, hruns, hvalid⟩ :=
    (cycleRun_of_ended h hcall hreq hdone).of_mem hfetched hsent
  refine ⟨runs, hentries, hvalid, fun e he hsettled r' hr' entries' hout => ?_⟩
  -- the ack names the entry
  have hids : e.entry.id ∈ ids := by
    have hlog' : s.log = (pre ++ r :: mid) ++ a :: post := by simp [hlog]
    obtain ⟨req', c, b, now, ⟨x, cmd⟩, res⟩ := a
    obtain rfl : cmd = .ack ids := hack
    obtain ⟨j', req', hreq', rfl, -⟩ := (branchStep_of_log h hlog').of_ack
    cases ha.symm.trans hreq'
    exact hruns ▸ mem_acked_ackFor he hsettled
  have hid : e.entry.id ∈ entries.map PollEntry.id := by
    rw [← hentries]
    exact List.mem_map_of_mem (List.mem_map_of_mem he)
  exact notMem_of_acked h htimed hq hlog hr hid (by rw [ha]; rfl) hack hids htime hr' hout

/-- The ack of the cycle is carried out, and the queue is polled again when the lease would have
ended. -/
def settledInTime : List (Machine.Label (Request Side) Input) :=
  relayed ++ [.perform 3 0 0 .none, .arrive (.queuePoll .queue ⟨none⟩ 0),
    .perform 4 0 (fromSecs 60) .none]

theorem isSome_settledInTime : (trio.machine.run settledInTime).isSome = true := by decide

theorem handed_out_once_settledInTime : ∃ s, trio.machine.run settledInTime = some s ∧
    ∃ runs : List HandledEntry,
      runs.map HandledEntry.entry = [⟨0, payload event { appId := "app", pushkey := "pk" }⟩] ∧
      ∀ e ∈ runs, e.settled = true → ∀ r ∈ s.log.drop 5, ∀ entries, HandsOut .queue r entries →
        e.entry.id ∉ entries.map PollEntry.id := by
  have hcall : ((trio.machine.run settledInTime).get isSome_settledInTime).calls[2]? =
      some ⟨.pollOnce .poll .queue 100, [Prog.pure (.cycle (.ok 1))]⟩ := by rfl
  have htimed : Timed .queue ((trio.machine.run settledInTime).get isSome_settledInTime).log := by
    decide
  have hfetched : ⟨(none, .poll 100),
      .ok [⟨0, payload event { appId := "app", pushkey := "pk" }⟩]⟩ ∈
        Machine.trace 2 0 ((trio.machine.run settledInTime).get isSome_settledInTime).log :=
    .head _
  have hsent : ⟨(none, .sendAck ⟨[0], []⟩), .ok ()⟩ ∈
        Machine.trace 2 0 ((trio.machine.run settledInTime).get isSome_settledInTime).log :=
    .tail _ (.tail _ (.tail _ (.tail _ (.head _))))
  -- the entry is handed out by the fifth step, and the ack is the twelfth
  have hlog : ((trio.machine.run settledInTime).get isSome_settledInTime).log =
      ((trio.machine.run settledInTime).get isSome_settledInTime).log.take 4 ++
        ((trio.machine.run settledInTime).get isSome_settledInTime).log.get ⟨4, by decide⟩ ::
          ((((trio.machine.run settledInTime).get isSome_settledInTime).log.drop 5).take 6 ++
            ((trio.machine.run settledInTime).get isSome_settledInTime).log.get ⟨11, by decide⟩ ::
              ((trio.machine.run settledInTime).get isSome_settledInTime).log.drop 12) := by rfl
  obtain ⟨runs, hentries, -, hout⟩ :=
    handed_out_once (Machine.reachable_get isSome_settledInTime) htimed rfl hcall rfl rfl hfetched
      hsent hlog ⟨rfl, _, rfl⟩ rfl rfl (by decide)
  exact ⟨_, (Option.some_get isSome_settledInTime).symm, runs, hentries, hout⟩

end Deployment

end Pincerbell
