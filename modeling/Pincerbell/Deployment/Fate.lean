import Pincerbell.Deployment.Delivery
import Pincerbell.Gateway.Transparency
import Pincerbell.Queue.Conservation

/-!
# What becomes of a queued notification

A homeserver is told that a notification was accepted as soon as it is queued. From then on its
entry is accounted for: it waits in the queue, or it has left it for one of four reasons. If the
reason is an ack, a poll side has fetched the notification that was queued, and has handled the
device that it was queued for. If it is a newer badge, there is one that nothing has superseded.

* `exists_newest` — the newest badge for a device, in a run of the queue.
* `exists_of_gather_eq_append` — the step that an operation on a queue belongs to.
* `PassedOn` — what a poll side has done for an entry that an ack has settled.
* `accounted` — the statement, for any interleaving.
-/

namespace Pincerbell

namespace NotificationQueue

variable {q : NotificationQueue} {ops : List Op} {e : Entry}

/-- Of the badges for a device, one is the newest. -/
theorem exists_newest (he : e ∈ enqueued ops) : ∃ e' ∈ enqueued ops, e'.countKey = e.countKey ∧
    ∀ e'' ∈ enqueued ops, e''.countKey = e.countKey → e''.id ≤ e'.id := by
  have hmem : e ∈ (enqueued ops).filter (·.countKey = e.countKey) := by simpa using he
  have hsorted := (pairwise_enqueued ops).filter (·.countKey = e.countKey)
  -- the last one of them, as the ids grow
  rcases List.eq_nil_or_concat ((enqueued ops).filter (·.countKey = e.countKey)) with
    hnil | ⟨l, e', hl⟩
  · rw [hnil] at hmem
    cases hmem
  rw [List.concat_eq_append] at hl
  have hnewest : ∀ e'' ∈ enqueued ops, e''.countKey = e.countKey → e'' ∈ l ++ [e'] := by
    intro e'' he'' hkey
    rw [← hl]
    exact List.mem_filter.mpr ⟨he'', decide_eq_true hkey⟩
  have hlast : e' ∈ (enqueued ops).filter (·.countKey = e.countKey) := by simp [hl]
  obtain ⟨he', hkey'⟩ := List.mem_filter.mp hlast
  refine ⟨e', he', of_decide_eq_true hkey', fun e'' he'' hkey => ?_⟩
  rcases List.mem_append.mp (hnewest e'' he'' hkey) with hin | hin
  · rw [hl, List.pairwise_append] at hsorted
    exact Nat.le_of_lt (hsorted.2.2 e'' hin e' List.mem_cons_self)
  · exact Nat.le_of_eq (congrArg Entry.id (List.mem_singleton.mp hin))

/-- A badge is superseded only by one that is itself not superseded, in the end. -/
theorem InSituation.exists_newer (h : q.InSituation ops e .superseded) :
    ∃ e' ∈ enqueued ops, e'.countKey = e.countKey ∧ e.id < e'.id ∧
      ¬ q.InSituation ops e' .superseded := by
  obtain ⟨pre, now, max, ⟨⟨suf, rfl⟩, hheld, -⟩, -, e₁, he₁, hkey₁, hlt⟩ := h
  have hin : ∀ {e₁ : Entry} {pre suf : List Op} {op : Op}, e₁ ∈ enqueued pre →
      e₁ ∈ enqueued (pre ++ op :: suf) := mem_enqueued_append
  have he : e ∈ enqueued pre := (q.inv_run pre).held_enqueued hheld
  obtain ⟨e', he', hkey', hnewest⟩ :=
    exists_newest (show e ∈ enqueued (pre ++ .takeAt now max :: suf) from hin he)
  refine ⟨e', he', hkey', lt_of_lt_of_le hlt (hnewest e₁ (hin he₁) hkey₁), ?_⟩
  rintro ⟨pre', now', max', ⟨⟨suf', hsplit⟩, -⟩, -, e₂, he₂, hkey₂, hlt₂⟩
  have hold := hnewest e₂ (hsplit ▸ hin he₂) (hkey₂.trans hkey')
  exact absurd hlt₂ (Nat.not_lt_of_le hold)

end NotificationQueue

namespace Deployment

open Prog (Event)

variable {ι : Type} [DecidableEq ι] {D : Deployment ι} {s : State ι} {i j : ι} {e : Entry}

/-! ### The operations on a queue -/

/-- What is gathered belongs to a step. -/
theorem exists_of_gather_eq_append {β : Type} {f : Instant → Cmd → Option β} {log : List (Step ι)}
    {bs bs' : List β} {b : β} (h : gather f i log = bs ++ b :: bs') :
    ∃ pre r post, log = pre ++ r :: post ∧ gather f i pre = bs ∧ r.request.inst = i ∧
      f r.time r.event.1.2 = some b := by
  obtain ⟨log₁, log₂, rfl, hbs, hrest⟩ := List.filterMap_eq_append_iff.mp h
  obtain ⟨mid, r, post, rfl, hmid, hr, -⟩ := List.filterMap_eq_cons_iff.mp hrest
  obtain ⟨hinst, hr⟩ := Option.ite_none_right_eq_some.mp hr
  refine ⟨log₁ ++ mid, r, post, by simp, ?_, hinst, hr⟩
  rw [gather, List.filterMap_append, hbs, List.filterMap_eq_nil_iff.mpr hmid, List.append_nil]

theorem time_op? {now t : Instant} {c : Cmd} {op : Op} (hop : c.op? now = some op)
    (ht : op.time? = some t) : t = now := by
  unfold Cmd.op? at hop
  split at hop <;> cases hop <;> cases ht <;> rfl

/-- The clock of a queue goes with that of its instance. -/
theorem Timed.clocked {log : List (Step ι)} (h : Timed i log) : Clocked (queueLog i log) := by
  rw [Clocked, queueLog, gather, List.filterMap_filterMap, List.pairwise_filterMap]
  rw [Timed, Machine.Timed, List.pairwise_filter] at h
  refine h.imp fun {r r'} hle t ht t' ht' => ?_
  obtain ⟨op, hop, ht⟩ := Option.bind_eq_some_iff.mp ht
  obtain ⟨op', hop', ht'⟩ := Option.bind_eq_some_iff.mp ht'
  obtain ⟨hinst, hop⟩ := Option.ite_none_right_eq_some.mp hop
  obtain ⟨hinst', hop'⟩ := Option.ite_none_right_eq_some.mp hop'
  rw [time_op? hop ht, time_op? hop' ht']
  exact hle (decide_eq_true hinst) (decide_eq_true hinst')

/-! ### What a poll side has done -/

/-- A cycle for the upstream `j` has fetched the entry and handled this device of it, and the ack
that says so has reached `j`. -/
def PassedOn (D : Deployment ι) (s : State ι) (j : ι) (e : Entry) (n : Notification)
    (device : Device) : Prop :=
  ∃ k i call m entries req, s.calls[k]? = some call ∧ call.request = .pollOnce i j m ∧
    ⟨(none, .poll m), .ok entries⟩ ∈ Machine.trace k 0 s.log ∧ e.toPollEntry ∈ entries ∧
    Handled D.crates (D.app i) e.id n device (Machine.trace k 0 s.log) req ∧
    ∃ a ∈ s.log, a.request = .queueAck j req ∧ e.id ∈ req.acked

/-- An entry that an ack has settled has been passed on. -/
theorem passedOn_of_settled (h : D.machine.Reachable s) {q : QueueState}
    (hq : (D.app j).queue = some q)
    (hsettled : q.queue.InSituation (queueLog j s.log) e .settled) {n : Notification}
    {device : Device} (hpayload : Notification.fromValue e.payload = some n)
    (hdevice : device ∈ n.devices) : PassedOn D s j e n device := by
  obtain ⟨ops, ids, ⟨⟨suf, hops⟩, -⟩, hid, d, hleased⟩ := hsettled
  obtain ⟨pre, a, post, hlog, rfl, hinst, hop⟩ := exists_of_gather_eq_append hops
  obtain ⟨s₀, call, input, f, shared, hs₀, rfl, hcall, hreq, hrest, -⟩ := h.exists_perform hlog
  have hstep := branchStep_of_log h hlog
  obtain ⟨req₀, c, b, now, ⟨x, cmd⟩, res⟩ := a
  obtain rfl : cmd = .ack ids := by
    unfold Cmd.op? at hop
    split at hop <;> cases hop
    assumption
  -- up to the ack, the run is one in which the ack is about to settle the entry
  have hcallinst : call.request.inst = j := by rw [hreq, hinst]
  rw [← queue_eq hs₀ hq, ← hcallinst] at hleased
  obtain ⟨j', req, k, i, hack, ⟨cycle, m, entries, hcycle, hcyclereq, hfetched, hentry⟩,
    hhandled⟩ := attempt_of_ack hs₀ hcall hrest hid hleased
  obtain rfl : j' = j := by rw [← hcallinst, hack]; rfl
  obtain ⟨j'', req', hreq', rfl, -⟩ := hstep.of_ack
  cases (hack.symm.trans hreq).trans hreq'
  -- and what the cycle had done then, it has done
  have htrace : ∀ k, Machine.trace k 0 s.log = Machine.trace k 0 s₀.log ++
      Machine.trace k 0 (⟨req₀, c, b, now, ⟨(x, .ack req.acked), res⟩⟩ :: post) := by
    intro k
    rw [hlog, Machine.trace_append]
  obtain ⟨r, hr, rfl, -, -⟩ := Machine.mem_trace.mp hfetched
  obtain ⟨cycle', hcycle', hcyclereq'⟩ := h.tracks.logged (show r ∈ s.log by simp [hlog, hr])
  refine ⟨r.call, i, cycle', m, entries, req, hcycle', ?_, ?_, hentry, ?_,
    ⟨req₀, c, b, now, ⟨(x, .ack req.acked), res⟩⟩, by simp [hlog], hreq', hid⟩
  · rw [hcyclereq', hs₀.tracks.request_eq hr hcycle, hcyclereq]
  · rw [htrace]
    exact List.mem_append_left _ hfetched
  · rw [htrace]
    exact (hhandled n hpayload device hdevice).append [] _ (List.Subset.refl _)

/-! ### The account -/

/-- What an entry of the queue of `j` amounts to, that was queued for this device: it is in exactly
one situation. If an ack has settled it, it has been passed on. If a newer badge has superseded it,
there is one for the device that nothing has superseded. -/
structure Accounted (D : Deployment ι) (s : State ι) (j : ι) (q : NotificationQueue) (e : Entry)
    (n : Notification) (device : Device) : Prop where
  situation : ∃! fate, q.InSituation (queueLog j s.log) e fate
  settled : q.InSituation (queueLog j s.log) e .settled → PassedOn D s j e n device
  superseded : q.InSituation (queueLog j s.log) e .superseded →
    ∃ e' ∈ enqueued (queueLog j s.log), e'.countKey = e.countKey ∧ e.id < e'.id ∧
      ¬ q.InSituation (queueLog j s.log) e' .superseded

/-- In every interleaving with any number of pollers, any loss, duplication or delay of messages, and
a clock that does not go back, an instance that queues a notification for a device has an entry for
it that is accounted for. What a poll side handles when it is settled is the notification that was
queued, without its content and with this device alone. -/
theorem accounted (h : D.machine.Reachable s) {pre post : List (Step ι)} {r : Step ι}
    (hlog : s.log = pre ++ r :: post) (htimed : Timed r.request.inst s.log) {n : Notification}
    {device : Device} (hr : r.event.1.2 = .enqueue n device) (hflat : device.Flattened) :
    ∃ q e, (D.app r.request.inst).queue = some q ∧ e ∈ enqueued (queueLog r.request.inst s.log) ∧
      e.enqueued = r.time ∧ e.payload = payload n device ∧ e.countKey = countKey n device ∧
      Accounted D s r.request.inst q.queue e { n with content := none, devices := [device] }
        device := by
  have hqueue : (D.app r.request.inst).queue.isSome := by
    have hstep := branchStep_of_log h hlog
    have hevent : r.event.1 = (r.event.1.1, .enqueue n device) := Prod.ext rfl hr
    rw [hevent] at hstep
    exact hstep.of_enqueue
  obtain ⟨q, hq⟩ := Option.isSome_iff_exists.mp hqueue
  -- the entry that the step creates
  obtain ⟨e, he, htime, hpayload, hkey⟩ : ∃ e ∈ enqueued (queueLog r.request.inst s.log),
      e.enqueued = r.time ∧ e.payload = payload n device ∧ e.countKey = countKey n device := by
    have hops : queueLog r.request.inst s.log = queueLog r.request.inst pre ++
        .enqueueAt r.time (payload n device) (countKey n device) ::
          queueLog r.request.inst post := by
      rw [hlog, queueLog, gather_append, ← List.singleton_append (l := post), gather_append,
        gather_singleton _ rfl, hr]
      rfl
    rw [hops, enqueued, enqueuedFrom_append]
    exact ⟨_, List.mem_append_right _ List.mem_cons_self, rfl, rfl, rfl⟩
  refine ⟨q, e, hq, he, htime, hpayload, hkey, ?_, fun hsettled => ?_, fun h => h.exists_newer⟩
  · -- it is stored, or it has left at one of the operations
    by_cases hheld : (q.queue.run (queueLog r.request.inst s.log)).Held e
    · obtain ⟨fate, hfate⟩ := NotificationQueue.exists_inSituation_of_held hheld
      exact ⟨fate, hfate, fun fate' hfate' => hfate'.unique_of_held hheld hfate⟩
    · obtain ⟨ops, op, hleave⟩ := NotificationQueue.exists_leaves he hheld
      exact ⟨_, hleave.inSituation_exitOf htimed.clocked, fun fate' hfate' =>
        hleave.eq_exitOf hfate'⟩
  · refine passedOn_of_settled h hq hsettled ?_ List.mem_cons_self
    rw [hpayload]
    exact fromValue_payload hflat

/-- The ack of the cycle is carried out. -/
def settled : List (Machine.Label (Request Side) Input) := relayed ++ [.perform 3 0 0 .none]

theorem isSome_settled : (trio.machine.run settled).isSome = true := by decide

theorem accounted_settled : ∃ s q e, trio.machine.run settled = some s ∧
    e.payload = payload event { appId := "app", pushkey := "pk" } ∧
    Accounted trio s .queue q e event { appId := "app", pushkey := "pk" } := by
  have htimed : Timed .queue ((trio.machine.run settled).get isSome_settled).log := by
    decide
  -- the notification is queued by the third step
  have hlog : ((trio.machine.run settled).get isSome_settled).log =
      ((trio.machine.run settled).get isSome_settled).log.take 2 ++
        ((trio.machine.run settled).get isSome_settled).log.get ⟨2, by decide⟩ ::
          ((trio.machine.run settled).get isSome_settled).log.drop 3 := by rfl
  have hflat : Device.Flattened { appId := "app", pushkey := "pk" } := by
    rintro data ⟨⟩
  obtain ⟨q, e, -, -, -, hpayload, -, haccounted⟩ :=
    accounted (Machine.reachable_get isSome_settled) hlog htimed rfl hflat
  exact ⟨_, _, e, (Option.some_get isSome_settled).symm, hpayload, haccounted⟩

end Deployment

end Pincerbell
