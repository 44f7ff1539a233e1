import Pincerbell.Deployment.Duplicates
import Pincerbell.Deployment.Rejection

/-!
# Retrying a notify request

A request that fails is sent again as a whole. The cache remembers which of its devices are done, so
that a retry goes to the others.

* `Before` — a call that starts after the response to another.
* `Retries` — the calls for one notification, within a window, and nothing else that records its
  event.
* `HandedOver` — the push service of a device was called, and with which outcome.
* `Retries.record_of_check`, `Retries.check_after_record` — a check finds something exactly when one
  of the calls has recorded the device before.
* `retries_complete` — a sequence of calls delivers what has not been delivered, and nothing else.
-/

namespace Pincerbell

open Machine (eq_append_of_getElem?)
open Prog (Event)

namespace Deployment

variable {ι : Type} [DecidableEq ι] {D : Deployment ι} {s : State ι} {i : ι} {n : Notification}
  {eventId : String} {pre post : List (Step ι)} {calls : List ℕ}

/-! ### Sequences of calls -/

/-- Call `k` has finished, and call `k'` performs nothing before it has. -/
structure Before (s : State ι) (k k' : ℕ) : Prop where
  lt : k < k'
  finished : ∃ call, s.calls[k]? = some call ∧ ∀ p ∈ call.rest, p.result?.isSome
  apart : s.log.Pairwise fun r r' => r.call = k' → r'.call ≠ k

/-- The calls for the notification at an instance, one after the other. All of it happens in `post`,
within a window and without evictions, on a cache that did not know the devices, and nothing else
records the event. -/
structure Retries (D : Deployment ι) (s : State ι) (i : ι) (n : Notification) (eventId : String)
    (pre post : List (Step ι)) (calls : List ℕ) : Prop where
  log : s.log = pre ++ post
  request : ∀ k ∈ calls, ∃ call, s.calls[k]? = some call ∧ call.request = .notify i n
  ordered : calls.Pairwise (Before s)
  started : ∀ r ∈ pre, r.call ∉ calls
  unknown : ∀ device ∈ n.devices, ((D.app i).dedup.after (dedupLog i pre)).seen.lookup
    (eventId, device.appId, device.pushkey) = none
  inTime : ∀ r ∈ post, ∀ r' ∈ post, r.call ∈ calls → r'.call ∈ calls →
    r'.time < r.time + (D.app i).dedup.ttl
  noEviction : (D.app i).dedup.NoEviction (dedupLog i pre) (dedupLog i post)
  alone : ∀ r ∈ post, r.request.inst = i → ∀ appId pushkey,
    r.event.untag = recordOf (eventId, appId, pushkey) → r.call ∈ calls

/-- The devices have pairwise distinct pairs of app and pushkey. -/
def DistinctDevices (n : Notification) : Prop :=
  (n.devices.map fun device => (device.appId, device.pushkey)).Nodup

/-- The step at `a` calls the push service of the device for one of the calls. -/
def HandedOver (D : Deployment ι) (s : State ι) (i : ι) (n : Notification) (device : Device)
    (calls : List ℕ) (a : ℕ) (outcome : Outcome) : Prop :=
  ∃ r provider answers, s.log[a]? = some r ∧ r.call ∈ calls ∧
    (D.app i).providers.lookup device.appId = some provider ∧
    r.event.untag = ⟨.deliver provider n device, answers⟩ ∧
    provider.deliver D.crates device answers = outcome

/-! ### Steps of the calls -/

omit [DecidableEq ι] in
theorem Before.lt_of_getElem? {k k' : ℕ} (h : Before s k k') {a b : ℕ} {r r' : Step ι}
    (ha : s.log[a]? = some r) (hb : s.log[b]? = some r') (hr : r.call = k) (hr' : r'.call = k') :
    a < b := by
  obtain ⟨ha', rfl⟩ := List.getElem?_eq_some_iff.mp ha
  obtain ⟨hb', rfl⟩ := List.getElem?_eq_some_iff.mp hb
  have hpair := List.pairwise_iff_getElem.mp h.apart b a hb' ha'
  rcases Nat.lt_trichotomy a b with hlt | rfl | hgt
  · exact hlt
  · have hkk' := h.lt
    omega
  · exact absurd hr (hpair hgt hr')

/-- The step of a device's branch is one of the device's pipeline. -/
theorem deviceStep_of_log (h : D.machine.Reachable s) {a : ℕ} {r : Step ι}
    (ha : s.log[a]? = some r) (hreq : r.request = .notify i n) :
    ∃ device, n.devices[r.branch]? = some device ∧ DeviceStep (D.app i) n device r.event.1.2 := by
  have hstep := h.always_getElem?
    (P := fun req b _ e => ∀ i n, req = .notify i n →
      ∃ device, n.devices[b]? = some device ∧ DeviceStep (D.app i) n device e.1.2) ?_
    (eq_append_of_getElem? ha)
  · exact hstep i n hreq
  · intro req b p hp
    cases req with
    | notify i n =>
      have hget : (n.devices.map fun device =>
          Finished.device <$> (deliverOne D.crates (D.app i) n device).tag none)[b]? = some p := hp
      rw [List.getElem?_map, Option.map_eq_some_iff] at hget
      obtain ⟨device, hdevice, rfl⟩ := hget
      refine (Prog.always_tag_iff.mpr (always_deviceStep_deliverOne.mono fun t e he => ?_)).map _
      rintro i' n' ⟨⟩
      exact ⟨device, hdevice, he⟩
    | _ =>
      -- the other requests have no devices
      refine (always_branchStep _ p (List.mem_of_getElem? hp)).mono fun _ _ _ i n heq => ?_
      cases heq

/-- The app and the pushkey that a step is for. -/
def pairOf : Event Cmd Cmd.Res → Option (String × String)
  | ⟨.isDuplicate _ appId pushkey, _⟩ => some (appId, pushkey)
  | ⟨.deliver _ _ device, _⟩ => some (device.appId, device.pushkey)
  | _ => none

theorem eq_of_pairOf {state : AppState} {device : Device} {e : Event Cmd Cmd.Res}
    {x : String × String} (h : DeviceStep state n device e.1) (hx : pairOf e = some x) :
    x = (device.appId, device.pushkey) := by
  obtain ⟨c, res⟩ := e
  cases c with
  | isDuplicate eventId appId pushkey =>
    cases hx
    obtain ⟨eventId', -, heq⟩ := Option.map_eq_some_iff.mp h
    cases heq
    rfl
  | deliver provider n' device' =>
    obtain ⟨-, -, rfl⟩ := h
    exact (Option.some_inj.mp hx).symm
  | _ => cases hx

/-- A pair belongs to one device. -/
theorem DistinctDevices.index_eq (h : DistinctDevices n) {b b' : ℕ} {device device' : Device}
    (hb : n.devices[b]? = some device) (hb' : n.devices[b']? = some device')
    (hpair : (device.appId, device.pushkey) = (device'.appId, device'.pushkey)) : b = b' := by
  refine (List.getElem?_inj ?_ h).mp ?_
  · rw [List.length_map]
    exact (List.getElem?_eq_some_iff.mp hb).1
  · rw [List.getElem?_map, List.getElem?_map, hb, hb', Option.map_some, Option.map_some, hpair]

/-- Two steps of one call for the same pair belong to the same device. -/
theorem branch_eq (h : D.machine.Reachable s) (hdistinct : DistinctDevices n) {a c : ℕ}
    {r r' : Step ι} (ha : s.log[a]? = some r) (hc : s.log[c]? = some r')
    (hreq : r.request = .notify i n) (hcall : r.call = r'.call) {x : String × String}
    (hx : pairOf r.event.untag = some x) (hx' : pairOf r'.event.untag = some x) :
    r.branch = r'.branch := by
  have hreq' : r'.request = .notify i n := by
    rw [← hreq]
    exact (h.tracks.request_inj (List.mem_of_getElem? ha) (List.mem_of_getElem? hc) hcall).symm
  obtain ⟨device, hdevice, hstep⟩ := deviceStep_of_log h ha hreq
  obtain ⟨device', hdevice', hstep'⟩ := deviceStep_of_log h hc hreq'
  have hpair := (eq_of_pairOf hstep hx).symm.trans (eq_of_pairOf hstep' hx')
  exact hdistinct.index_eq hdevice hdevice' hpair

/-- The branch of a step in a call that has finished has returned. -/
theorem returns_of_finished (h : D.machine.Reachable s) {a : ℕ} {r : Step ι}
    (ha : s.log[a]? = some r) {call : Call ι} (hget : s.calls[r.call]? = some call)
    (hdone : ∀ p ∈ call.rest, p.result?.isSome) :
    ∃ p₀ f, p₀ ∈ D.branches call.request ∧ p₀.Returns (Machine.trace r.call r.branch s.log) f := by
  obtain ⟨s₀, call₀, _, _, _, hs₀, -, hget₀, hreq₀, hrest₀, -⟩ :=
    h.exists_perform (eq_append_of_getElem? ha)
  have hreq : r.request = call.request := h.tracks.request_eq (List.mem_of_getElem? ha) hget
  have hlt : r.branch < call.rest.length := by
    rw [h.tracks.length hget, ← hreq, ← hreq₀, ← hs₀.tracks.length hget₀]
    exact (List.getElem?_eq_some_iff.mp hrest₀).1
  have hp := List.getElem?_eq_getElem hlt
  obtain ⟨p₀, hp₀, hsteps⟩ := h.tracks.steps hget hp
  -- a program with a result is one that has returned
  have hsome := hdone _ (List.mem_of_getElem? hp)
  generalize call.rest[r.branch] = p at hsteps hsome
  cases p with
  | pure f => exact ⟨p₀, f, List.mem_of_getElem? hp₀, hsteps⟩
  | call c fn => cases hsome

/-- In a branch that has finished, a success is followed by its record. -/
theorem next_of_finished (h : D.machine.Reachable s) {a : ℕ} {r : Step ι}
    (ha : s.log[a]? = some r) {call : Call ι} (hget : s.calls[r.call]? = some call)
    (hdone : ∀ p ∈ call.rest, p.result?.isSome) {key : Key}
    (hs : successOf D.crates r.event.untag = some key) : ∃ p r', Machine.Next s.log a p r r' := by
  obtain ⟨b, r₁, hab, hb, hget₁, hsame, hlast⟩ :=
    Machine.exists_last ha (List.getElem?_eq_some_iff.mp ha).1
  rw [List.take_length] at hlast
  have hne : a ≠ b := by
    rintro rfl
    obtain rfl : r = r₁ := Option.some_inj.mp (ha.symm.trans hget₁)
    -- the branch has ended with a step that is no success
    obtain ⟨p₀, f, hp₀, hreturns⟩ := returns_of_finished h ha hget hdone
    have hquiet := (chained_branches _ p₀ hp₀).of_returns hreturns
    rw [hlast, Option.some_or, markedQuiet_some, hs] at hquiet
    cases hquiet
  obtain ⟨p, r', hnext, -⟩ := Machine.exists_next ha hget₁ (Nat.lt_of_le_of_ne hab hne) hsame
  exact ⟨p, r', hnext⟩

omit [DecidableEq ι] in
/-- An event of a branch is that of a step in the log. -/
theorem exists_of_mem_deviceTrace {k b : ℕ} {e : Event Cmd Cmd.Res}
    (he : e ∈ deviceTrace k b s.log) :
    ∃ (a : ℕ) (r : Step ι), s.log[a]? = some r ∧ r.call = k ∧ r.branch = b ∧ r.event.untag = e := by
  obtain ⟨pre, r, post, hlog, hk, hb, hevent⟩ := mem_deviceTrace.mp he
  exact ⟨pre.length, r, by simp [hlog], hk, hb, hevent⟩

omit [DecidableEq ι] in
theorem HandedOver.mono {device : Device} {calls' : List ℕ} {a : ℕ} {outcome : Outcome}
    (h : HandedOver D s i n device calls a outcome) (hsub : ∀ k ∈ calls, k ∈ calls') :
    HandedOver D s i n device calls' a outcome := by
  obtain ⟨r, provider, answers, ha, hcall, hrest⟩ := h
  exact ⟨r, provider, answers, ha, hsub _ hcall, hrest⟩

omit [DecidableEq ι] in
/-- A step has one outcome. -/
theorem HandedOver.outcome_eq {device : Device} {calls' : List ℕ} {a : ℕ}
    {outcome outcome' : Outcome} (h : HandedOver D s i n device calls a outcome)
    (h' : HandedOver D s i n device calls' a outcome') : outcome = outcome' := by
  obtain ⟨r, provider, answers, ha, -, -, hevent, rfl⟩ := h
  obtain ⟨r', provider', answers', ha', -, -, hevent', rfl⟩ := h'
  obtain rfl : r = r' := Option.some_inj.mp (ha.symm.trans ha')
  rw [hevent] at hevent'
  cases hevent'
  rfl

namespace Retries

variable (h : D.machine.Reachable s) (htimed : Timed i s.log) (hqueue : (D.app i).queue = none)
  (hevent : n.eventId = some eventId) (hdistinct : DistinctDevices n)
  (hr : Retries D s i n eventId pre post calls)

include h hr

/-- The request of a step of one of the calls. -/
theorem request_eq {a : ℕ} {r : Step ι} (ha : s.log[a]? = some r) (hcall : r.call ∈ calls) :
    r.request = .notify i n := by
  obtain ⟨call, hget, hreq⟩ := hr.request r.call hcall
  rw [← hreq]
  exact h.tracks.request_eq (List.mem_of_getElem? ha) hget

omit h in
/-- A step of one of the calls happens in the second part of the log. -/
theorem length_le {a : ℕ} {r : Step ι} (ha : s.log[a]? = some r) (hcall : r.call ∈ calls) :
    pre.length ≤ a ∧ r ∈ post := by
  rw [hr.log] at ha
  rcases Nat.lt_or_ge a pre.length with hlt | hge
  · rw [List.getElem?_append_left hlt] at ha
    exact absurd hcall (hr.started r (List.mem_of_getElem? ha))
  · rw [List.getElem?_append_right hge] at ha
    exact ⟨hge, List.mem_of_getElem? ha⟩

omit h in
/-- What is recorded before a step of one of the calls. -/
theorem dedupLog_take_eq {c : ℕ} {r : Step ι} (hc : s.log[c]? = some r) (hcall : r.call ∈ calls) :
    dedupLog i (s.log.take c) =
      dedupLog i pre ++ dedupLog i ((s.log.take c).drop pre.length) := by
  rw [dedupLog_take (hr.length_le hc hcall).1]
  rw [hr.log, List.take_left]

omit h in
/-- What is recorded under a key of the event was recorded by one of the calls. -/
theorem mem_calls_of_recorded {p : ℕ} {r : Step ι} (hp : s.log[p]? = some r)
    (hle : pre.length ≤ p) (hinst : r.request.inst = i) {device : Device}
    (hrec : r.event.untag = recordOf (eventId, device.appId, device.pushkey)) :
    r.call ∈ calls := by
  refine hr.alone r ?_ hinst _ _ hrec
  rw [hr.log, List.getElem?_append_right hle] at hp
  exact List.mem_of_getElem? hp

/-- A check that finds something comes after a record of one of the calls. -/
theorem record_of_check {c : ℕ} {r : Step ι} (hc : s.log[c]? = some r) (hcall : r.call ∈ calls)
    {device : Device} (hdevice : device ∈ n.devices)
    (hcheck : r.event.untag = checkOf true (eventId, device.appId, device.pushkey)) :
    ∃ p r', s.log[p]? = some r' ∧ p < c ∧ r'.call ∈ calls ∧
      r'.event.untag = recordOf (eventId, device.appId, device.pushkey) := by
  have hdup := isDuplicate_of_log h (eq_append_of_getElem? hc) hcheck
  rw [hr.request_eq h hc hcall] at hdup
  obtain ⟨t, hl, -⟩ := DedupCache.isDuplicateAt_iff.mp hdup
  by_contra hnot
  -- without a record the cache is as it was in the beginning
  have hbefore : ((D.app i).dedup.after (dedupLog i pre)).seen.lookup
      (eventId, device.appId, device.pushkey) = some t := by
    refine DedupCache.lookup_after_of_append (hr.dedupLog_take_eq hc hcall ▸ hl) ?_
    rintro ⟨t', key⟩ hmem rfl
    obtain ⟨p, r', hle, hlt, hp, hinst, -, hrec⟩ := exists_of_mem_dedupLog_drop hmem
    exact hnot ⟨p, r', hp, hlt, hr.mem_calls_of_recorded hp hle hinst hrec, hrec⟩
  rw [hr.unknown device hdevice] at hbefore
  cases hbefore

include htimed

/-- After a record of one of the calls, a check of one of the calls finds something. -/
theorem check_after_record {p c : ℕ} {r r' : Step ι} (hp : s.log[p]? = some r)
    (hc : s.log[c]? = some r') (hlt : p < c) (hcall : r.call ∈ calls) (hcall' : r'.call ∈ calls)
    {device : Device} (hdevice : device ∈ n.devices)
    (hrec : r.event.untag = recordOf (eventId, device.appId, device.pushkey)) {duplicate : Bool}
    (hcheck : r'.event.untag = checkOf duplicate (eventId, device.appId, device.pushkey)) :
    duplicate = true := by
  have hdup := isDuplicate_of_log h (eq_append_of_getElem? hc) hcheck
  have hreq := hr.request_eq h hc hcall'
  rw [hreq] at hdup
  rw [← hdup, DedupCache.isDuplicateAt_iff]
  show ∃ t, ((D.app i).dedup.after (dedupLog i (s.log.take c))).seen.lookup _ = some t ∧ _
  rw [hr.dedupLog_take_eq hc hcall']
  have httl : (D.app i).dedup.ttl ≠ 0 := by
    have hpost := (hr.length_le hc hcall').2
    have hself := hr.inTime r' hpost r' hpost hcall' hcall'
    intro hzero
    rw [hzero] at hself
    exact Nat.lt_irrefl _ hself
  -- everything recorded under the key is less than a window before the check
  have hlive : ∀ t, (t, (eventId, device.appId, device.pushkey)) ∈
      dedupLog i ((s.log.take c).drop pre.length) → r'.time < t + (D.app i).dedup.ttl := by
    intro t hmem
    obtain ⟨k, r₀, hle, -, hk, hinst, rfl, hrec₀⟩ := exists_of_mem_dedupLog_drop hmem
    have hcall₀ := hr.mem_calls_of_recorded hk hle hinst hrec₀
    exact hr.inTime r₀ (hr.length_le hk hcall₀).2 r' (hr.length_le hc hcall').2 hcall₀ hcall'
  have hearlier : ∀ x ∈ dedupLog i ((s.log.take c).drop pre.length), x.1 ≤ r'.time := by
    rintro ⟨t, key⟩ hmem
    obtain ⟨k, r₀, -, hkc, hk, hinst, rfl, -⟩ := exists_of_mem_dedupLog_drop hmem
    exact htimed.le_of_lt hk hc hkc hinst (by rw [hreq]; rfl)
  have hrecorded : (r.time, (eventId, device.appId, device.pushkey)) ∈
      dedupLog i ((s.log.take c).drop pre.length) := by
    refine mem_gather.mpr ⟨r, ?_, by rw [hr.request_eq h hp hcall]; rfl, ?_⟩
    · refine List.mem_of_getElem? (i := p - pre.length) ?_
      rw [List.getElem?_drop, Nat.add_sub_cancel' (hr.length_le hp hcall).1,
        List.getElem?_take_of_lt hlt, hp]
    · obtain ⟨_, _, _, _, ⟨x, cmd⟩, res⟩ := r
      cases hrec
      rfl
  -- no recording before the check evicts anything
  have hkeep : (D.app i).dedup.NoEviction (dedupLog i pre)
      (dedupLog i ((s.log.take c).drop pre.length)) := by
    rw [List.drop_take, hr.log, List.drop_left]
    exact fun before x hpre => hr.noEviction before x (hpre.trans (dedupLog_take_isPrefix _ _))
  obtain ⟨t, hl, hmem⟩ := DedupCache.exists_lookup_after hkeep (hr.unknown device hdevice)
    (fun t x ht hx => sub_lt_of_lt_add
      (Nat.lt_of_le_of_lt (hearlier x hx) (hlive t ht)) httl) hrecorded
  exact ⟨t, hl, sub_lt_of_lt_add (hlive t hmem) httl⟩

/-! ### Devices -/

omit h htimed in
/-- Two calls of the sequence come one after the other. -/
theorem before_or_before {k k' : ℕ} (hk : k ∈ calls) (hk' : k' ∈ calls) (hne : k ≠ k') :
    Before s k k' ∨ Before s k' k := by
  have hsymm : Std.Symm fun k k' => Before s k k' ∨ Before s k' k := ⟨fun _ _ => Or.symm⟩
  exact (hr.ordered.imp (S := fun k k' => Before s k k' ∨ Before s k' k) .inl).forall hk hk' hne

omit htimed in
include hdistinct in
/-- A success of one of the calls is recorded before a later check of the device. -/
theorem record_of_success {a c : ℕ} {r r' : Step ι} (ha : s.log[a]? = some r)
    (hc : s.log[c]? = some r') (hac : a < c) (hcall : r.call ∈ calls) (hcall' : r'.call ∈ calls)
    {device : Device} (hpair : pairOf r.event.untag = some (device.appId, device.pushkey))
    (hs : successOf D.crates r.event.untag = some (eventId, device.appId, device.pushkey))
    {duplicate : Bool}
    (hcheck : r'.event.untag = checkOf duplicate (eventId, device.appId, device.pushkey)) :
    ∃ p r₁, s.log[p]? = some r₁ ∧ p < c ∧ r₁.call ∈ calls ∧
      r₁.event.untag = recordOf (eventId, device.appId, device.pushkey) := by
  have hpair' : pairOf r'.event.untag = some (device.appId, device.pushkey) := by
    rw [hcheck]
    rfl
  by_cases hsame : r.call = r'.call
  · -- in one call, the record is the next step of the branch, and the check a later one
    have hbranch := branch_eq h hdistinct ha hc (hr.request_eq h ha hcall) hsame hpair hpair'
    obtain ⟨p, r₁, hnext, hpc⟩ := Machine.exists_next ha hc hac ⟨hsame, hbranch⟩
    have hrec := record_of_next h hnext hs
    refine ⟨p, r₁, hnext.second, Nat.lt_of_le_of_ne hpc ?_, hnext.same.1 ▸ hcall, by rw [hrec]; rfl⟩
    rintro rfl
    obtain rfl : r₁ = r' := Option.some_inj.mp (hnext.second.symm.trans hc)
    rw [hrec] at hcheck
    cases hcheck
  · -- the call of the success has finished before the call of the check
    rcases hr.before_or_before hcall hcall' hsame with hbefore | hbefore
    · obtain ⟨call, hget, hdone⟩ := hbefore.finished
      obtain ⟨p, r₁, hnext⟩ := next_of_finished h ha hget hdone hs
      have hrec := record_of_next h hnext hs
      exact ⟨p, r₁, hnext.second, hbefore.lt_of_getElem? hnext.second hc hnext.same.1.symm rfl,
        hnext.same.1 ▸ hcall, by rw [hrec]; rfl⟩
    · have hca := hbefore.lt_of_getElem? hc ha rfl rfl
      omega

include hevent hdistinct in
/-- After a delivery to a device, its push service is not called again. -/
theorem not_lt_of_delivered {device : Device} (hdevice : device ∈ n.devices) {a a' : ℕ}
    {outcome : Outcome} (hdelivered : HandedOver D s i n device calls a .delivered)
    (hagain : HandedOver D s i n device calls a' outcome) : ¬ a < a' := by
  intro hlt
  obtain ⟨r, provider, answers, ha, hcall, -, hdeliver, houtcome⟩ := hdelivered
  obtain ⟨r', provider', answers', ha', hcall', -, hdeliver', -⟩ := hagain
  have hkey : dedupKey n device = some (eventId, device.appId, device.pushkey) := by
    rw [dedupKey, hevent, Option.map_some]
  have hpair : pairOf r.event.untag = some (device.appId, device.pushkey) := by
    rw [hdeliver]
    rfl
  have hpair' : pairOf r'.event.untag = some (device.appId, device.pushkey) := by
    rw [hdeliver']
    rfl
  have hattempt : attemptOf r'.event.untag = some (eventId, device.appId, device.pushkey) := by
    rw [hdeliver']
    exact hkey
  obtain ⟨c, r'', hnext, hcheck⟩ := check_of_attempt h ha' hattempt
  have hac : a < c := by
    by_cases hsame : r.call = r'.call
    · -- the check is the step before the second delivery in the same branch
      have hbranch := branch_eq h hdistinct ha ha' (hr.request_eq h ha hcall) hsame hpair hpair'
      by_contra hca
      -- the check is not the first delivery itself, and not before it
      have hne : c ≠ a := by
        rintro rfl
        obtain rfl : r'' = r := Option.some_inj.mp (hnext.first.symm.trans ha)
        rw [hcheck] at hdeliver
        cases hdeliver
      exact hnext.between (by omega) hlt ha
        ⟨hnext.same.1.trans hsame.symm, hnext.same.2.trans hbranch.symm⟩
    · rcases hr.before_or_before hcall hcall' hsame with hbefore | hbefore
      · exact hbefore.lt_of_getElem? ha hnext.first rfl hnext.same.1
      · have hlt' := hbefore.lt_of_getElem? ha' ha rfl rfl
        omega
  have hcheck' : r''.event.untag = checkOf false (eventId, device.appId, device.pushkey) := by
    rw [hcheck]
    rfl
  have hcall'' : r''.call ∈ calls := hnext.same.1 ▸ hcall'
  have hs : successOf D.crates r.event.untag = some (eventId, device.appId, device.pushkey) := by
    rw [hdeliver]
    exact (if_pos houtcome).trans hkey
  obtain ⟨p, r₁, hp, hpc, hcall₁, hrec⟩ :=
    hr.record_of_success h hdistinct ha hnext.first hac hcall hcall'' hpair hs hcheck'
  cases hr.check_after_record h htimed hp hnext.first hpc hcall₁ hcall'' hdevice hrec hcheck'

omit htimed in
include hqueue hevent hdistinct in
/-- A record of one of the calls comes after a delivery to the device by one of the calls. -/
theorem handedOver_of_record {device : Device} (hdevice : device ∈ n.devices) {p : ℕ} {r : Step ι}
    (hp : s.log[p]? = some r) (hcall : r.call ∈ calls)
    (hrec : r.event.untag = recordOf (eventId, device.appId, device.pushkey)) :
    ∃ a, a < p ∧ HandedOver D s i n device calls a .delivered := by
  obtain ⟨a, r', hnext, hs⟩ := success_before_record h hp hrec
  have hcall' : r'.call ∈ calls := hnext.same.1 ▸ hcall
  have hreq := hr.request_eq h hnext.first hcall'
  obtain ⟨provider, n', device', answers, hdeliver, houtcome, hkey⟩ :=
    delivered_of_success h (eq_append_of_getElem? hnext.first) hs (by rw [hreq]; exact hqueue)
  obtain ⟨device'', hdevice'', hstep⟩ := deviceStep_of_log h hnext.first hreq
  have hcmd : r'.event.1.2 = .deliver provider n' device' :=
    congrArg (fun e : Event Cmd Cmd.Res => e.1) hdeliver
  rw [hcmd] at hstep
  obtain ⟨hprovider, rfl, rfl⟩ := hstep
  -- the key tells which device it is
  obtain ⟨b, hb⟩ := List.mem_iff_getElem?.mp hdevice
  have hpair : (device'.appId, device'.pushkey) = (device.appId, device.pushkey) := by
    rw [dedupKey, hevent, Option.map_some] at hkey
    exact congrArg Prod.snd (Option.some_inj.mp hkey)
  have hindex := hdistinct.index_eq hdevice'' hb hpair
  rw [hindex, hb] at hdevice''
  cases hdevice''
  exact ⟨a, hnext.lt, r', provider, answers, hnext.first, hcall', hprovider, hdeliver, houtcome⟩

omit h htimed in
/-- What one of the calls has done before a step of another was done by a call before that one, or
by itself. -/
theorem earlier {before after : List ℕ} {k : ℕ} (hcalls : calls = before ++ k :: after)
    {device : Device} {a c : ℕ} {r : Step ι} {outcome : Outcome}
    (hover : HandedOver D s i n device calls a outcome) (hc : s.log[c]? = some r) (hk : r.call = k)
    (hac : a < c) : HandedOver D s i n device (before ++ [k]) a outcome := by
  obtain ⟨r', provider, answers, ha, hcall, hrest⟩ := hover
  refine ⟨r', provider, answers, ha, ?_, hrest⟩
  rw [hcalls] at hcall
  rcases List.mem_append.mp hcall with hmem | hmem
  · exact List.mem_append_left _ hmem
  · rcases List.mem_cons.mp hmem with heq | hmem
    · simp [heq]
    · -- a later call begins when this one is done
      have hordered := hr.ordered
      rw [hcalls] at hordered
      have hbefore : Before s k r'.call :=
        List.rel_of_pairwise_cons (List.pairwise_append.mp hordered).2.1 hmem
      have hca := hbefore.lt_of_getElem? hc ha hk rfl
      omega

omit htimed in
include hdistinct in
/-- What one of the calls hands to the push service of a device, it hands over in the branch of the
device. -/
theorem mem_deviceTrace_of_handedOver {k : ℕ} (hk : k ∈ calls) {b : ℕ} {device : Device}
    (hb : n.devices[b]? = some device) {a : ℕ} {outcome : Outcome}
    (hover : HandedOver D s i n device [k] a outcome) :
    ∃ provider answers, (⟨.deliver provider n device, answers⟩ : Event Cmd Cmd.Res) ∈
      deviceTrace k b s.log := by
  obtain ⟨r, provider, answers, ha, hcall, -, hdeliver, -⟩ := hover
  have hcall' : r.call = k := List.mem_singleton.mp hcall
  -- the pair tells which device the step is for
  obtain ⟨device', hdevice', hstep⟩ :=
    deviceStep_of_log h ha (hr.request_eq h ha (hcall' ▸ hk))
  have hpair : pairOf r.event.untag = some (device.appId, device.pushkey) := by
    rw [hdeliver]
    rfl
  have hindex := hdistinct.index_eq hb hdevice' (eq_of_pairOf hstep hpair)
  refine ⟨provider, answers, hdeliver ▸ List.mem_map_of_mem (Machine.mem_trace.mpr ?_)⟩
  exact ⟨r, List.mem_of_getElem? ha, hcall', hindex.symm, rfl⟩

omit htimed in
include hqueue hevent hdistinct in
/-- A device that is done was handed to its push service in this call, with an outcome that decides
what became of it, or it was suppressed after a delivery by one of the calls. -/
theorem handedOver_or_delivered {before after : List ℕ} {k : ℕ}
    (hcalls : calls = before ++ k :: after) {call : Call ι} (hget : s.calls[k]? = some call) {b : ℕ}
    {device : Device} (hb : n.devices[b]? = some device) {d : Disposition}
    (hdone : call.rest[b]? = some (Prog.pure (.device d))) {provider : Provider}
    (hprovider : (D.app i).providers.lookup device.appId = some provider) :
    (∃ a outcome, HandedOver D s i n device [k] a outcome ∧
      (outcome = .rejected → d = .reject device.pushkey) ∧
      ∀ error, outcome = .transient error → d = .transient) ∨
    (∀ a outcome, ¬ HandedOver D s i n device [k] a outcome) ∧
      ∃ a, HandedOver D s i n device (before ++ [k]) a .delivered := by
  have hk : k ∈ calls := by simp [hcalls]
  have hdevice : device ∈ n.devices := List.mem_of_getElem? hb
  obtain ⟨call', hget', hreq⟩ := hr.request k hk
  cases hget.symm.trans hget'
  have hreturns := returns_of_notify h hget hreq hb hdone
  have hrun := deviceRun_of_returns hreturns
  -- the steps of the branch that call the push service
  have hover : ∀ provider' answers, (⟨.deliver provider' n device, answers⟩ : Event Cmd Cmd.Res) ∈
      deviceTrace k b s.log → provider' = provider →
      ∃ a, HandedOver D s i n device [k] a (provider'.deliver D.crates device answers) := by
    rintro provider' answers hmem rfl
    obtain ⟨a, r, ha, hcall, -, hevent'⟩ := exists_of_mem_deviceTrace hmem
    exact ⟨a, r, _, answers, ha, by simp [hcall], hprovider, hevent', rfl⟩
  generalize htrace : deviceTrace k b s.log = t at hreturns hrun hover
  cases hrun with
  | unknown hnone | reported hnone | queueSuppressed hnone | queued hnone | queueFailed hnone =>
    rw [hprovider] at hnone
    cases hnone
  | @suppressed _ key _ hkey =>
    right
    have hkey' : key = (eventId, device.appId, device.pushkey) := by
      rw [dedupKey, hevent, Option.map_some] at hkey
      exact (Option.some_inj.mp hkey).symm
    have hmem : checkOf true (eventId, device.appId, device.pushkey) ∈ deviceTrace k b s.log := by
      rw [htrace, hkey']
      exact List.mem_singleton.mpr rfl
    obtain ⟨c, r, hc, hcall, -, hcheck⟩ := exists_of_mem_deviceTrace hmem
    constructor
    · intro a outcome hover'
      obtain ⟨provider', answers, hmem'⟩ :=
        hr.mem_deviceTrace_of_handedOver h hdistinct hk hb hover'
      rw [htrace] at hmem'
      cases List.mem_singleton.mp hmem'
    · obtain ⟨p, r', hp, hpc, hcall', hrec⟩ :=
        hr.record_of_check h hc (hcall ▸ hk) hdevice hcheck
      obtain ⟨a, hap, hdelivered⟩ :=
        hr.handedOver_of_record h hqueue hevent hdistinct hdevice hp hcall' hrec
      exact ⟨a, hr.earlier hcalls hdelivered hc hcall (Nat.lt_trans hap hpc)⟩
  | @delivered provider' answers hprovider' hdelivered =>
    left
    obtain ⟨a, ha⟩ := hover provider' answers (by simp)
      (Option.some_inj.mp (hprovider'.symm.trans hprovider))
    refine ⟨a, _, ha, ?_, ?_⟩
    · rw [hdelivered]
      rintro ⟨⟩
    · rw [hdelivered]
      rintro error ⟨⟩
  | @ended provider' answers _ hprovider' _ hrejected _ =>
    left
    obtain ⟨a, ha⟩ := hover provider' answers (by simp)
      (Option.some_inj.mp (hprovider'.symm.trans hprovider))
    exact ⟨a, _, ha, hrejected.mpr, fun error => eq_transient_of_returns hreturns (by simp)⟩

include hevent hdistinct in
/-- A push service delivers to a device at most once. -/
theorem delivered_unique {device : Device} (hdevice : device ∈ n.devices) {a a' : ℕ}
    (ha : HandedOver D s i n device calls a .delivered)
    (ha' : HandedOver D s i n device calls a' .delivered) : a = a' := by
  rcases Nat.lt_trichotomy a a' with hlt | heq | hgt
  · exact absurd hlt (hr.not_lt_of_delivered h htimed hevent hdistinct hdevice ha ha')
  · exact heq
  · exact absurd hgt (hr.not_lt_of_delivered h htimed hevent hdistinct hdevice ha' ha)

include hqueue hevent hdistinct in
/-- A device for which the last attempt did not deliver is handed over again by the next call. -/
theorem handedOver_again {before after : List ℕ} {k : ℕ} (hcalls : calls = before ++ k :: after)
    {call : Call ι} (hget : s.calls[k]? = some call) {b : ℕ} {device : Device}
    (hb : n.devices[b]? = some device) {d : Disposition}
    (hdone : call.rest[b]? = some (Prog.pure (.device d))) {a : ℕ} {outcome : Outcome}
    (hover : HandedOver D s i n device before a outcome) (hfailed : outcome ≠ .delivered)
    (hlast : ∀ a' outcome', HandedOver D s i n device before a' outcome' → a' ≤ a) :
    ∃ a' outcome', HandedOver D s i n device [k] a' outcome' := by
  have hsub : ∀ k' ∈ before, k' ∈ calls := fun k' hk' => by simp [hcalls, hk']
  obtain ⟨-, provider, -, -, -, hprovider, -⟩ := id hover
  rcases hr.handedOver_or_delivered h hqueue hevent hdistinct hcalls hget hb hdone hprovider with
    ⟨a', outcome', hover', -⟩ | ⟨hnone, a', hdelivered⟩
  · exact ⟨a', outcome', hover'⟩
  · -- the delivery was by an earlier call, and is not later than the last one
    have hbefore : HandedOver D s i n device before a' .delivered := by
      obtain ⟨r, provider', answers, ha', hcall, hrest⟩ := hdelivered
      rcases List.mem_append.mp hcall with hmem | hmem
      · exact ⟨r, provider', answers, ha', hmem, hrest⟩
      · exact absurd ⟨r, provider', answers, ha', hmem, hrest⟩ (hnone a' .delivered)
    rcases Nat.lt_or_eq_of_le (hlast a' _ hbefore) with hlt | rfl
    · exact absurd hlt (hr.not_lt_of_delivered h htimed hevent hdistinct
        (List.mem_of_getElem? hb) (hbefore.mono hsub) (hover.mono hsub))
    · exact absurd (hover.outcome_eq hbefore) hfailed

omit htimed in
/-- A finished call has a disposition for each device. -/
theorem exists_disposition {k : ℕ} (hk : k ∈ calls) {call : Call ι}
    (hget : s.calls[k]? = some call) {ds : List Disposition}
    (hrest : call.rest = ds.map fun d => Prog.pure (.device d)) {b : ℕ} {device : Device}
    (hb : n.devices[b]? = some device) :
    ∃ d, ds[b]? = some d ∧ call.rest[b]? = some (Prog.pure (Finished.device d)) := by
  have hlt : b < ds.length := by
    obtain ⟨call', hget', hreq⟩ := hr.request k hk
    cases hget.symm.trans hget'
    rw [length_dispositions h hget hreq hrest]
    exact (List.getElem?_eq_some_iff.mp hb).1
  have hd : ds[b]? = some ds[b] := List.getElem?_eq_getElem hlt
  exact ⟨ds[b], hd, by rw [hrest, List.getElem?_map, hd, Option.map_some]⟩

omit htimed in
include hqueue hevent hdistinct in
/-- What a successful call leaves of a device with an app. -/
theorem settled_of_success {before after : List ℕ} {k : ℕ}
    (hcalls : calls = before ++ k :: after) {call : Call ι} (hget : s.calls[k]? = some call)
    {ds : List Disposition} {listed : List String}
    (hrest : call.rest = ds.map fun d => Prog.pure (.device d))
    (hok : notifyResponse ds = .ok listed) {device : Device} (hdevice : device ∈ n.devices)
    (hsome : ((D.app i).providers.lookup device.appId).isSome) :
    (∃ a, HandedOver D s i n device (before ++ [k]) a .delivered) ∨
      (∃ a, HandedOver D s i n device [k] a .rejected) ∧ device.pushkey ∈ listed ∨
      ∃ a, HandedOver D s i n device [k] a .skipped := by
  obtain ⟨provider, hprovider⟩ := Option.isSome_iff_exists.mp hsome
  obtain ⟨b, hb⟩ := List.mem_iff_getElem?.mp hdevice
  have hfine : .transient ∉ ds := fun hmem => by
    obtain ⟨message, herror⟩ := notifyResponse_eq_error_iff.mpr hmem
    rw [herror] at hok
    cases hok
  obtain ⟨d, hd, hdone⟩ := hr.exists_disposition h (by simp [hcalls]) hget hrest hb
  rcases hr.handedOver_or_delivered h hqueue hevent hdistinct hcalls hget hb hdone hprovider with
    ⟨a, outcome, hover, hrejected, htransient⟩ | ⟨-, a, hdelivered⟩
  · cases outcome with
    | delivered => exact Or.inl ⟨a, hover.mono fun k' hk' => List.mem_append_right _ hk'⟩
    | skipped => exact Or.inr (Or.inr ⟨a, hover⟩)
    | rejected =>
      rw [notifyResponse_eq_ok hfine] at hok
      cases hok
      refine Or.inr (Or.inl ⟨⟨a, hover⟩, List.mem_filterMap.mpr ⟨d, List.mem_of_getElem? hd, ?_⟩⟩)
      rw [hrejected rfl, Disposition.rejected?]
    | transient error =>
      -- then the call would have failed
      exact absurd (htransient error rfl ▸ List.mem_of_getElem? hd) hfine
  · exact Or.inl ⟨a, hdelivered⟩

end Retries

/-- At an instance that does not queue, a sequence of calls completes exactly what has failed. The
push service of a device delivers at most once. A device for which it has not delivered the last
time is handed to it again by the next call. And when a call succeeds, each device with an app has
been delivered to, or was rejected now and is listed, or was skipped now. -/
theorem retries_complete (h : D.machine.Reachable s) (htimed : Timed i s.log)
    (hqueue : (D.app i).queue = none) (hevent : n.eventId = some eventId)
    (hdistinct : DistinctDevices n) (hr : Retries D s i n eventId pre post calls) :
    (∀ device ∈ n.devices, ∀ a a', HandedOver D s i n device calls a .delivered →
      HandedOver D s i n device calls a' .delivered → a = a') ∧
    (∀ before k after, calls = before ++ k :: after → ∀ call, s.calls[k]? = some call →
      ∀ (b : ℕ) (device : Device) (d : Disposition), n.devices[b]? = some device →
      call.rest[b]? = some (Prog.pure (.device d)) →
      ∀ a outcome, HandedOver D s i n device before a outcome → outcome ≠ .delivered →
      (∀ a' outcome', HandedOver D s i n device before a' outcome' → a' ≤ a) →
        ∃ a' outcome', HandedOver D s i n device [k] a' outcome') ∧
    (∀ before k after, calls = before ++ k :: after → ∀ call, s.calls[k]? = some call →
      ∀ (ds : List Disposition) (listed : List String),
      call.rest = ds.map (fun d => Prog.pure (.device d)) →
      notifyResponse ds = .ok listed →
      ∀ device ∈ n.devices, ((D.app i).providers.lookup device.appId).isSome →
        (∃ a, HandedOver D s i n device (before ++ [k]) a .delivered) ∨
        (∃ a, HandedOver D s i n device [k] a .rejected) ∧ device.pushkey ∈ listed ∨
        ∃ a, HandedOver D s i n device [k] a .skipped) := by
  refine ⟨?_, ?_, ?_⟩
  · intro device hdevice a a' ha ha'
    exact hr.delivered_unique h htimed hevent hdistinct hdevice ha ha'
  · intro before k after hcalls call hget b device d hb hdone a outcome hover hfailed hlast
    exact hr.handedOver_again h htimed hqueue hevent hdistinct hcalls hget hb hdone hover hfailed
      hlast
  · intro before k after hcalls call hget ds listed hrest hok device hdevice hsome
    exact hr.settled_of_success h hqueue hevent hdistinct hcalls hget hrest hok hdevice hsome

/-! #### A request that succeeds in the second attempt -/

/-- The push service is unavailable, then accepts, and is not called again. -/
def repeated : List (Machine.Label (Request Side) Input) :=
  [.arrive (.notify .poll event), .perform 0 0 0 .none, .perform 0 0 0 (status 503),
    .arrive (.notify .poll event), .perform 1 0 1 .none, .perform 1 0 1 (status 200),
    .perform 1 0 1 .none,
    .arrive (.notify .poll event), .perform 2 0 2 .none]

theorem isSome_repeated : (trio.machine.run repeated).isSome = true := by decide

theorem retries_repeated :
    Retries trio ((trio.machine.run repeated).get isSome_repeated) .poll event "$e" []
      ((trio.machine.run repeated).get isSome_repeated).log [0, 1, 2] where
  log := rfl
  request := by
    intro k hk
    simp only [List.mem_cons, List.not_mem_nil, or_false] at hk
    rcases hk with rfl | rfl | rfl <;> exact ⟨_, rfl, rfl⟩
  ordered := by
    have hbefore : ∀ k k', k < k' → k' < 3 →
        Before ((trio.machine.run repeated).get isSome_repeated) k k' := by
      intro k k' hlt hlt'
      refine ⟨hlt, ?_, ?_⟩
      · obtain rfl | rfl : k = 0 ∨ k = 1 := by omega
        all_goals exact ⟨_, rfl, by decide⟩
      · obtain ⟨rfl, rfl⟩ | ⟨rfl, rfl⟩ | ⟨rfl, rfl⟩ :
            k = 0 ∧ k' = 1 ∨ k = 0 ∧ k' = 2 ∨ k = 1 ∧ k' = 2 := by omega
        all_goals decide
    simp [hbefore]
  started := by simp
  unknown := fun _ _ => rfl
  inTime := by decide
  noEviction := DedupCache.noEviction_of_length_lt (by decide)
  alone := by
    have hcalls : ∀ r ∈ ((trio.machine.run repeated).get isSome_repeated).log,
        r.call ∈ [0, 1, 2] := by decide
    exact fun r hr _ _ _ _ => hcalls r hr

theorem retries_complete_repeated :
    let s := (trio.machine.run repeated).get isSome_repeated
    let device := event.devices[0]
    (∃ a, HandedOver trio s .poll event device [0, 1, 2] a .delivered) ∨
      (∃ a, HandedOver trio s .poll event device [2] a .rejected) ∧
        device.pushkey ∈ ([] : List String) ∨
        ∃ a, HandedOver trio s .poll event device [2] a .skipped := by
  have htimed : Timed .poll ((trio.machine.run repeated).get isSome_repeated).log := by
    decide
  have hdistinct : DistinctDevices event := by simp [DistinctDevices, event]
  exact (retries_complete (Machine.reachable_get isSome_repeated) htimed rfl rfl hdistinct
    retries_repeated).2.2 [0, 1] 2 [] rfl _ rfl [.fine] [] rfl rfl _ List.mem_cons_self rfl

end Deployment

end Pincerbell
