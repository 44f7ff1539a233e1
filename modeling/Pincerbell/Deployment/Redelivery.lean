import Pincerbell.Deployment.Duplicates
import Pincerbell.Deployment.Relay

/-!
# Redelivered entries at a poll side

When the acks of a sequential poll loop are lost, its upstream hands the same entries out again. The
loop suppresses an entry that a push service has accepted as long as the window of the acceptance is
open: the window is not extended, and may end before the upstream drops the entry.

* `Sequential` — an instance runs one poll loop for one upstream.
* `serial_of_sequential` — its pipelines do not overlap.
* `Absorbed` — no entry is passed to a push service again after it was accepted.
* `CheckedInTime`, `absorbed_of_checkedInTime` — so it is while every check of an accepted entry
  comes within the window.
* `not_absorbed` — with the default settings it may come later.
-/

namespace Pincerbell.Deployment

open Machine (eq_append_of_getElem?)
open Prog (Event Returns Steps)

variable {ι : Type} [DecidableEq ι] {D : Deployment ι} {s : State ι} {i j : ι} {key : Key}

/-- What runs at `i` are the cycles of a poll loop for `j`, one after the other: a cycle takes a
step only when those that have taken one before have returned. -/
structure Sequential (D : Deployment ι) (s : State ι) (i j : ι) : Prop where
  cycles : ∀ call ∈ s.calls, call.request.inst = i → ∃ m, call.request = .pollOnce i j m
  ended : ∀ a b r r' m, a < b → s.log[a]? = some r → s.log[b]? = some r' →
    r.request = .pollOnce i j m → r'.request.inst = i → r.call ≠ r'.call →
      ∃ result, (pollOnce D.crates (D.app i) m).Returns
        (Machine.trace r.call 0 (s.log.take b)) result

/-- The cycle that a step at `i` belongs to. -/
theorem Sequential.cycle (hseq : Sequential D s i j) (h : D.machine.Reachable s) {a : ℕ}
    {r : Step ι} (ha : s.log[a]? = some r) (hinst : r.request.inst = i) :
    ∃ m f, r.request = .pollOnce i j m ∧ r.branch = 0 ∧
      Steps (pollOnce D.crates (D.app i) m) (Machine.trace r.call 0 (s.log.take a))
        (Prog.call r.event.1 f) := by
  obtain ⟨call, hcall, hreq⟩ := h.tracks.logged (List.mem_of_getElem? ha)
  obtain ⟨m, hm⟩ := hseq.cycles call (List.mem_of_getElem? hcall) (by rw [hreq, hinst])
  obtain ⟨s₀, call₀, input, f, shared, hs₀, hpre, hcall₀, hreq₀, hrest, -⟩ :=
    h.exists_perform (eq_append_of_getElem? ha)
  obtain ⟨p₀, hp₀, hsteps⟩ := hs₀.tracks.steps hcall₀ hrest
  have hrequest : r.request = .pollOnce i j m := by rw [← hreq, hm]
  -- a cycle has one branch
  rw [hreq₀, hrequest] at hp₀
  have hbranches : ([Finished.cycle <$> pollOnce D.crates (D.app i) m] :
      List (Prog (Option ℕ × Cmd) (fun c => c.2.Res) Finished))[r.branch]? = some p₀ := hp₀
  have hzero : r.branch = 0 := by
    have hlt := (List.getElem?_eq_some_iff.mp hbranches).1
    simpa using hlt
  rw [hzero] at hbranches hsteps
  obtain rfl := Option.some_inj.mp hbranches
  obtain ⟨f', hsteps, -⟩ := hsteps.of_map
  exact ⟨m, f', hrequest, hzero, hpre ▸ hsteps⟩

/-- In a sequential loop, a delivery is recorded before any later attempt is checked. -/
theorem recorded_before_check (h : D.machine.Reachable s) (hseq : Sequential D s i j) {a b c : ℕ}
    {r r' r'' : Step ι} (hab : a < b) (ha : SuccessAt D s.log i key a r) (hb : s.log[b]? = some r')
    (hinst : r'.request.inst = i) (hattempt : attemptOf r'.event.untag = some key)
    (hcheck : Machine.Next s.log c b r'' r') : ∃ k r₁, Machine.Next s.log a k r r₁ ∧ k < c := by
  have hinst'' : r''.request.inst = i := by rw [← inst_eq_of_next h hcheck, hinst]
  have hevent : r''.event = (checkOf false key).tag r'.event.1.1 := by
    have hlast := (linked_of_log h (eq_append_of_getElem? hb)).attempt key hattempt
    rw [hcheck.getLast?] at hlast
    exact Option.some_inj.mp hlast
  have hquiet : successOf D.crates r''.event.untag = none := by rw [hevent]; rfl
  obtain ⟨m, -, hr, hzero, -⟩ := hseq.cycle h ha.get ha.inst
  obtain ⟨m', f', hr', hzero', hsteps'⟩ := hseq.cycle h hb hinst
  by_cases hcall : r.call = r'.call
  · -- both belong to one cycle
    have hsame : r.SameBranch r' := ⟨hcall, hzero.trans hzero'.symm⟩
    have hac : a < c := by
      rcases Nat.lt_trichotomy a c with hlt | rfl | hgt
      · exact hlt
      · have hsuccess := ha.success
        rw [Option.some_inj.mp (ha.get.symm.trans hcheck.first), hquiet] at hsuccess
        cases hsuccess
      · refine absurd ?_ (hcheck.between hgt hab ha.get)
        exact ⟨hcheck.same.1.trans hsame.1.symm, hcheck.same.2.trans hsame.2.symm⟩
    obtain ⟨k, r₁, hnext, hkc⟩ := Machine.exists_next ha.get hcheck.first hac
      ⟨hsame.1.trans hcheck.same.1.symm, hsame.2.trans hcheck.same.2.symm⟩
    refine ⟨k, r₁, hnext, Nat.lt_of_le_of_ne hkc ?_⟩
    rintro rfl
    have hrecord := record_of_next h hnext ha.success
    rw [Option.some_inj.mp (hnext.second.symm.trans hcheck.first), hevent] at hrecord
    have hcmd := congrArg (fun e : MarkedEvent => e.untag.1) hrecord
    cases hcmd
  · have hcall'' : r''.call = r'.call := hcheck.same.1
    rcases Nat.lt_trichotomy a c with hac | rfl | hca
    · -- the cycle of the delivery has returned, so the delivery was not its last step
      obtain ⟨result, hret⟩ := hseq.ended a c r r'' m hac ha.get hcheck.first hr hinst''
        (hcall'' ▸ hcall)
      obtain ⟨b', r₁, hab', hb'c, hb', hsame, hlast⟩ := Machine.exists_last ha.get hac
      rw [hzero] at hlast
      have hend := chained_pollOnce.of_returns hret
      rw [hlast, Option.some_or, markedQuiet_some] at hend
      have hlt : a < b' := by
        refine Nat.lt_of_le_of_ne hab' ?_
        rintro rfl
        rw [← Option.some_inj.mp (ha.get.symm.trans hb'), ha.success] at hend
        cases hend
      obtain ⟨k, r₂, hnext, hkb'⟩ := Machine.exists_next ha.get hb' hlt hsame
      exact ⟨k, r₂, hnext, Nat.lt_of_le_of_lt hkb' hb'c⟩
    · rw [Option.some_inj.mp (ha.get.symm.trans hcheck.first)] at hcall
      exact absurd hcall'' hcall
    · -- the cycle of the attempt had returned before the delivery
      have hr'' : r''.request = .pollOnce i j m' := by
        rw [← hr']
        exact h.tracks.request_inj (List.mem_of_getElem? hcheck.first) (List.mem_of_getElem? hb)
          hcall''
      obtain ⟨result, hret⟩ := hseq.ended c a r'' r m' hca hcheck.first ha.get hr'' ha.inst
        (by rw [hcall'']; exact fun heq => hcall heq.symm)
      rw [Machine.take_eq_append _ (Nat.le_of_lt hab), Machine.trace_append, ← hcall''] at hsteps'
      obtain ⟨-, heq⟩ := Prog.steps_pure_iff.mp (hret.of_append hsteps')
      cases heq

/-- The pipelines of a sequential loop do not overlap. -/
theorem serial_of_sequential (h : D.machine.Reachable s) (hseq : Sequential D s i j) :
    Serial D s.log i key := by
  intro a b c r r' r'' hab ha hb hcheck
  exact recorded_before_check h hseq hab ha hb.get hb.inst (attemptOf_of_successOf hb.success)
    hcheck

/-! ### Redelivered entries -/

/-- What the loop passes to a push service comes from an entry of its upstream. -/
theorem exists_enqueued_of_deliver (h : D.machine.Reachable s) (hseq : Sequential D s i j) {a : ℕ}
    {r : Step ι} (ha : s.log[a]? = some r) (hinst : r.request.inst = i) {id : ℕ}
    {provider : Provider} {n : Notification} {device : Device}
    (hr : r.event.1 = (some id, .deliver provider n device)) :
    ∃ e ∈ enqueued (queueLog j s.log), e.id = id ∧ Notification.fromValue e.payload = some n ∧
      n.devices = [device] := by
  obtain ⟨m, -, hreq, hzero, -⟩ := hseq.cycle h ha hinst
  obtain ⟨call, hcall, hcallreq⟩ := h.tracks.logged (List.mem_of_getElem? ha)
  have hstep := branchStep_of_log h (eq_append_of_getElem? ha)
  rw [hreq, hr, hzero] at hstep
  cases hstep with
  | @entry entries _ hhead hentry =>
    obtain ⟨p, hp, n', hdecode, device', hdevice, hid, -, rfl, rfl⟩ := hentry
    have hfetched : ⟨(none, .poll m), .ok entries⟩ ∈ Machine.trace r.call 0 s.log := by
      rw [← List.take_append_drop a s.log, Machine.trace_append]
      exact List.mem_append_left _ (List.mem_of_head? hhead)
    obtain ⟨e, he, rfl⟩ :=
      exists_enqueued_of_fetched h hcall (by rw [hcallreq, hreq]; rfl) hfetched hp
    -- what is queued has one device
    obtain ⟨n₀, device₀, hpayload⟩ := payload_of_enqueued he
    have hpayload' : e.toPollEntry.notification = payload n₀ device₀ := hpayload
    obtain ⟨device₁, hdevices⟩ := devices_of_fromValue_payload (hpayload' ▸ hdecode)
    rw [hdevices, List.mem_singleton] at hdevice
    exact ⟨e, he, (Option.some_inj.mp hid).symm, hdecode, hdevice ▸ hdevices⟩

/-- An entry that a push service has accepted is not passed to a push service again. -/
def Absorbed (D : Deployment ι) (log : List (Step ι)) (i : ι) : Prop :=
  ∀ (a b : ℕ) (r r' : Step ι) id key provider n device, a < b → log[a]? = some r →
    log[b]? = some r' → r.request.inst = i → r'.request.inst = i → r.event.1.1 = some id →
      D.Delivered r key → r'.event.1 ≠ (some id, .deliver provider n device)

/-- Whenever an entry is checked that was recorded as delivered, a delivery of its triple was
recorded less than a window ago. -/
def CheckedInTime (D : Deployment ι) (log : List (Step ι)) (i : ι) : Prop :=
  ∀ (a b : ℕ) (r r' : Step ι) id key, a < b → log[a]? = some r → log[b]? = some r' →
    r.request.inst = i → r'.request.inst = i → r.event = (recordOf key).tag (some id) →
      r'.event.1 = ((checkOf false key).tag (some id)).1 →
        ∃ (k : ℕ) (r₁ : Step ι), k < b ∧ log[k]? = some r₁ ∧ r₁.request.inst = i ∧
          r₁.event.untag = recordOf key ∧ r'.time < r₁.time + (D.app i).dedup.ttl

/-- While every check of a delivered entry comes within the window, redeliveries are absorbed. -/
theorem absorbed_of_checkedInTime (h : D.machine.Reachable s) (hseq : Sequential D s i j)
    (htimed : Timed i s.log) (hcap : (D.app i).dedup.BelowCap (dedupLog i s.log))
    (httl : (D.app i).dedup.ttl ≠ 0) (hchecked : CheckedInTime D s.log i) :
    Absorbed D s.log i := by
  intro a b r r' id key provider n device hab ha hb hinst hinst' hid hdelivered hr'
  obtain ⟨provider₀, n₀, device₀, answers, hevent, haccepted, hkey⟩ := hdelivered
  -- both steps are for the same device of the same notification
  have hr : r.event.1 = (some id, .deliver provider₀ n₀ device₀) :=
    Prod.ext hid (congrArg (fun e : Event Cmd Cmd.Res => e.1) hevent)
  obtain ⟨e, he, heid, hdecode, hdevices⟩ := exists_enqueued_of_deliver h hseq ha hinst hr
  obtain ⟨e', he', heid', hdecode', hdevices'⟩ := exists_enqueued_of_deliver h hseq hb hinst' hr'
  obtain rfl := enqueued_inj he he' (heid.trans heid'.symm)
  obtain rfl := Option.some_inj.mp (hdecode.symm.trans hdecode')
  obtain rfl := List.singleton_inj.mp (hdevices.symm.trans hdevices')
  have hsuccess : SuccessAt D s.log i key a r := by
    refine ⟨ha, hinst, ?_⟩
    rw [hevent, successOf, if_pos haccepted, hkey]
  have hattempt : attemptOf r'.event.untag = some key := by
    obtain ⟨req, call, branch, now, ⟨x, c⟩, res⟩ := r'
    cases hr'
    exact hkey
  -- the check before the second one finds the record of the first one, or a later one
  obtain ⟨c, r'', hcheck, hcheckevent, hinst'', hfresh⟩ := fresh_before_attempt h hb hinst' hattempt
  obtain ⟨k, r₁, hnext, hkc⟩ := recorded_before_check h hseq hab hsuccess hb hinst' hattempt hcheck
  have hrecord : r₁.event = (recordOf key).tag (some id) :=
    hid ▸ record_of_next h hnext hsuccess.success
  obtain ⟨k', r₂, hk'c, hk', hinst₂, hrecord₂, hlt⟩ :=
    hchecked k c r₁ r'' id key hkc hnext.second hcheck.first
      (by rw [inst_eq_of_next h hnext, hinst]) hinst'' hrecord (by rw [hcheckevent, hr'])
  obtain ⟨a', r₃, hnext', hsuccess'⟩ := success_before_record h hk' hrecord₂
  have hle := le_time_of_fresh h htimed hcap httl (serial_of_sequential h hseq)
    ⟨hnext'.first, by rw [← inst_eq_of_next h hnext', hinst₂], hsuccess'⟩ hnext' hcheck.first hk'c
    hinst'' hfresh
  exact absurd hlt (Nat.not_lt.mpr hle)

/-! ### Within the window, and after it -/

/-- The ack of a delivered entry is lost, and the entry is fetched again at the given time. -/
def redelivered (t : Instant) : List (Machine.Label (Request Side) Input) :=
  queued ++
    [.arrive (.pollOnce .poll .queue 100), .perform 2 0 0 (.response 0), .perform 2 0 0 .none,
      .perform 2 0 0 (status 200), .perform 2 0 0 .none, .perform 2 0 0 (.sent (.error "")),
      .arrive (.queuePoll .queue ⟨none⟩ 0), .perform 3 0 t .none, .perform 3 0 t .none,
      .arrive (.pollOnce .poll .queue 100), .perform 4 0 t (.response 1), .perform 4 0 t .none]

/-- After a minute, the redelivered entry is suppressed and acknowledged. -/
def suppressedAgain : List (Machine.Label (Request Side) Input) :=
  redelivered (fromSecs 60) ++ [.perform 4 0 (fromSecs 60) (.sent (.ok ()))]

/-- After five minutes, it is delivered again. -/
def deliveredAgain : List (Machine.Label (Request Side) Input) :=
  redelivered (fromSecs 300) ++ [.perform 4 0 (fromSecs 300) (status 200)]

theorem isSome_suppressedAgain : (trio.machine.run suppressedAgain).isSome = true := by decide

theorem isSome_deliveredAgain : (trio.machine.run deliveredAgain).isSome = true := by decide

/-- In both runs, the poll side runs one cycle after the other. -/
theorem sequential_of_calls {s : State Side} (h : trio.machine.Reachable s)
    (hrequests : s.calls.map Machine.Call.request = [.notify .queue event,
      .queuePoll .queue ⟨none⟩ 0, .pollOnce .poll .queue 100, .queuePoll .queue ⟨none⟩ 0,
      .pollOnce .poll .queue 100])
    (hlog : s.log.map (fun r => (r.call, r.request.inst)) = [(0, .queue), (0, .queue),
      (0, .queue), (0, .queue), (1, .queue), (1, .queue), (2, .poll), (2, .poll), (2, .poll),
      (2, .poll), (2, .poll), (3, .queue), (3, .queue), (4, .poll), (4, .poll), (4, .poll)])
    (hret : ∀ b, 13 ≤ b → b < 16 → ∃ result, (pollOnce trio.crates (trio.app .poll) 100).Returns
      (Machine.trace 2 0 (s.log.take b)) result) : Sequential trio s .poll .queue where
  cycles call hcall hinst := by
    have hmem := List.mem_map_of_mem (f := Machine.Call.request) hcall
    rw [hrequests] at hmem
    simp only [List.mem_cons, List.not_mem_nil, or_false] at hmem
    rcases hmem with hr | hr | hr | hr | hr <;> rw [hr] at hinst ⊢ <;>
      first | exact ⟨100, rfl⟩ | cases hinst
  ended a b r r' m hab ha hb hr hinst' hcall := by
    have hplace : ∀ {a : ℕ} {r : Step Side}, s.log[a]? = some r → r.request.inst = .poll →
        r.call = 2 ∧ a < 11 ∨ r.call = 4 ∧ 13 ≤ a ∧ a < 16 := by
      intro a r ha hinst
      have hsum := congrArg (fun l => l[a]?) hlog
      rw [List.getElem?_map, ha, Option.map_some, hinst] at hsum
      rcases a with _ | _ | _ | _ | _ | _ | _ | _ | _ | _ | _ | _ | _ | _ | _ | _ | a <;>
        simp at hsum <;> omega
    -- the first step is one of the first cycle, and the other one of the second
    rcases hplace ha (by rw [hr]; rfl) with ⟨hcall₂, -⟩ | ⟨hcall₄, hlt⟩ <;>
      rcases hplace hb hinst' with ⟨hcall₂', hlt'⟩ | ⟨hcall₄', hlt'⟩
    · exact absurd (hcall₂.trans hcall₂'.symm) hcall
    · obtain ⟨call, hcalls, hreq⟩ := h.tracks.logged (List.mem_of_getElem? ha)
      have hrequest := congrArg (fun l => l[r.call]?) hrequests
      rw [List.getElem?_map, hcalls, Option.map_some, hreq, hr, hcall₂] at hrequest
      cases hrequest
      rw [hcall₂]
      exact hret b hlt'.1 hlt'.2
    · omega
    · exact absurd (hcall₄.trans hcall₄'.symm) hcall

theorem sequential_suppressedAgain :
    Sequential trio ((trio.machine.run suppressedAgain).get isSome_suppressedAgain)
      .poll .queue := by
  refine sequential_of_calls (Machine.reachable_get isSome_suppressedAgain) rfl (by decide) ?_
  intro b hle hlt
  obtain rfl | rfl | rfl : b = 13 ∨ b = 14 ∨ b = 15 := by omega
  all_goals exact ⟨_, .call (.call (.call (.call (.call (.refl _)))))⟩

theorem sequential_deliveredAgain :
    Sequential trio ((trio.machine.run deliveredAgain).get isSome_deliveredAgain) .poll .queue := by
  refine sequential_of_calls (Machine.reachable_get isSome_deliveredAgain) rfl (by decide) ?_
  intro b hle hlt
  obtain rfl | rfl | rfl : b = 13 ∨ b = 14 ∨ b = 15 := by omega
  all_goals exact ⟨_, .call (.call (.call (.call (.call (.refl _)))))⟩

/-- The check of the redelivered entry is within the window. -/
theorem checkedInTime_suppressedAgain :
    CheckedInTime trio ((trio.machine.run suppressedAgain).get isSome_suppressedAgain).log
      .poll := by
  intro a b r r' id key hab ha hb hinst hinst' hr hr'
  -- of each step the instance, the key that it records, and whether it is a check
  have hlog : ((trio.machine.run suppressedAgain).get isSome_suppressedAgain).log.map
      (fun r => (r.request.inst, (r.event.1.2.recorded? 0).map Prod.snd,
        r.event.1.2 matches .isDuplicate _ _ _)) =
        [(.queue, none, false), (.queue, none, true), (.queue, none, false),
          (.queue, some ("$e", "app", "pk"), false), (.queue, none, false), (.queue, none, false),
          (.poll, none, false), (.poll, none, true), (.poll, none, false),
          (.poll, some ("$e", "app", "pk"), false), (.poll, none, false), (.queue, none, false),
          (.queue, none, false), (.poll, none, false), (.poll, none, true),
          (.poll, none, false)] := by rfl
  have hsum := congrArg (fun l => l[a]?) hlog
  have hsum' := congrArg (fun l => l[b]?) hlog
  rw [List.getElem?_map, ha, Option.map_some, hinst, hr] at hsum
  rw [List.getElem?_map, hb, Option.map_some, hinst', hr'] at hsum'
  obtain ⟨rfl, rfl⟩ : a = 9 ∧ key = ("$e", "app", "pk") := by
    rcases a with _ | _ | _ | _ | _ | _ | _ | _ | _ | _ | _ | _ | _ | _ | _ | _ | a <;>
      simp [Event.tag, recordOf, Cmd.recorded?] at hsum ⊢
    exact hsum
  obtain rfl : b = 14 := by
    rcases b with _ | _ | _ | _ | _ | _ | _ | _ | _ | _ | _ | _ | _ | _ | _ | _ | b <;>
      simp [Event.tag, checkOf, Cmd.recorded?] at hsum' ⊢
    omega
  obtain rfl : _ = r' := Option.some_inj.mp hb
  exact ⟨9, _, by decide, rfl, rfl, rfl, by decide⟩

theorem absorbed_suppressedAgain : ∃ s, trio.machine.run suppressedAgain = some s ∧
    Absorbed trio s.log .poll := by
  have htimed :
      Timed .poll ((trio.machine.run suppressedAgain).get isSome_suppressedAgain).log := by
    decide
  have hcap : (trio.app .poll).dedup.BelowCap
      (dedupLog .poll ((trio.machine.run suppressedAgain).get isSome_suppressedAgain).log) :=
    DedupCache.belowCap_of_length_lt (by decide)
  exact ⟨_, (Option.some_get _).symm,
    absorbed_of_checkedInTime (Machine.reachable_get isSome_suppressedAgain)
      sequential_suppressedAgain htimed hcap (by decide) checkedInTime_suppressedAgain⟩

/-- With the default settings, a redelivered entry may reach the push service again. -/
theorem not_absorbed : ¬ ∀ s, trio.machine.Reachable s → ∀ i j, (trio.app i).dedup.ttl ≠ 0 →
    Timed i s.log → (trio.app i).dedup.BelowCap (dedupLog i s.log) → Sequential trio s i j →
      Absorbed trio s.log i := by
  intro hall
  have htimed : Timed .poll ((trio.machine.run deliveredAgain).get isSome_deliveredAgain).log := by
    decide
  have hcap : (trio.app .poll).dedup.BelowCap
      (dedupLog .poll ((trio.machine.run deliveredAgain).get isSome_deliveredAgain).log) :=
    DedupCache.belowCap_of_length_lt (by decide)
  have habsorbed := hall _ (Machine.reachable_get isSome_deliveredAgain) .poll .queue (by decide)
    htimed hcap sequential_deliveredAgain
  exact habsorbed 8 15 _ _ 0 ("$e", "app", "pk") .fcm _ _ (by decide) rfl rfl rfl rfl rfl
    ⟨_, _, _, _, rfl, rfl, rfl⟩ rfl

end Pincerbell.Deployment
