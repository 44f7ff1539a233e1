import Pincerbell.Gateway

/-!
# The pipeline of one device

What a run of `deliverOne` consists of, by itself: which steps follow each other, and which results
of its steps lead to a rejection or a transient failure.

* `attemptOf`, `successOf` — the step tries to deliver or queue the notification, or has done so.
* `Linked`, `chained_deliverOne` — an attempt comes directly after a duplicate check that found
  nothing, and a success and its record directly follow each other.
* `DeviceStep` — the steps that the pipeline consists of.
* `DeviceRun`, `deviceRun_of_returns` — its complete runs.
* `Rejects`, `DeviceRun.eq_reject_iff` — the rejections of a complete run.
* `DeviceRun.of_provider`, `DeviceRun.of_queue`, `DeviceRun.of_unknown` — which step decides.
-/

namespace Pincerbell

open Prog (Event Always Returns)

/-- The key under which the pipeline of a device looks for duplicates. -/
def dedupKey (n : Notification) (device : Device) : Option Key :=
  n.eventId.map fun eventId => (eventId, device.appId, device.pushkey)

/-- The key of a step that tries to deliver the notification, or to queue it. -/
def attemptOf : Event Cmd Cmd.Res → Option Key
  | ⟨.deliver _ n device, _⟩ => dedupKey n device
  | ⟨.enqueue n device, _⟩ => dedupKey n device
  | _ => none

/-- The key of a step that has delivered the notification, or queued it. -/
def successOf (crates : Crates) : Event Cmd Cmd.Res → Option Key
  | ⟨.deliver provider n device, answers⟩ =>
    if provider.deliver crates device answers = .delivered then dedupKey n device else none
  | ⟨.enqueue n device, result⟩ => if Except.isOk result then dedupKey n device else none
  | _ => none

/-- A duplicate check with its result. -/
def checkOf (duplicate : Bool) (key : Key) : Event Cmd Cmd.Res :=
  ⟨.isDuplicate key.1 key.2.1 key.2.2, duplicate⟩

/-- A record. -/
def recordOf (key : Key) : Event Cmd Cmd.Res := ⟨.record key.1 key.2.1 key.2.2, ()⟩

/-- An attempt comes directly after a check of its key that found nothing, a record directly after
a success of its key, and directly after a success nothing but its record. -/
structure Linked (crates : Crates) (last : Option (Event Cmd Cmd.Res)) (e : Event Cmd Cmd.Res) :
    Prop where
  attempt : ∀ key, attemptOf e = some key → last = some (checkOf false key)
  record : ∀ key, e = recordOf key → ∃ e', last = some e' ∧ successOf crates e' = some key
  success : ∀ e' key, last = some e' → successOf crates e' = some key → e = recordOf key

/-- No success that is still to be recorded. -/
def Quiet (crates : Crates) (last : Option (Event Cmd Cmd.Res)) : Prop :=
  ∀ e, last = some e → successOf crates e = none

variable {crates : Crates} {state : AppState} {n : Notification} {device : Device}
  {last : Option (Event Cmd Cmd.Res)} {t : List (Event Cmd Cmd.Res)} {d : Disposition}

/-- A success was an attempt. -/
theorem attemptOf_of_successOf {e : Event Cmd Cmd.Res} {key : Key}
    (h : successOf crates e = some key) : attemptOf e = some key := by
  obtain ⟨c, r⟩ := e
  cases c with
  | deliver provider n device =>
    simp only [successOf] at h
    split at h
    next => exact h
    next => cases h
  | enqueue n device =>
    simp only [successOf] at h
    split at h
    next => exact h
    next => cases h
  | _ => cases h

/-- A step that is neither an attempt nor a record. -/
theorem Linked.of_other {e : Event Cmd Cmd.Res} (hlast : Quiet crates last)
    (ha : attemptOf e = none) (hr : ∀ key, e ≠ recordOf key) : Linked crates last e where
  attempt key h := by
    rw [ha] at h
    cases h
  record key h := absurd h (hr key)
  success e' key he' hs := by
    rw [hlast e' he'] at hs
    cases hs

/-- An attempt after a fresh check of the device. -/
theorem Linked.of_attempt {e : Event Cmd Cmd.Res} (hlast : Quiet crates last)
    (ha : attemptOf e = dedupKey n device) (hr : ∀ key, e ≠ recordOf key)
    (hfresh : ∀ key, dedupKey n device = some key → last = some (checkOf false key)) :
    Linked crates last e where
  attempt key h := hfresh key (ha ▸ h)
  record key h := absurd h (hr key)
  success e' key he' hs := by
    rw [hlast e' he'] at hs
    cases hs

theorem quiet_some {e : Event Cmd Cmd.Res} : Quiet crates (some e) ↔ successOf crates e = none := by
  simp [Quiet]

/-- Recording a success directly after it. -/
theorem chained_recordSuccess {α : Type} {a : α} {e : Event Cmd Cmd.Res}
    (hs : successOf crates e = dedupKey n device) :
    (recordSuccess n device >>= fun _ => pure a).Chained (Linked crates) (Quiet crates)
      (some e) := by
  cases hev : n.eventId with
  | none =>
    simp only [recordSuccess, hev, Prog.pure_bind, Prog.chained_pure, quiet_some]
    rw [hs, dedupKey, hev, Option.map_none]
  | some eventId =>
    have hkey : dedupKey n device = some (eventId, device.appId, device.pushkey) := by
      simp [dedupKey, hev]
    simp only [recordSuccess, hev, Prog.perform_bind, Prog.chained_call, Prog.chained_pure]
    refine fun _ => ⟨⟨?_, ?_, ?_⟩, quiet_some.mpr rfl⟩
    -- the record is no attempt, and the success before it is the one of its key
    · rintro key ⟨⟩
    · rintro ⟨_, _, _⟩ ⟨⟩
      exact ⟨e, rfl, hs.trans hkey⟩
    · rintro e' key ⟨⟩ hs'
      rw [hs.trans hkey] at hs'
      cases hs'
      rfl

/-- The duplicate check in front of a program, which goes on only if the check found nothing. -/
theorem chained_suppressed {α : Type} {a : α} {p : Pipeline α} (hlast : Quiet crates last)
    (h : ∀ last, Quiet crates last →
      (∀ key, dedupKey n device = some key → last = some (checkOf false key)) →
        p.Chained (Linked crates) (Quiet crates) last) :
    (suppressed n device >>= fun dup => if dup then pure a else p).Chained (Linked crates)
      (Quiet crates) last := by
  cases hev : n.eventId with
  | none =>
    simp only [suppressed, hev, Prog.pure_bind, Bool.false_eq_true, if_false]
    exact h last hlast (by simp [dedupKey, hev])
  | some eventId =>
    simp only [suppressed, hev, Prog.perform_bind, Prog.chained_call]
    rintro (_ | _)
    · refine ⟨Linked.of_other hlast rfl (by rintro _ ⟨⟩), h _ (quiet_some.mpr rfl) ?_⟩
      intro key hkey
      obtain rfl : (eventId, device.appId, device.pushkey) = key := by
        simpa [dedupKey, hev] using hkey
      rfl
    · exact ⟨Linked.of_other hlast rfl (by rintro _ ⟨⟩), quiet_some.mpr rfl⟩

theorem chained_queueOne (hlast : Quiet crates last) :
    (queueOne n device).Chained (Linked crates) (Quiet crates) last := by
  unfold queueOne
  simp only [Prog.perform_bind, Prog.chained_call]
  rintro (_ | _)
  -- not rejected
  · refine ⟨Linked.of_other hlast rfl (by rintro _ ⟨⟩), ?_⟩
    refine chained_suppressed (quiet_some.mpr rfl) fun last hlast hfresh => ?_
    simp only [Prog.chained_call]
    rintro (e | u)
    · exact ⟨Linked.of_attempt hlast rfl (by rintro _ ⟨⟩) hfresh, quiet_some.mpr rfl⟩
    · exact ⟨Linked.of_attempt hlast rfl (by rintro _ ⟨⟩) hfresh, chained_recordSuccess rfl⟩
  · exact ⟨Linked.of_other hlast rfl (by rintro _ ⟨⟩), quiet_some.mpr rfl⟩

/-- The pipeline of a device is linked, and leaves no success unrecorded. -/
theorem chained_deliverOne (hlast : Quiet crates last) :
    (deliverOne crates state n device).Chained (Linked crates) (Quiet crates) last := by
  unfold deliverOne
  split
  next =>
    split
    next => exact chained_queueOne hlast
    next => split <;> exact hlast
  next provider _ =>
    refine chained_suppressed hlast fun last hlast hfresh => ?_
    simp only [Prog.perform_bind, Prog.chained_call]
    refine fun answers => ⟨Linked.of_attempt hlast rfl (by rintro _ ⟨⟩) hfresh, ?_⟩
    split
    next hdelivered => exact chained_recordSuccess (by simp [successOf, hdelivered])
    all_goals
      next houtcome => exact quiet_some.mpr (by simp [successOf, houtcome])

/-! ### Which steps -/

/-- The steps that the pipeline of a device can consist of. -/
def DeviceStep (state : AppState) (n : Notification) (device : Device) : Cmd → Prop
  | .isRejected appId pushkey =>
    state.queue.isSome ∧ appId = device.appId ∧ pushkey = device.pushkey
  | .isDuplicate eventId appId pushkey => dedupKey n device = some (eventId, appId, pushkey)
  | .deliver provider n' device' =>
    state.providers.lookup device.appId = some provider ∧ n' = n ∧ device' = device
  | .enqueue n' device' => state.queue.isSome ∧ n' = n ∧ device' = device
  | .record eventId appId pushkey => dedupKey n device = some (eventId, appId, pushkey)
  | _ => False

theorem always_deviceStep_recordSuccess {α : Type} {a : α} :
    (recordSuccess n device >>= fun _ => pure a).Always
      fun _ e => DeviceStep state n device e.1 := by
  cases hev : n.eventId with
  | none =>
    simp only [recordSuccess, hev, Prog.pure_bind]
    exact Prog.always_pure
  | some eventId =>
    simp only [recordSuccess, hev, Prog.perform_bind, Prog.always_call]
    exact fun _ => ⟨by simp [DeviceStep, dedupKey, hev], Prog.always_pure⟩

theorem always_deviceStep_suppressed {α : Type} {a : α} {p : Pipeline α}
    (h : p.Always fun _ e => DeviceStep state n device e.1) :
    (suppressed n device >>= fun dup => if dup then pure a else p).Always
      fun _ e => DeviceStep state n device e.1 := by
  cases hev : n.eventId with
  | none =>
    simp only [suppressed, hev, Prog.pure_bind, Bool.false_eq_true, if_false]
    exact h
  | some eventId =>
    have hstep : DeviceStep state n device (.isDuplicate eventId device.appId device.pushkey) := by
      simp [DeviceStep, dedupKey, hev]
    simp only [suppressed, hev, Prog.perform_bind, Prog.always_call]
    rintro (_ | _)
    · exact ⟨hstep, h⟩
    · exact ⟨hstep, Prog.always_pure⟩

/-- The pipeline of a device consists of steps for the device. -/
theorem always_deviceStep_deliverOne :
    (deliverOne crates state n device).Always fun _ e => DeviceStep state n device e.1 := by
  unfold deliverOne
  split
  next =>
    split
    next q hqueue =>
      unfold queueOne
      simp only [Prog.perform_bind, Prog.always_call]
      rintro (_ | _)
      · refine ⟨by simp [DeviceStep, hqueue], always_deviceStep_suppressed ?_⟩
        simp only [Prog.always_call]
        rintro (e | u)
        · exact ⟨by simp [DeviceStep, hqueue], Prog.always_pure⟩
        · exact ⟨by simp [DeviceStep, hqueue], always_deviceStep_recordSuccess⟩
      · exact ⟨by simp [DeviceStep, hqueue], Prog.always_pure⟩
    next => split <;> exact Prog.always_pure
  next provider hprovider =>
    -- whatever the outcome is, all that can follow is the record
    refine always_deviceStep_suppressed ?_
    simp only [Prog.perform_bind, Prog.always_call]
    refine fun answers => ⟨by simp [DeviceStep, hprovider], ?_⟩
    split
    next => exact always_deviceStep_recordSuccess
    all_goals exact Prog.always_pure

/-! ### Complete runs -/

/-- The complete runs of the pipeline of a device, with what becomes of the device. -/
inductive DeviceRun (crates : Crates) (state : AppState) (n : Notification) (device : Device) :
    List (Event Cmd Cmd.Res) → Disposition → Prop
  | unknown : state.providers.lookup device.appId = none → state.queue = none →
    DeviceRun crates state n device []
      (if state.config.rejectUnknownApps then .reject device.pushkey else .fine)
  | reported : state.providers.lookup device.appId = none → state.queue.isSome →
    DeviceRun crates state n device [⟨.isRejected device.appId device.pushkey, true⟩]
      (.reject device.pushkey)
  | queueSuppressed {key} : state.providers.lookup device.appId = none → state.queue.isSome →
    dedupKey n device = some key →
    DeviceRun crates state n device
      [⟨.isRejected device.appId device.pushkey, false⟩, checkOf true key] .fine
  | queued : state.providers.lookup device.appId = none → state.queue.isSome →
    DeviceRun crates state n device
      (⟨.isRejected device.appId device.pushkey, false⟩ ::
        ((dedupKey n device).toList.map (checkOf false) ++ ⟨.enqueue n device, .ok ()⟩ ::
          (dedupKey n device).toList.map recordOf)) .fine
  | queueFailed {error} : state.providers.lookup device.appId = none → state.queue.isSome →
    DeviceRun crates state n device
      (⟨.isRejected device.appId device.pushkey, false⟩ ::
        ((dedupKey n device).toList.map (checkOf false) ++
          [⟨.enqueue n device, .error error⟩])) .transient
  | suppressed {provider key} : state.providers.lookup device.appId = some provider →
    dedupKey n device = some key →
    DeviceRun crates state n device [checkOf true key] .fine
  | delivered {provider answers} : state.providers.lookup device.appId = some provider →
    provider.deliver crates device answers = .delivered →
    DeviceRun crates state n device
      ((dedupKey n device).toList.map (checkOf false) ++ ⟨.deliver provider n device, answers⟩ ::
        (dedupKey n device).toList.map recordOf) .fine
  | ended {provider answers d} : state.providers.lookup device.appId = some provider →
    provider.deliver crates device answers ≠ .delivered →
    (d = .reject device.pushkey ↔ provider.deliver crates device answers = .rejected) →
    (∀ pushkey, d = .reject pushkey → pushkey = device.pushkey) →
    DeviceRun crates state n device
      ((dedupKey n device).toList.map (checkOf false) ++ [⟨.deliver provider n device, answers⟩]) d

theorem returns_suppressed {duplicate : Bool}
    (h : (suppressed n device).Returns t duplicate) :
    t = (dedupKey n device).toList.map (checkOf duplicate) ∧
      (duplicate = true → ∃ key, dedupKey n device = some key) := by
  cases hev : n.eventId with
  | none =>
    simp only [suppressed, hev, Prog.returns_pure_iff] at h
    simp [dedupKey, hev, h.1, h.2]
  | some eventId =>
    simp only [suppressed, hev] at h
    obtain ⟨b, t', rfl, ht'⟩ := Prog.returns_call_iff.mp h
    obtain ⟨rfl, rfl⟩ := Prog.returns_pure_iff.mp ht'
    simp [dedupKey, hev, checkOf]

theorem returns_recordSuccess {d d' : Disposition}
    (h : (recordSuccess n device >>= fun _ => pure d').Returns t d) :
    t = (dedupKey n device).toList.map recordOf ∧ d = d' := by
  cases hev : n.eventId with
  | none =>
    simp only [recordSuccess, hev, Prog.pure_bind, Prog.returns_pure_iff] at h
    simp [dedupKey, hev, h.1, h.2]
  | some eventId =>
    simp only [recordSuccess, hev, Prog.perform_bind] at h
    obtain ⟨b, t', rfl, ht'⟩ := Prog.returns_call_iff.mp h
    obtain ⟨rfl, rfl⟩ := Prog.returns_pure_iff.mp ht'
    simp [dedupKey, hev, recordOf]

/-- A program behind the duplicate check: the check finds something, or the program runs. -/
theorem returns_unless_suppressed {d' : Disposition} {p : Pipeline Disposition}
    (h : (suppressed n device >>= fun dup => if dup then pure d' else p).Returns t d) :
    (∃ key, dedupKey n device = some key ∧ t = [checkOf true key] ∧ d = d') ∨
      ∃ t', t = (dedupKey n device).toList.map (checkOf false) ++ t' ∧ p.Returns t' d := by
  obtain ⟨dup, t₁, t₂, rfl, hcheck, hrest⟩ := Prog.returns_bind_iff.mp h
  obtain ⟨rfl, hkey⟩ := returns_suppressed hcheck
  cases dup with
  | true =>
    obtain ⟨key, hkey⟩ := hkey rfl
    obtain ⟨rfl, rfl⟩ := Prog.returns_pure_iff.mp hrest
    exact Or.inl ⟨key, hkey, by simp [hkey], rfl⟩
  | false => exact Or.inr ⟨t₂, rfl, hrest⟩

theorem deviceRun_of_returns_queueOne (hprovider : state.providers.lookup device.appId = none)
    (hqueue : state.queue.isSome) (h : (queueOne n device).Returns t d) :
    DeviceRun crates state n device t d := by
  obtain ⟨b, t', rfl, hrest⟩ := Prog.returns_call_iff.mp h
  -- whether the pair has been reported
  cases b with
  | true =>
    obtain ⟨rfl, rfl⟩ := Prog.returns_pure_iff.mp hrest
    exact .reported hprovider hqueue
  | false =>
    rcases returns_unless_suppressed hrest with ⟨key, hkey, rfl, rfl⟩ | ⟨t₁, rfl, henqueue⟩
    · exact .queueSuppressed hprovider hqueue hkey
    · obtain ⟨result, t₂, rfl, hend⟩ := Prog.returns_call_iff.mp henqueue
      cases result with
      | error e =>
        obtain ⟨rfl, rfl⟩ := Prog.returns_pure_iff.mp hend
        exact .queueFailed hprovider hqueue
      | ok u =>
        obtain ⟨rfl, rfl⟩ := returns_recordSuccess hend
        exact .queued hprovider hqueue

/-- A complete run of the pipeline of a device is one of the listed ones. -/
theorem deviceRun_of_returns (h : (deliverOne crates state n device).Returns t d) :
    DeviceRun crates state n device t d := by
  unfold deliverOne at h
  split at h
  -- no backend here: the device is queued for, or the app is unknown
  next hprovider =>
    split at h
    next q hqueue => exact deviceRun_of_returns_queueOne hprovider (by simp [hqueue]) h
    next hqueue =>
      have hpure : t = [] ∧
          d = if state.config.rejectUnknownApps then .reject device.pushkey else .fine := by
        by_cases hreject : state.config.rejectUnknownApps = true
        · simpa only [hreject, if_true, Prog.returns_pure_iff] using h
        · simpa only [hreject, Bool.false_eq_true, if_false, Prog.returns_pure_iff] using h
      obtain ⟨rfl, rfl⟩ := hpure
      exact .unknown hprovider hqueue
  -- a delivery, unless it is suppressed
  next provider hprovider =>
    rcases returns_unless_suppressed h with ⟨key, hkey, rfl, rfl⟩ | ⟨t₁, rfl, hdeliver⟩
    · exact .suppressed hprovider hkey
    · rw [Prog.perform_bind] at hdeliver
      obtain ⟨answers, t₂, rfl, hend⟩ := Prog.returns_call_iff.mp hdeliver
      split at hend
      next hdelivered =>
        obtain ⟨rfl, rfl⟩ := returns_recordSuccess hend
        exact .delivered hprovider hdelivered
      all_goals
        next houtcome =>
          obtain ⟨rfl, rfl⟩ := Prog.returns_pure_iff.mp hend
          exact .ended hprovider (by simp [houtcome]) (by simp [houtcome]) (by simp)

/-- A device whose push service fails transiently fails transiently. -/
theorem eq_transient_of_returns {provider : Provider} {answers : Answers} {error : String}
    (h : (deliverOne crates state n device).Returns t d)
    (hmem : (⟨.deliver provider n device, answers⟩ : Event Cmd Cmd.Res) ∈ t)
    (houtcome : provider.deliver crates device answers = .transient error) : d = .transient := by
  unfold deliverOne at h
  split at h
  next hprovider =>
    exfalso
    revert hmem
    split at h
    next q hqueue =>
      -- the queue-mode path delivers nothing
      have hrun : DeviceRun crates state n device t d :=
        deviceRun_of_returns_queueOne hprovider (by simp [hqueue]) h
      cases hrun with
      | suppressed hsome | delivered hsome | ended hsome =>
        rw [hprovider] at hsome
        cases hsome
      | _ => cases dedupKey n device <;> simp [checkOf, recordOf]
    next => split at h <;> simp [(Prog.returns_pure_iff.mp h).1]
  next provider' _ =>
    rcases returns_unless_suppressed h with ⟨key, -, rfl, -⟩ | ⟨t₁, rfl, hdeliver⟩
    · simp [checkOf] at hmem
    · rw [Prog.perform_bind] at hdeliver
      obtain ⟨answers', t₂, rfl, hend⟩ := Prog.returns_call_iff.mp hdeliver
      -- the rest of the run is at most a record
      have hrest : (⟨.deliver provider n device, answers⟩ : Event Cmd Cmd.Res) ∉ t₂ := by
        intro he
        split at hend
        next =>
          obtain ⟨rfl, -⟩ := returns_recordSuccess hend
          obtain ⟨key, -, heq⟩ := List.mem_map.mp he
          cases heq
        all_goals
          obtain ⟨rfl, -⟩ := Prog.returns_pure_iff.mp hend
          cases he
      have hsame : (⟨.deliver provider n device, answers⟩ : Event Cmd Cmd.Res) =
          ⟨.deliver provider' n device, answers'⟩ := by
        rcases List.mem_append.mp hmem with hmem | hmem
        · obtain ⟨key, -, heq⟩ := List.mem_map.mp hmem
          cases heq
        · rcases List.mem_cons.mp hmem with heq | he
          · exact heq
          · exact absurd he hrest
      cases hsame
      rw [houtcome] at hend
      exact (Prog.returns_pure_iff.mp hend).2

/-- A run whose check found something ends there. -/
theorem DeviceRun.of_mem_check {key : Key} (h : DeviceRun crates state n device t d)
    (hkey : checkOf true key ∈ t) : d = .fine ∧ dedupKey n device = some key := by
  have hinj : ∀ key', checkOf true key = checkOf true key' → key = key' := by
    rintro ⟨_, _, _⟩ heq
    cases heq
    rfl
  cases h with
  | queueSuppressed _ _ hkey' | suppressed _ hkey' =>
    have heq : ∃ key', checkOf true key = checkOf true key' ∧ dedupKey n device = some key' := by
      refine ⟨_, ?_, hkey'⟩
      simpa [checkOf] using hkey
    obtain ⟨key', hcheck, hkey'⟩ := heq
    exact ⟨rfl, hinj key' hcheck ▸ hkey'⟩
  | _ =>
    -- no other run has a check that found something
    exfalso
    revert hkey
    cases dedupKey n device <;> simp [checkOf, recordOf]

/-! ### Rejections -/

/-- The steps of the pipeline of a device justify rejecting its pushkey: the push service has
answered definitively, the pair is recorded as rejected in queue mode, or the app is unknown and
`reject_unknown_apps` is set. -/
inductive Rejects (crates : Crates) (state : AppState) (n : Notification) (device : Device)
    (t : List (Event Cmd Cmd.Res)) : Prop
  | definitive {provider answers} : state.providers.lookup device.appId = some provider →
    (∀ eventId, ⟨.isDuplicate eventId device.appId device.pushkey, true⟩ ∉ t) →
    ⟨.deliver provider n device, answers⟩ ∈ t → provider.Definitive crates device answers →
    Rejects crates state n device t
  | reported : state.providers.lookup device.appId = none → state.queue.isSome →
    ⟨.isRejected device.appId device.pushkey, true⟩ ∈ t → Rejects crates state n device t
  | unknown : state.providers.lookup device.appId = none → state.queue = none →
    state.config.rejectUnknownApps = true → Rejects crates state n device t

/-- A pipeline rejects no other pushkey than that of its device. -/
theorem DeviceRun.eq_pushkey {pushkey : String} (h : DeviceRun crates state n device t d)
    (hd : d = .reject pushkey) : pushkey = device.pushkey := by
  cases h with
  | unknown =>
    split at hd
    · exact (Disposition.reject.inj hd).symm
    · cases hd
  | reported => exact (Disposition.reject.inj hd).symm
  | ended _ _ _ honly => exact honly pushkey hd
  | _ => cases hd

/-- A run has at most one delivery. -/
theorem answers_eq_of_mem {provider : Provider} {answers answers' : Answers} {duplicate : Bool}
    {r : List Key}
    (h : (⟨.deliver provider n device, answers⟩ : Event Cmd Cmd.Res) ∈
      (dedupKey n device).toList.map (checkOf duplicate) ++
        ⟨.deliver provider n device, answers'⟩ :: r.map recordOf) :
    answers = answers' := by
  simpa [checkOf, recordOf] using h

/-- A pipeline rejects the pushkey of its device exactly when its steps justify it. -/
theorem DeviceRun.eq_reject_iff (h : DeviceRun crates state n device t d) :
    d = .reject device.pushkey ↔ Rejects crates state n device t := by
  constructor
  · intro hd
    cases h with
    | unknown hprovider hqueue =>
      refine Rejects.unknown hprovider hqueue ?_
      by_contra hoff
      rw [if_neg hoff] at hd
      cases hd
    | reported hprovider hqueue => exact Rejects.reported hprovider hqueue (by simp)
    | ended hprovider _ hiff _ =>
      refine Rejects.definitive hprovider ?_ (by simp)
        ((Provider.deliver_eq_rejected_iff _).mp (hiff.mp hd))
      cases dedupKey n device <;> simp [checkOf]
    | _ => cases hd
  · intro hrejects
    cases hrejects with
    | definitive hprovider hfresh hdeliver hdefinitive =>
      have hrejected := (Provider.deliver_eq_rejected_iff _).mpr hdefinitive
      cases h with
      | delivered hprovider' hdelivered =>
        -- the answers that were definitive are those of the delivery
        cases hprovider.symm.trans hprovider'
        obtain rfl := answers_eq_of_mem hdeliver
        rw [hrejected] at hdelivered
        cases hdelivered
      | ended hprovider' _ hiff _ =>
        cases hprovider.symm.trans hprovider'
        obtain rfl := answers_eq_of_mem (r := []) hdeliver
        exact hiff.mpr hrejected
      | suppressed => simp [checkOf] at hdeliver
      | _ => simp_all
    | reported hprovider hqueue hreported => cases h <;> simp_all [checkOf, recordOf]
    | unknown hprovider hqueue hreject => cases h <;> simp_all

/-- Without a provider in queue mode, the check for rejected pairs comes first, and decides. -/
theorem DeviceRun.of_queue (h : DeviceRun crates state n device t d)
    (hprovider : state.providers.lookup device.appId = none) (hqueue : state.queue.isSome) :
    ∃ rejected rest, t = ⟨.isRejected device.appId device.pushkey, rejected⟩ :: rest ∧
      (d = .reject device.pushkey ↔ rejected = true) ∧ (rejected = true → rest = []) := by
  cases h with
  | unknown _ hnone => simp [hnone] at hqueue
  | reported => exact ⟨true, [], rfl, by simp, by simp⟩
  | queueSuppressed | queued | queueFailed => exact ⟨false, _, rfl, by simp, by simp⟩
  | suppressed hsome | delivered hsome | ended hsome =>
    rw [hprovider] at hsome
    cases hsome

/-- With a provider, the notification is suppressed or delivered, and the delivery decides. -/
theorem DeviceRun.of_provider {provider : Provider} (h : DeviceRun crates state n device t d)
    (hprovider : state.providers.lookup device.appId = some provider) :
    (∃ eventId, ⟨.isDuplicate eventId device.appId device.pushkey, true⟩ ∈ t ∧ d = .fine) ∨
      ∃ answers, ⟨.deliver provider n device, answers⟩ ∈ t ∧
        (d = .reject device.pushkey ↔ provider.Definitive crates device answers) := by
  cases h with
  | unknown hnone | reported hnone | queueSuppressed hnone | queued hnone | queueFailed hnone =>
    rw [hprovider] at hnone
    cases hnone
  | suppressed _ hkey =>
    obtain ⟨eventId, -, rfl⟩ := Option.map_eq_some_iff.mp hkey
    exact Or.inl ⟨eventId, List.mem_singleton.mpr rfl, rfl⟩
  | @delivered _ answers hprovider' hdelivered =>
    cases hprovider.symm.trans hprovider'
    refine Or.inr ⟨answers, by simp, ?_⟩
    rw [← Provider.deliver_eq_rejected_iff, hdelivered]
    exact iff_of_false nofun nofun
  | @ended _ answers _ hprovider' _ hiff _ =>
    cases hprovider.symm.trans hprovider'
    exact Or.inr ⟨answers, by simp, by rw [hiff, Provider.deliver_eq_rejected_iff]⟩

/-- Without a provider and outside queue mode, the setting decides. -/
theorem DeviceRun.of_unknown (h : DeviceRun crates state n device t d)
    (hprovider : state.providers.lookup device.appId = none) (hqueue : state.queue = none) :
    d = .reject device.pushkey ↔ state.config.rejectUnknownApps = true := by
  cases h with
  | unknown => split <;> simp_all
  | suppressed hsome | delivered hsome | ended hsome =>
    rw [hprovider] at hsome
    cases hsome
  | reported _ hsome | queueSuppressed _ hsome | queued _ hsome | queueFailed _ hsome =>
    simp [hqueue] at hsome

end Pincerbell
