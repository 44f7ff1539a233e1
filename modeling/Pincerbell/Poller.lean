import Pincerbell.Gateway.Device

/-!
# The poll loop

`poll_once` of `poller.rs`: fetch entries from an upstream, run each through the pipeline of its
device, then acknowledge. Every step is marked with the id of the entry that it is performed for.
The marks have no part in what is done, they only say in a log what belongs to which entry.

* `deliverDevices`, `handleEntries`, `pollOnce` — the two loops, and one cycle.
* `chained_pollOnce` — its steps are linked as those of `deliverOne`.
* `always_cycleStep_pollOnce` — which steps it consists of.
* `returns_of_steps_sendAck` — what has been done when the ack is sent.
* `exists_of_mem_acked` — what has been done for an entry that is acknowledged.
-/

namespace Pincerbell

open Prog (Event Always Returns Chained Steps)

/-- A program whose steps are marked with the queue entry they are performed for, if any. -/
abbrev Marked := Prog (Option ℕ × Cmd) fun c => c.2.Res

/-- A step with its result, marked. -/
abbrev MarkedEvent := Event (Option ℕ × Cmd) fun c => c.2.Res

/-- A step that is performed for no entry. -/
abbrev Marked.perform (c : Cmd) : Marked c.Res := Prog.perform (none, c)

/-! ### One cycle -/

variable (crates : Crates) (state : AppState)

/-- The inner loop of `poll_once`: whether a delivery failed transiently, and the ack so far. -/
def deliverDevices (id : ℕ) (n : Notification) : List Device → Bool × AckRequest →
    Marked (Bool × AckRequest)
  | [], acc => return acc
  | device :: devices, (transient, ack) => do
    match ← (deliverOne crates state n device).tag (some id) with
    | .fine => deliverDevices id n devices (transient, ack)
    | .reject pushkey =>
      deliverDevices id n devices (transient,
        { ack with rejectedPushkeys := ack.rejectedPushkeys ++ [⟨device.appId, pushkey⟩] })
    | .transient => deliverDevices id n devices (true, ack)

/-- The outer loop of `poll_once`. -/
def handleEntries : List PollEntry → AckRequest → Marked AckRequest
  | [], ack => return ack
  | entry :: entries, ack =>
    match Notification.fromValue entry.notification with
    -- a malformed entry must not redeliver forever: ack it away
    | none => handleEntries entries { ack with acked := ack.acked ++ [entry.id] }
    | some n => do
      let (transient, ack) ← deliverDevices crates state entry.id n n.devices (false, ack)
      -- transient failure: leave unacked, the upstream lease redelivers
      if transient then handleEntries entries ack
      else handleEntries entries { ack with acked := ack.acked ++ [entry.id] }

/-- `poll_once`: the number of fetched entries. -/
def pollOnce (maxBatch : ℕ) : Marked (Except String ℕ) := do
  match ← Marked.perform (.poll maxBatch) with
  | .error e => return .error e
  | .ok entries => do
    let ack ← handleEntries crates state entries {}
    if ack.acked.isEmpty && ack.rejectedPushkeys.isEmpty then return .ok entries.length
    else
      match ← Marked.perform (.sendAck ack) with
      | .error e => return .error e
      | .ok _ => return .ok entries.length

variable {crates state}

/-! ### Its steps are linked -/

/-- `Linked`, for marked steps: steps that belong together have one mark. -/
structure MarkedLinked (crates : Crates) (last : Option MarkedEvent) (e : MarkedEvent) : Prop where
  attempt : ∀ key, attemptOf e.untag = some key → last = some ((checkOf false key).tag e.1.1)
  record : ∀ key, e.untag = recordOf key →
    ∃ e', last = some e' ∧ e'.1.1 = e.1.1 ∧ successOf crates e'.untag = some key
  success : ∀ e' key, last = some e' → successOf crates e'.untag = some key →
    e = (recordOf key).tag e'.1.1

/-- `Quiet`, for marked steps. -/
def MarkedQuiet (crates : Crates) (last : Option MarkedEvent) : Prop :=
  ∀ e, last = some e → successOf crates e.untag = none

variable {last : Option MarkedEvent} {n : Notification} {device : Device}

theorem markedQuiet_some {e : MarkedEvent} :
    MarkedQuiet crates (some e) ↔ successOf crates e.untag = none := by
  simp [MarkedQuiet]

/-- A marked step that is neither an attempt nor a record. -/
theorem MarkedLinked.of_other {e : MarkedEvent} (hlast : MarkedQuiet crates last)
    (ha : attemptOf e.untag = none) (hr : ∀ key, e.untag ≠ recordOf key) :
    MarkedLinked crates last e where
  attempt key h := by
    rw [ha] at h
    cases h
  record key h := absurd h (hr key)
  success e' key he' hs := by
    rw [hlast e' he'] at hs
    cases hs

/-- Marking the steps of a linked pipeline. -/
theorem chained_tag {α : Type} {p : Pipeline α} (x : Option ℕ)
    (h : p.Chained (Linked crates) (Quiet crates) none) (hlast : MarkedQuiet crates last) :
    (p.tag x).Chained (MarkedLinked crates) (MarkedQuiet crates) last := by
  -- after the first step, the last one has the mark of the pipeline
  have hmarked : ∀ {α : Type} {p : Pipeline α} {e : Event Cmd Cmd.Res},
      p.Chained (Linked crates) (Quiet crates) (some e) →
      (p.tag x).Chained (MarkedLinked crates) (MarkedQuiet crates) (some (e.tag x)) := by
    intro α p
    induction p with
    | pure a => exact fun {e} h => markedQuiet_some.mpr (quiet_some.mp h)
    | call c f ih =>
      intro e h r
      obtain ⟨hlinked, hrest⟩ := h r
      refine ⟨⟨fun key ha => ?_, fun key hr => ?_, fun e' key he' hs => ?_⟩, ih r hrest⟩
      · -- an attempt comes after a check with the same mark
        obtain rfl := Option.some_inj.mp (hlinked.attempt key ha)
        rfl
      · obtain ⟨e', he', hs⟩ := hlinked.record key hr
        obtain rfl := Option.some_inj.mp he'
        exact ⟨_, rfl, rfl, hs⟩
      · obtain rfl := Option.some_inj.mp he'
        exact congrArg (Event.tag x) (hlinked.success e key rfl hs)
  cases p with
  | pure a => exact hlast
  | call c f =>
    intro r
    obtain ⟨hlinked, hrest⟩ := h r
    -- the first step comes after nothing, so it is neither an attempt nor a record
    refine ⟨MarkedLinked.of_other hlast ?_ fun key hr => ?_, hmarked hrest⟩
    · by_contra ha
      obtain ⟨key, hkey⟩ := Option.ne_none_iff_exists'.mp ha
      cases hlinked.attempt key hkey
    · obtain ⟨e', he', -⟩ := hlinked.record key hr
      cases he'

theorem quiet_none : Quiet crates none := by rintro e ⟨⟩

theorem chained_tag_deliverOne (hlast : MarkedQuiet crates last) (x : Option ℕ) :
    ((deliverOne crates state n device).tag x).Chained (MarkedLinked crates) (MarkedQuiet crates)
      last :=
  chained_tag x (chained_deliverOne quiet_none) hlast

theorem chained_deliverDevices {id : ℕ} {devices : List Device} {acc : Bool × AckRequest}
    (hlast : MarkedQuiet crates last) :
    (deliverDevices crates state id n devices acc).Chained (MarkedLinked crates)
      (MarkedQuiet crates) last := by
  induction devices generalizing acc last with
  | nil => exact hlast
  | cons device devices ih =>
    refine (chained_tag_deliverOne hlast (some id)).bind fun last d hlast => ?_
    cases d <;> exact ih hlast

theorem chained_handleEntries {entries : List PollEntry} {ack : AckRequest}
    (hlast : MarkedQuiet crates last) :
    (handleEntries crates state entries ack).Chained (MarkedLinked crates) (MarkedQuiet crates)
      last := by
  induction entries generalizing ack last with
  | nil => exact hlast
  | cons entry entries ih =>
    unfold handleEntries
    split
    next => exact ih hlast
    next n _ =>
      refine (chained_deliverDevices hlast).bind fun last acc hlast => ?_
      dsimp only
      split <;> exact ih hlast

/-- The steps of a cycle are linked, and it leaves no success unrecorded. -/
theorem chained_pollOnce {maxBatch : ℕ} :
    (pollOnce crates state maxBatch).Chained (MarkedLinked crates) (MarkedQuiet crates) none := by
  have hnone : MarkedQuiet crates none := by rintro e ⟨⟩
  unfold pollOnce
  simp only [Prog.perform_bind, Prog.chained_call]
  rintro (e | entries)
  · exact ⟨.of_other hnone rfl (by rintro _ ⟨⟩), markedQuiet_some.mpr rfl⟩
  · refine ⟨.of_other hnone rfl (by rintro _ ⟨⟩), ?_⟩
    refine (chained_handleEntries (markedQuiet_some.mpr rfl)).bind fun last ack hlast => ?_
    split
    next => exact hlast
    next =>
      simp only [Prog.chained_call]
      rintro (e | u)
      · exact ⟨.of_other hlast rfl (by rintro _ ⟨⟩), markedQuiet_some.mpr rfl⟩
      · exact ⟨.of_other hlast rfl (by rintro _ ⟨⟩), markedQuiet_some.mpr rfl⟩

/-! ### Which steps it consists of -/

/-- The step is one of the pipeline of a device of one of the entries. -/
def EntryStep (state : AppState) (entries : List PollEntry) (c : Option ℕ × Cmd) : Prop :=
  ∃ entry ∈ entries, ∃ n, Notification.fromValue entry.notification = some n ∧
    ∃ device ∈ n.devices, c.1 = some entry.id ∧ DeviceStep state n device c.2

theorem EntryStep.mono {entries entries' : List PollEntry} {c : Option ℕ × Cmd}
    (h : EntryStep state entries c) (hsub : entries ⊆ entries') : EntryStep state entries' c := by
  obtain ⟨entry, hmem, hrest⟩ := h
  exact ⟨entry, hsub hmem, hrest⟩

theorem always_entryStep_deliverDevices {entries : List PollEntry} {entry : PollEntry}
    {devices : List Device} {acc : Bool × AckRequest} (hentry : entry ∈ entries)
    (hn : Notification.fromValue entry.notification = some n) (hdevices : devices ⊆ n.devices) :
    (deliverDevices crates state entry.id n devices acc).Always
      fun _ e => EntryStep state entries e.1 := by
  induction devices generalizing acc with
  | nil => exact Prog.always_pure
  | cons device devices ih =>
    obtain ⟨hdevice, hdevices⟩ := List.cons_subset.mp hdevices
    have hsteps : ((deliverOne crates state n device).tag (some entry.id)).Always
        fun _ e => EntryStep state entries e.1 :=
      Prog.always_tag_iff.mpr (always_deviceStep_deliverOne.mono fun _ e he =>
        ⟨entry, hentry, n, hn, device, hdevice, rfl, he⟩)
    refine hsteps.bind fun _ d _ => ?_
    cases d <;> exact ih hdevices

theorem always_entryStep_handleEntries {entries : List PollEntry} {ack : AckRequest} :
    (handleEntries crates state entries ack).Always fun _ e => EntryStep state entries e.1 := by
  induction entries generalizing ack with
  | nil => exact Prog.always_pure
  | cons entry entries ih =>
    have hrest : ∀ {ack}, (handleEntries crates state entries ack).Always
        fun _ e => EntryStep state (entry :: entries) e.1 := fun {ack} =>
      Always.mono ih fun _ e he => he.mono (List.subset_cons_self _ _)
    unfold handleEntries
    split
    next => exact hrest
    next n hn =>
      refine (always_entryStep_deliverDevices List.mem_cons_self hn (List.Subset.refl _)).bind
        fun _ acc _ => ?_
      dsimp only
      split <;> exact hrest

/-- The steps of a cycle: the poll, the pipelines of what it fetched, and the ack. -/
inductive CycleStep (state : AppState) (maxBatch : ℕ) (t : List MarkedEvent) :
    Option ℕ × Cmd → Prop
  | poll : t = [] → CycleStep state maxBatch t (none, .poll maxBatch)
  | entry {entries c} : t.head? = some ⟨(none, .poll maxBatch), .ok entries⟩ →
    EntryStep state entries c → CycleStep state maxBatch t c
  | sendAck {req} : CycleStep state maxBatch t (none, .sendAck req)

theorem always_cycleStep_pollOnce {maxBatch : ℕ} :
    (pollOnce crates state maxBatch).Always fun t e => CycleStep state maxBatch t e.1 := by
  unfold pollOnce
  simp only [Prog.perform_bind, Prog.always_call]
  rintro (e | entries)
  · exact ⟨.poll rfl, Prog.always_pure⟩
  · refine ⟨.poll rfl, ?_⟩
    have hentries : (handleEntries crates state entries {}).Always fun t e =>
        CycleStep state maxBatch (⟨(none, .poll maxBatch), .ok entries⟩ :: t) e.1 :=
      always_entryStep_handleEntries.mono fun _ _ he => .entry rfl he
    refine hentries.bind fun _ ack _ => ?_
    split
    next => exact Prog.always_pure
    next =>
      simp only [Prog.always_call]
      rintro (e | u) <;> exact ⟨.sendAck, Prog.always_pure⟩

/-! ### What is acknowledged -/

/-- When the ack is sent, all fetched entries have been handled. -/
theorem returns_of_steps_sendAck {maxBatch : ℕ} {t : List MarkedEvent} {x : Option ℕ}
    {req : AckRequest} {f : Except String Unit → Marked (Except String ℕ)}
    (h : Steps (pollOnce crates state maxBatch) t (Prog.call (x, .sendAck req) f)) :
    ∃ entries t', t = ⟨(none, .poll maxBatch), .ok entries⟩ :: t' ∧
      (handleEntries crates state entries {}).Returns t' req := by
  rw [pollOnce, Prog.perform_bind] at h
  rcases Prog.steps_call_iff.mp h with ⟨-, heq⟩ | ⟨r, t', rfl, hrest⟩
  · cases heq
  cases r with
  | error e =>
    obtain ⟨-, heq⟩ := Prog.steps_pure_iff.mp hrest
    cases heq
  | ok entries =>
    refine ⟨entries, t', rfl, ?_⟩
    rcases Prog.Steps.bind_cases hrest with ⟨c, g, hp, heq⟩ | ⟨ack, t₁, t₂, rfl, hack, hend⟩
    · -- the steps for the entries send no ack
      obtain ⟨rfl, -⟩ := Prog.call.inj heq
      obtain ⟨_, _, _, _, _, _, _, hstep⟩ :=
        always_entryStep_handleEntries.of_steps (hp.snoc (.ok ()))
      cases hstep
    · split at hend
      next =>
        obtain ⟨-, heq⟩ := Prog.steps_pure_iff.mp hend
        cases heq
      next =>
        rw [Prog.perform_bind] at hend
        rcases Prog.steps_call_iff.mp hend with ⟨rfl, heq⟩ | ⟨r, t₃, rfl, hafter⟩
        · cases heq
          simpa using hack
        · cases r with
          | _ =>
            obtain ⟨-, heq⟩ := Prog.steps_pure_iff.mp hafter
            cases heq

/-- What has been done for a device of an entry that is acknowledged: the pipeline has run, it did
not fail transiently, and a rejected pushkey is reported. -/
def Handled (crates : Crates) (state : AppState) (id : ℕ) (n : Notification) (device : Device)
    (t : List MarkedEvent) (req : AckRequest) : Prop :=
  ∃ t₁ t₂ t₃ d, t = t₁ ++ t₂.map (Event.tag (some id)) ++ t₃ ∧
    (deliverOne crates state n device).Returns t₂ d ∧ d ≠ .transient ∧
    ∀ pushkey, d = .reject pushkey → ⟨device.appId, pushkey⟩ ∈ req.rejectedPushkeys

theorem Handled.append {id : ℕ} {t : List MarkedEvent} {req req' : AckRequest}
    (h : Handled crates state id n device t req) (t₁ t₃ : List MarkedEvent)
    (hsub : req.rejectedPushkeys ⊆ req'.rejectedPushkeys) :
    Handled crates state id n device (t₁ ++ t ++ t₃) req' := by
  obtain ⟨s₁, s₂, s₃, d, rfl, hret, hd, hrej⟩ := h
  exact ⟨t₁ ++ s₁, s₂, s₃ ++ t₃, d, by simp, hret, hd, fun pk hpk => hsub (hrej pk hpk)⟩

/-- A pipeline that has run, and what its disposition adds to the ack. -/
theorem Handled.of_returns {id : ℕ} {t : List (Event Cmd Cmd.Res)} {d : Disposition}
    {req : AckRequest} (h : (deliverOne crates state n device).Returns t d) (hd : d ≠ .transient)
    (hreport : ∀ pushkey, d = .reject pushkey →
      ⟨device.appId, pushkey⟩ ∈ req.rejectedPushkeys) :
    Handled crates state id n device (t.map (Event.tag (some id))) req :=
  ⟨[], t, [], d, by simp, h, hd, hreport⟩

/-- The inner loop adds nothing but reports to the ack, and without a transient failure it has
handled every device. -/
theorem returns_deliverDevices {id : ℕ} {devices : List Device} {acc acc' : Bool × AckRequest}
    {t : List MarkedEvent}
    (h : (deliverDevices crates state id n devices acc).Returns t acc') :
    acc'.2.acked = acc.2.acked ∧ acc.2.rejectedPushkeys ⊆ acc'.2.rejectedPushkeys ∧
      (acc'.1 = false → acc.1 = false ∧
        ∀ device ∈ devices, Handled crates state id n device t acc'.2) := by
  induction devices generalizing acc t with
  | nil =>
    obtain ⟨-, rfl⟩ := Prog.returns_pure_iff.mp h
    simp
  | cons device devices ih =>
    obtain ⟨d, t₁, t₂, rfl, hrun, hrest⟩ := Prog.returns_bind_iff.mp h
    obtain ⟨t', rfl, hret⟩ := Prog.returns_tag_iff.mp hrun
    -- the device itself, and then those of the rest of the loop
    have hcons : d ≠ .transient →
        (∀ pushkey, d = .reject pushkey → ⟨device.appId, pushkey⟩ ∈ acc'.2.rejectedPushkeys) →
        (∀ device ∈ devices, Handled crates state id n device t₂ acc'.2) →
        ∀ device' ∈ device :: devices,
          Handled crates state id n device' (t'.map (Event.tag (some id)) ++ t₂) acc'.2 := by
      intro hd hreport hdevices device' hmem
      rcases List.mem_cons.mp hmem with rfl | hmem
      · exact (Handled.of_returns hret hd hreport).append [] t₂ (List.Subset.refl _)
      · simpa using (hdevices device' hmem).append (t'.map (Event.tag (some id))) []
          (List.Subset.refl _)
    -- what each disposition adds to the accumulator of the loop
    cases d with
    | fine =>
      obtain ⟨hacked, hsub, hdone⟩ := ih hrest
      refine ⟨hacked, hsub, fun htrans => ?_⟩
      obtain ⟨hacc, hdevices⟩ := hdone htrans
      exact ⟨hacc, hcons (by simp) (by simp) hdevices⟩
    | reject pushkey =>
      obtain ⟨hacked, hsub, hdone⟩ := ih hrest
      refine ⟨hacked, fun r hr => hsub (List.mem_append_left _ hr), fun htrans => ?_⟩
      obtain ⟨hacc, hdevices⟩ := hdone htrans
      refine ⟨hacc, hcons (by simp) ?_ hdevices⟩
      rintro _ ⟨⟩
      exact hsub (List.mem_append_right _ (List.mem_singleton.mpr rfl))
    | transient =>
      obtain ⟨hacked, hsub, hdone⟩ := ih hrest
      refine ⟨hacked, hsub, fun htrans => ?_⟩
      cases (hdone htrans).1

/-- An entry is acknowledged only when it cannot be decoded or its devices have been handled. -/
theorem returns_handleEntries {entries : List PollEntry} {ack ack' : AckRequest}
    {t : List MarkedEvent} (h : (handleEntries crates state entries ack).Returns t ack') :
    ack.rejectedPushkeys ⊆ ack'.rejectedPushkeys ∧ ∀ id ∈ ack'.acked, id ∈ ack.acked ∨
      ∃ entry ∈ entries, entry.id = id ∧ ∀ n, Notification.fromValue entry.notification = some n →
        ∀ device ∈ n.devices, Handled crates state id n device t ack' := by
  induction entries generalizing ack t with
  | nil =>
    obtain ⟨-, rfl⟩ := Prog.returns_pure_iff.mp h
    exact ⟨List.Subset.refl _, fun id hid => Or.inl hid⟩
  | cons entry entries ih =>
    unfold handleEntries at h
    split at h
    next hnone =>
      -- acknowledged because it cannot be decoded
      obtain ⟨hsub, hacked⟩ := ih h
      refine ⟨hsub, fun id hid => ?_⟩
      rcases hacked id hid with hid | ⟨entry', hmem, hrest⟩
      · rcases List.mem_append.mp hid with hid | hid
        · exact Or.inl hid
        · obtain rfl := List.mem_singleton.mp hid
          refine Or.inr ⟨entry, List.mem_cons_self, rfl, fun n hn => ?_⟩
          rw [hnone] at hn
          cases hn
      · exact Or.inr ⟨entry', List.mem_cons_of_mem _ hmem, hrest⟩
    next n hn =>
      obtain ⟨⟨transient, ack₁⟩, t₁, t₂, rfl, hdevices, hrest⟩ := Prog.returns_bind_iff.mp h
      obtain ⟨hsame, hsub₁, hdone⟩ := returns_deliverDevices hdevices
      -- what the rest of the loop does, whatever ack it starts with
      have hlater : ∀ {ack₂ : AckRequest},
          (handleEntries crates state entries ack₂).Returns t₂ ack' →
          ack₁.rejectedPushkeys ⊆ ack₂.rejectedPushkeys →
          ack.rejectedPushkeys ⊆ ack'.rejectedPushkeys ∧ ack₁.rejectedPushkeys ⊆
            ack'.rejectedPushkeys ∧ ∀ id ∈ ack'.acked, id ∈ ack₂.acked ∨
              ∃ entry ∈ entries, entry.id = id ∧
                ∀ n, Notification.fromValue entry.notification = some n →
                  ∀ device ∈ n.devices, Handled crates state id n device (t₁ ++ t₂) ack' := by
        intro ack₂ hret hsub₂
        obtain ⟨hsub, hacked⟩ := ih hret
        refine ⟨fun r hr => hsub (hsub₂ (hsub₁ hr)), fun r hr => hsub (hsub₂ hr), fun id hid => ?_⟩
        refine (hacked id hid).imp_right ?_
        rintro ⟨entry', hmem, hid', hhandled⟩
        refine ⟨entry', hmem, hid', fun n hn device hdevice => ?_⟩
        simpa using (hhandled n hn device hdevice).append t₁ [] (List.Subset.refl _)
      dsimp only at hrest
      cases transient with
      | true =>
        obtain ⟨hsub, -, hacked⟩ := hlater hrest (List.Subset.refl _)
        refine ⟨hsub, fun id hid => ?_⟩
        rcases hacked id hid with hid | ⟨entry', hmem, hentry'⟩
        · exact Or.inl (hsame ▸ hid)
        · exact Or.inr ⟨entry', List.mem_cons_of_mem _ hmem, hentry'⟩
      | false =>
        obtain ⟨hsub, hsub', hacked⟩ := hlater hrest (List.Subset.refl _)
        refine ⟨hsub, fun id hid => ?_⟩
        rcases hacked id hid with hid | ⟨entry', hmem, hentry'⟩
        · rcases List.mem_append.mp hid with hid | hid
          · exact Or.inl (hsame ▸ hid)
          · -- acknowledged here, after the loop over its devices
            obtain rfl := List.mem_singleton.mp hid
            refine Or.inr ⟨entry, List.mem_cons_self, rfl, fun n' hn' device hdevice => ?_⟩
            cases hn.symm.trans hn'
            simpa using ((hdone rfl).2 device hdevice).append [] t₂ hsub'
        · exact Or.inr ⟨entry', List.mem_cons_of_mem _ hmem, hentry'⟩

/-- What has been done for an entry whose id is in the ack that a cycle sends. -/
theorem exists_of_mem_acked {maxBatch : ℕ} {t : List MarkedEvent} {x : Option ℕ} {req : AckRequest}
    {f : Except String Unit → Marked (Except String ℕ)}
    (h : Steps (pollOnce crates state maxBatch) t (Prog.call (x, .sendAck req) f)) {id : ℕ}
    (hid : id ∈ req.acked) :
    ∃ entries, ⟨(none, .poll maxBatch), .ok entries⟩ ∈ t ∧ ∃ entry ∈ entries, entry.id = id ∧
      ∀ n, Notification.fromValue entry.notification = some n →
        ∀ device ∈ n.devices, Handled crates state id n device t req := by
  obtain ⟨entries, t', rfl, hret⟩ := returns_of_steps_sendAck h
  rcases (returns_handleEntries hret).2 id hid with hnil | ⟨entry, hmem, rfl, hhandled⟩
  · cases hnil
  · refine ⟨entries, List.mem_cons_self, entry, hmem, rfl, fun n hn device hdevice => ?_⟩
    simpa using (hhandled n hn device hdevice).append [_] [] (List.Subset.refl _)

end Pincerbell
