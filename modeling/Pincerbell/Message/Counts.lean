import Pincerbell.Api.RoundTrip
import Pincerbell.Message

/-!
# Absent counts

`Counts` says that zero-valued counts are omitted on the wire, so that an absent count means zero.
The backends do not read it that way. Each of the three payload builders copies the counts that are
present, and a count that is absent stays absent.

* `ZeroFilled` — two notifications that differ only in counts that are absent in one and zero in the
  other.
* `Carries` — a message has the counts that the notification has.
* `absent_not_zero` — every such pair is told apart by every backend, and a badge is set for a count
  that is present only.
-/

namespace Pincerbell

variable {n n' : Notification} {m m' : Map} {f : UInt64 → Value}

/-- `n'` is `n` with counts that are absent in `n`, or in an absent `Counts`, present as zero. -/
structure ZeroFilled (n n' : Notification) : Prop where
  same : { n' with counts := n.counts } = n
  unread : n'.unread = n.unread ∨ n.unread = none ∧ n'.unread = some 0
  missedCalls : n'.missedCalls = n.missedCalls ∨ n.missedCalls = none ∧ n'.missedCalls = some 0
  /-- There is such a count. -/
  filled : n'.unread ≠ n.unread ∨ n'.missedCalls ≠ n.missedCalls

/-- The fields of a message have the counts of the notification, each written as `f` says. -/
def Carries (n : Notification) (f : UInt64 → Value) (m : Map) : Prop :=
  Map.get m "unread" = n.unread.map f ∧ Map.get m "missed_calls" = n.missedCalls.map f

/-- Filling in a zero shows in the fields of a message that has the counts. -/
theorem ZeroFilled.ne_of_carries (h : ZeroFilled n n') (hm : Carries n f m)
    (hm' : Carries n' f m') : m ≠ m' := by
  rintro rfl
  have hunread : n.unread.isSome = n'.unread.isSome := by
    simpa using congrArg Option.isSome (hm.1.symm.trans hm'.1)
  have hmissed : n.missedCalls.isSome = n'.missedCalls.isSome := by
    simpa using congrArg Option.isSome (hm.2.symm.trans hm'.2)
  rcases h.filled with hne | hne
  · obtain ⟨hnone, hzero⟩ := h.unread.resolve_left hne
    rw [hnone, hzero] at hunread
    cases hunread
  · obtain ⟨hnone, hzero⟩ := h.missedCalls.resolve_left hne
    rw [hnone, hzero] at hmissed
    cases hmissed

/-! ### What the backends write -/

/-- APNs gets the counts as numbers, next to `aps`. -/
theorem ApnsApp.carries_buildPayload (app : ApnsApp) (n : Notification) (device : Device) :
    ∃ m, app.buildPayload n device = .object m ∧ Carries n (fun u => .number (.posInt u)) m :=
  ⟨_, rfl, by simp [Notification.putMetadata], by simp [Notification.putMetadata]⟩

/-- FCM gets the counts as texts, in the data of the message. -/
theorem FcmApp.carries_buildMessage (n : Notification) (device : Device) :
    ∃ data android, buildMessage n device = .object [("message", .object [
        ("token", .string device.pushkey), ("data", .object data), ("android", android)])] ∧
      Carries n (fun u => .string (toString u)) data :=
  ⟨_, _, rfl, by simp [Notification.putMetadata], by simp [Notification.putMetadata]⟩

/-- Web Push gets the counts as numbers. -/
theorem WebPushApp.carries_buildPayload (n : Notification) :
    ∃ m, buildPayload n = .object m ∧ Carries n (fun u => .number (.posInt u)) m :=
  ⟨_, rfl, by simp [Notification.putMetadata], by simp [Notification.putMetadata]⟩

/-- The badge of a payload for APNs. -/
def badge : Value → Option Value
  | .object m =>
    match Map.get m "aps" with
    | some (.object aps) => Map.get aps "badge"
    | _ => none
  | _ => none

/-- An alert push has a badge for an unread count that is present. -/
theorem badge_buildPayload {app : ApnsApp} (halert : app.pushType = .alert) (n : Notification)
    (device : Device) :
    badge (app.buildPayload n device) = n.unread.map fun u => .number (.posInt u) := by
  by_cases hevent : n.eventId.isSome = true <;>
    simp [badge, ApnsApp.buildPayload, halert, hevent, Notification.putMetadata]

/-! ### Absent is not zero -/

/-- Whenever an absent count is written out as zero, every backend sends another message; and a
count-only alert push sets the badge to the unread count, zero if it is absent, exactly when the
count is present. -/
theorem absent_not_zero (n : Notification) (device : Device) :
    (∀ n', ZeroFilled n n' →
      (∀ app : ApnsApp, app.buildPayload n device ≠ app.buildPayload n' device) ∧
      FcmApp.buildMessage n device ≠ FcmApp.buildMessage n' device ∧
      WebPushApp.buildPayload n ≠ WebPushApp.buildPayload n') ∧
    ∀ app : ApnsApp, app.pushType = .alert → n.eventId = none →
      (badge (app.buildPayload n device) = some (.number (.posInt (n.unread.getD 0))) ↔
        n.unread.isSome) := by
  constructor
  · intro n' h
    refine ⟨fun app heq => ?_, fun heq => ?_, fun heq => ?_⟩
    · obtain ⟨m, hm, hcarries⟩ := app.carries_buildPayload n device
      obtain ⟨m', hm', hcarries'⟩ := app.carries_buildPayload n' device
      rw [hm, hm'] at heq
      exact h.ne_of_carries hcarries hcarries' (Value.object.inj heq)
    · obtain ⟨m, android, hm, hcarries⟩ := FcmApp.carries_buildMessage n device
      obtain ⟨m', android', hm', hcarries'⟩ := FcmApp.carries_buildMessage n' device
      rw [hm, hm'] at heq
      apply h.ne_of_carries hcarries hcarries'
      -- the counts are in the data of the message
      simp only [Value.object.injEq, List.cons.injEq, Prod.mk.injEq] at heq
      exact heq.1.2.2.1.2
    · obtain ⟨m, hm, hcarries⟩ := WebPushApp.carries_buildPayload n
      obtain ⟨m', hm', hcarries'⟩ := WebPushApp.carries_buildPayload n'
      rw [hm, hm'] at heq
      exact h.ne_of_carries hcarries hcarries' (Value.object.inj heq)
  · intro app halert _
    rw [badge_buildPayload halert]
    cases n.unread with
    | none => simp
    | some u => simp

/-- The count-only notification with an absent unread count, and with zero written out. -/
theorem not_zero_insensitive :
    ¬ ∀ (n n' : Notification) (device : Device), ZeroFilled n n' →
      (∀ app : ApnsApp, app.buildPayload n device = app.buildPayload n' device) ∧
      FcmApp.buildMessage n device = FcmApp.buildMessage n' device ∧
      WebPushApp.buildPayload n = WebPushApp.buildPayload n' := by
  intro h
  let device : Device := { appId := "app", pushkey := "key" }
  let n : Notification := { devices := [device] }
  let n' : Notification := { devices := [device], counts := some ⟨some 0, none⟩ }
  have hfilled : ZeroFilled n n' := ⟨rfl, Or.inr ⟨rfl, rfl⟩, Or.inl rfl, Or.inl (by decide)⟩
  have heq := (h n n' device hfilled).2.2
  simp [WebPushApp.buildPayload, Notification.putMetadata, Notification.unread,
    Notification.missedCalls, n, n', Map.insertSome, Map.insert, Notification.priority] at heq

end Pincerbell
