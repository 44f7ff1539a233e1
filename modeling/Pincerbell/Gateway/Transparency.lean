import Pincerbell.Api.RoundTrip
import Pincerbell.Gateway.Device
import Pincerbell.Message

/-!
# The relay is transparent

A queue side stores a notification for one device as a JSON value, and a poll side decodes it. What
comes out is the notification that went in, without its content and with that device alone, so that
the poll side sends what the queue side would have sent.

* `payload_eq` — the stored value is the serialization of the notification for the one device.
* `fromValue_payload` — what it decodes to.
* `relay_transparent` — everything that delivery computes from it.
-/

namespace Pincerbell

variable {n : Notification} {device : Device}

/-- The stored payload is the notification with the one device. -/
theorem payload_eq (n : Notification) (device : Device) :
    payload n device = { n with devices := [device] }.toValue := by
  simp [payload, Notification.toValue, Map.insert, Map.insertSome_cons_of_ne]

/-- What a poll side decodes from the stored payload. -/
theorem fromValue_payload (h : device.Flattened) :
    Notification.fromValue (payload n device) =
      some { n with content := none, devices := [device] } := by
  rw [payload_eq, Notification.fromValue_toValue]
  intro d hd
  rw [List.mem_singleton.mp hd]
  exact h

/-- A decoded notify request goes through the relay unchanged, apart from its content and its other
devices, and every message built for the device is the one that direct delivery would build. -/
theorem relay_transparent (crates : Crates) (apns : ApnsApp) (fcm : FcmApp) (webpush : WebPushApp)
    (body : Value) (hbody : body.Distinct) (n : Notification)
    (hn : NotifyRequest.fromValue body = some ⟨n⟩) (device : Device)
    (hdevice : device ∈ n.devices) :
    ∃ n' device', Notification.fromValue (payload n device) = some n' ∧
      n' = { n with content := none, devices := [device'] } ∧ device' = device ∧
      FcmApp.buildMessage n' device' = FcmApp.buildMessage n device ∧
      apns.buildPayload n' device' = apns.buildPayload n device ∧
      WebPushApp.buildPayload n' = WebPushApp.buildPayload n ∧
      fcm.message n' device' = fcm.message n device ∧
      apns.message n' device' = apns.message n device ∧
      webpush.message crates n' device' = webpush.message crates n device ∧
      subscription crates device' = subscription crates device ∧
      n'.priority = n.priority ∧
      dedupKey n' device' = dedupKey n device := by
  obtain ⟨field, v, hfield, hv, hdec⟩ := NotifyRequest.exists_of_fromValue hn
  have hflat := Notification.flattened_of_fromValue (hbody.field hfield hv) hdec hdevice
  exact ⟨_, device, fromValue_payload hflat, rfl, rfl, rfl, rfl, rfl, rfl, rfl, rfl, rfl, rfl, rfl⟩

/-- A notification with content for a Web Push subscription, whose data holds a format next to the
flattened fields. -/
theorem relay_transparent_webpush :
    let data : Map := [("format", .string "event_id_only"),
      ("endpoint", .string "https://push.test"), ("auth", .string "c2VjcmV0")]
    let body : Value := .object [("notification", .object [
      ("event_id", .string "$event1:example.test"),
      ("content", .object [("body", .string "hello")]),
      ("devices", .array [.object [("app_id", .string "app"), ("pushkey", .string "key"),
        ("data", .object data)]])])]
    ∃ n device, NotifyRequest.fromValue body = some ⟨n⟩ ∧ n.devices = [device] ∧
      n.content.isSome ∧
      Notification.fromValue (payload n device) = some { n with content := none } := by
  intro data body
  let crates : Crates :=
    ⟨fun s => .ok (bytes s), fun b => .ok ⟨b⟩, fun _ => .ok ⟨"https", some "push.test"⟩⟩
  let device : Device :=
    { appId := "app", pushkey := "key"
      data := some ⟨some "event_id_only", data.filter (·.1 ≠ "format")⟩ }
  let n : Notification :=
    { devices := [device], eventId := some "$event1:example.test"
      content := some (.object [("body", .string "hello")]) }
  have hbody : body.Distinct := by simp [body, data]
  obtain ⟨n', device', hdec, hn', rfl, -⟩ :=
    relay_transparent crates ⟨"", "", "", none, .alert⟩ ⟨"", ""⟩ ⟨["push.test"]⟩ body hbody n rfl
      device List.mem_cons_self
  exact ⟨n, device, rfl, rfl, rfl, hdec.trans (congrArg some hn')⟩

end Pincerbell
