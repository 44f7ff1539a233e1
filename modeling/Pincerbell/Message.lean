import Pincerbell.WebPush

/-!
# What a backend sends

The messages that `fcm.rs`, `apns.rs` and `webpush.rs` build for one device. They carry the metadata
of the notification, never its content.

* `FcmApp.buildMessage`, `ApnsApp.buildPayload`, `WebPushApp.buildPayload` — the JSON bodies.
* `Delivery` — what a backend is called with.
* `Message` — what leaves the gateway for a push service, apart from the credential.
* `FcmApp.message`, `ApnsApp.message`, `WebPushApp.message` — the message of one delivery.
-/

namespace Pincerbell

namespace Notification

/-- The metadata that every backend forwards as it is. -/
def putMetadata (n : Notification) (m : Map) : Map :=
  let m := Map.insertSome m "event_id" (n.eventId.map .string)
  let m := Map.insertSome m "room_id" (n.roomId.map .string)
  let m := Map.insertSome m "type" (n.eventType.map .string)
  let m := Map.insertSome m "sender" (n.sender.map .string)
  let m := Map.insertSome m "sender_display_name" (n.senderDisplayName.map .string)
  Map.insertSome m "room_name" (n.roomName.map .string)

/-- The unread count, if there is one. -/
def unread (n : Notification) : Option UInt64 := n.counts.bind (·.unread)

/-- The number of missed calls, if there is one. -/
def missedCalls (n : Notification) : Option UInt64 := n.counts.bind (·.missedCalls)

end Notification

/-- What a backend is called with. -/
structure Delivery where
  n : Notification
  device : Device

/-- What a backend sends to its push service for one device, apart from the credential. -/
inductive Message
  | fcm (url : String) (body : Value)
  | apns (url topic pushType priority : String) (body : Value)
  /-- A Web Push body is sealed for the subscription before it is sent. -/
  | webpush (sub : Subscription) (urgency : String) (plaintext : Value)

/-! ### FCM -/

/-- The configured backend. -/
structure FcmApp where
  apiRoot : String
  projectId : String

namespace FcmApp

/-- The metadata as string-valued data, with the Matrix priority mapped onto Android's. -/
def buildMessage (n : Notification) (device : Device) : Value :=
  let data := n.putMetadata []
  let data := Map.insertSome data "unread" (n.unread.map fun u => .string (toString u))
  let data := Map.insertSome data "missed_calls" (n.missedCalls.map fun m => .string (toString m))
  .object [("message", .object [
    ("token", .string device.pushkey),
    ("data", .object data),
    ("android", .object [
      ("priority", .string <|
        match n.priority with
        | .high => "HIGH"
        | .low => "NORMAL")])])]

def message (app : FcmApp) (n : Notification) (device : Device) : Message :=
  .fcm (app.apiRoot ++ "/v1/projects/" ++ app.projectId ++ "/messages:send")
    (buildMessage n device)

end FcmApp

/-! ### APNs -/

inductive ApnsPushType
  | alert
  | voip
  deriving DecidableEq, Repr

/-- The configured backend. -/
structure ApnsApp where
  apiRoot : String
  topic : String
  defaultAlertTitle : String
  sound : Option String
  pushType : ApnsPushType

namespace ApnsApp

/-- The push-rule sound tweak of a device. -/
def tweakSound (device : Device) : Option String :=
  (device.tweaks.bind (Map.get · "sound")).bind Value.asStr

/-- An event notification gets a rewritable alert, a count-only one just updates the badge, and a
VoIP push carries neither. The metadata rides next to `aps` either way. -/
def buildPayload (app : ApnsApp) (n : Notification) (device : Device) : Value :=
  let aps : Map :=
    match app.pushType with
    | .voip => []
    | .alert =>
      let aps := Map.insertSome [] "badge" (n.unread.map fun u => .number (.posInt u))
      if n.eventId.isSome then
        let aps := Map.insert aps "mutable-content" (.number (.posInt 1))
        let aps := Map.insert aps "alert" (.object [("title", .string app.defaultAlertTitle)])
        -- the tweak wins over the configured default
        Map.insertSome aps "sound" (((tweakSound device).or app.sound).map .string)
      else aps
  let payload := n.putMetadata (Map.insert [] "aps" (.object aps))
  let payload := Map.insertSome payload "unread" (n.unread.map fun u => .number (.posInt u))
  .object <|
    Map.insertSome payload "missed_calls" (n.missedCalls.map fun m => .number (.posInt m))

/-- The push type and the priority of a delivery. VoIP pushes are always immediate. -/
def headers (app : ApnsApp) (n : Notification) : String × String :=
  match app.pushType with
  | .voip => ("voip", "10")
  | .alert =>
    ("alert",
      match n.priority with
      | .high => "10"
      | .low => "5")

def message (app : ApnsApp) (n : Notification) (device : Device) : Message :=
  .apns (app.apiRoot ++ "/3/device/" ++ device.pushkey) app.topic (app.headers n).1
    (app.headers n).2 (app.buildPayload n device)

end ApnsApp

/-! ### Web Push -/

namespace WebPushApp

/-- The metadata of the notification; the service worker fetches the event itself. -/
def buildPayload (n : Notification) : Value :=
  let payload := n.putMetadata []
  let payload := Map.insert payload "prio" <| .string <|
    match n.priority with
    | .high => "high"
    | .low => "low"
  let payload := Map.insertSome payload "unread" (n.unread.map fun u => .number (.posInt u))
  .object <|
    Map.insertSome payload "missed_calls" (n.missedCalls.map fun m => .number (.posInt m))

/-- Nothing is sent for an unusable subscription, or for an endpoint that is not allowed. -/
def message (crates : Crates) (app : WebPushApp) (n : Notification) (device : Device) :
    Option Message :=
  match subscription crates device with
  | .error _ => none
  | .ok sub =>
    match endpointAllowed sub.endpoint app.allowedEndpoints with
    | .error _ => none
    | .ok _ =>
      let urgency :=
        match n.priority with
        | .high => "high"
        | .low => "normal"
      some (.webpush sub urgency (buildPayload n))

end WebPushApp

end Pincerbell
