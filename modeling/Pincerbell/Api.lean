import Mathlib.Data.List.Basic

/-!
# Wire types of the push gateway API

The JSON values the gateway reads and writes, and the notification types of `api.rs` with the
serialization their attributes derive. The queue/poll relay sends every notification through
`Notification.toValue` on one side and `Notification.fromValue` on the other.

* `Value`, `Map` — `serde_json::Value` and its object type. A map holds each key once; the order
  of its fields carries no meaning.
* `Notification`, `Device`, `PusherData`, `Counts`, `Prio` — the request of
  `POST /_matrix/push/v1/notify`.
* `toValue` — what `serde_json::to_value` yields: absent optional fields stay absent, and
  `content` is never written.
* `fromValue` — what `serde_json::from_value` accepts. Its error texts belong to the JSON library
  and reach only the log, so a failure is `none`.
-/

namespace Pincerbell

/-- `serde_json::Number`. A float is kept as its bit pattern: the gateway never computes with
one. -/
inductive Number
  | posInt (n : UInt64)
  | negInt (n : Int64)
  | float (bits : UInt64)
  deriving DecidableEq, Repr

/-- `serde_json::Value`. -/
inductive Value
  | null
  | bool (b : Bool)
  | number (n : Number)
  | string (s : String)
  | array (items : List Value)
  | object (fields : List (String × Value))
  deriving Repr

/-- `serde_json::Map<String, Value>`, the fields of an object. -/
abbrev Map := List (String × Value)

namespace Map

/-- The value stored under `key`. -/
def get (m : Map) (key : String) : Option Value := m.lookup key

/-- Store `value` under `key`, replacing what was there. -/
def insert (m : Map) (key : String) (value : Value) : Map :=
  match m with
  | [] => [(key, value)]
  | field :: rest =>
    if field.1 = key then (key, value) :: rest else field :: insert rest key value

/-- `skip_serializing_if = "Option::is_none"`: an absent field is not written. -/
def insertSome (m : Map) (key : String) (value : Option Value) : Map :=
  match value with
  | some v => insert m key v
  | none => m

/-- Reading a key just written gives what was written. -/
@[simp]
theorem get_insert_self (m : Map) (key : String) (value : Value) :
    get (insert m key value) key = some value := by
  induction m with
  | nil => simp [insert, get]
  | cons field rest ih =>
    obtain ⟨k, v⟩ := field
    by_cases h : k = key
    · simp [insert, get, h]
    · have hne : (key == k) = false := by simpa using fun heq => h heq.symm
      simpa [insert, get, h, hne, List.lookup_cons] using ih

/-- Writing one key leaves the others alone. -/
@[simp]
theorem get_insert_of_ne (m : Map) {key key' : String} (value : Value) (hne : key' ≠ key) :
    get (insert m key value) key' = get m key' := by
  have hbeq : (key' == key) = false := by simpa using hne
  induction m with
  | nil => simp [insert, get, List.lookup_cons, hbeq]
  | cons field rest ih =>
    obtain ⟨k, v⟩ := field
    by_cases h : k = key
    · subst h
      simp [insert, get, List.lookup_cons, hbeq]
    · simp only [get] at ih
      simp [insert, get, h, List.lookup_cons, ih]

end Map

namespace Value

/-- `Value::as_str`. -/
def asStr : Value → Option String
  | string s => some s
  | _ => none

/-! ### Decoding a field -/

/-- A string, and nothing else. -/
def decodeString : Value → Option String
  | string s => some s
  | _ => none

/-- A boolean, and nothing else. -/
def decodeBool : Value → Option Bool
  | bool b => some b
  | _ => none

/-- A `u64`: an integer that is not negative. -/
def decodeU64 : Value → Option UInt64
  | number (.posInt n) => some n
  | _ => none

/-- An `i64`: an integer in range. -/
def decodeI64 : Value → Option Int64
  | number (.posInt n) => if n < 0x8000000000000000 then some n.toInt64 else none
  | number (.negInt n) => some n
  | _ => none

/-- An object, kept as it is. -/
def decodeMap : Value → Option Map
  | object m => some m
  | _ => none

/-- A list of values, each accepted by `decode`. -/
def decodeArray {α : Type} (decode : Value → Option α) : Value → Option (List α)
  | array items => items.mapM decode
  | _ => none

/-- How a derived `Deserialize` reads the fields of a struct of `arity` fields: by name from an
object, by position from an array that is not too long. -/
def structFields (arity : ℕ) : Value → Option (String → ℕ → Option Value)
  | object m => some fun name _ => Map.get m name
  | array items => if items.length ≤ arity then some fun _ i => items[i]? else none
  | _ => none

/-- An optional field with `#[serde(default)]`: absent and `null` both read as `None`. -/
def optionalField {α : Type} (decode : Value → Option α) : Option Value → Option (Option α)
  | none => some none
  | some null => some none
  | some v => (decode v).map some

/-- An `i64` as a JSON number. -/
def ofI64 (n : Int64) : Value :=
  if 0 ≤ n then number (.posInt n.toUInt64) else number (.negInt n)

end Value

/-! ### Priority -/

/-- Notification priority. -/
inductive Prio
  | high
  | low
  deriving DecidableEq, Repr

namespace Prio

/-- The lowercase name of the variant. -/
def toValue : Prio → Value
  | high => .string "high"
  | low => .string "low"

/-- The variant with this name. -/
def ofName : String → Option Prio
  | "high" => some high
  | "low" => some low
  | _ => none

/-- A unit variant is its name, or an object with that one key and a `null`. -/
def fromValue : Value → Option Prio
  | .string s => ofName s
  | .object [(s, .null)] => ofName s
  | _ => none

end Prio

/-! ### Counts -/

/-- Unacknowledged-communication counts. Zero-valued counts are omitted on the wire. -/
structure Counts where
  unread : Option UInt64
  missedCalls : Option UInt64
  deriving DecidableEq, Repr

namespace Counts

def toValue (c : Counts) : Value :=
  .object <|
    Map.insertSome
      (Map.insertSome [] "unread" (c.unread.map (.number <| .posInt ·)))
      "missed_calls" (c.missedCalls.map (.number <| .posInt ·))

def fromValue (v : Value) : Option Counts := do
  let field ← v.structFields 2
  return {
    unread := ← Value.optionalField Value.decodeU64 (field "unread" 0)
    missedCalls := ← Value.optionalField Value.decodeU64 (field "missed_calls" 1) }

end Counts

/-! ### Pusher data -/

/-- Pusher data as set on the homeserver. `rest` is the flattened remainder: every key but
`format`. -/
structure PusherData where
  format : Option String
  rest : Map
  deriving Repr

namespace PusherData

def toValue (d : PusherData) : Value :=
  .object <| d.rest.foldl (fun m field => Map.insert m field.1 field.2)
    (Map.insertSome [] "format" (d.format.map .string))

/-- A struct with a flattened field is read from an object only. -/
def fromValue : Value → Option PusherData
  | .object m => do
    return {
      format := ← Value.optionalField Value.decodeString (Map.get m "format")
      rest := m.filter (·.1 ≠ "format") }
  | _ => none

end PusherData

/-! ### Devices -/

/-- One target device of a notification. -/
structure Device where
  appId : String
  pushkey : String
  /-- Unix timestamp of the pushkey's last update. -/
  pushkeyTs : Option Int64 := none
  data : Option PusherData := none
  /-- Push-rule tweaks (sound, highlight, ...). -/
  tweaks : Option Map := none
  deriving Repr

namespace Device

def toValue (d : Device) : Value :=
  let m := Map.insert (Map.insert [] "app_id" (.string d.appId)) "pushkey" (.string d.pushkey)
  let m := Map.insertSome m "pushkey_ts" (d.pushkeyTs.map Value.ofI64)
  let m := Map.insertSome m "data" (d.data.map PusherData.toValue)
  .object <| Map.insertSome m "tweaks" (d.tweaks.map .object)

def fromValue (v : Value) : Option Device := do
  let field ← v.structFields 5
  return {
    appId := ← (field "app_id" 0).bind Value.decodeString
    pushkey := ← (field "pushkey" 1).bind Value.decodeString
    pushkeyTs := ← Value.optionalField Value.decodeI64 (field "pushkey_ts" 2)
    data := ← Value.optionalField PusherData.fromValue (field "data" 3)
    tweaks := ← Value.optionalField Value.decodeMap (field "tweaks" 4) }

end Device

/-! ### Notifications -/

/-- The notification object. All fields except `devices` are optional. -/
structure Notification where
  devices : List Device
  /-- Event content, never serialized. -/
  content : Option Value := none
  counts : Option Counts := none
  eventId : Option String := none
  roomId : Option String := none
  eventType : Option String := none
  sender : Option String := none
  senderDisplayName : Option String := none
  roomName : Option String := none
  roomAlias : Option String := none
  userIsTarget : Option Bool := none
  prio : Option Prio := none
  deriving Repr

namespace Notification

/-- Effective priority; an absent `prio` means high. -/
def priority (n : Notification) : Prio := n.prio.getD .high

def toValue (n : Notification) : Value :=
  let m := Map.insert [] "devices" (.array (n.devices.map Device.toValue))
  let m := Map.insertSome m "counts" (n.counts.map Counts.toValue)
  let m := Map.insertSome m "event_id" (n.eventId.map .string)
  let m := Map.insertSome m "room_id" (n.roomId.map .string)
  let m := Map.insertSome m "type" (n.eventType.map .string)
  let m := Map.insertSome m "sender" (n.sender.map .string)
  let m := Map.insertSome m "sender_display_name" (n.senderDisplayName.map .string)
  let m := Map.insertSome m "room_name" (n.roomName.map .string)
  let m := Map.insertSome m "room_alias" (n.roomAlias.map .string)
  let m := Map.insertSome m "user_is_target" (n.userIsTarget.map .bool)
  .object <| Map.insertSome m "prio" (n.prio.map Prio.toValue)

def fromValue (v : Value) : Option Notification := do
  let field ← v.structFields 12
  return {
    devices := ← (field "devices" 0).bind (Value.decodeArray Device.fromValue)
    content := ← Value.optionalField some (field "content" 1)
    counts := ← Value.optionalField Counts.fromValue (field "counts" 2)
    eventId := ← Value.optionalField Value.decodeString (field "event_id" 3)
    roomId := ← Value.optionalField Value.decodeString (field "room_id" 4)
    eventType := ← Value.optionalField Value.decodeString (field "type" 5)
    sender := ← Value.optionalField Value.decodeString (field "sender" 6)
    senderDisplayName := ←
      Value.optionalField Value.decodeString (field "sender_display_name" 7)
    roomName := ← Value.optionalField Value.decodeString (field "room_name" 8)
    roomAlias := ← Value.optionalField Value.decodeString (field "room_alias" 9)
    userIsTarget := ← Value.optionalField Value.decodeBool (field "user_is_target" 10)
    prio := ← Value.optionalField Prio.fromValue (field "prio" 11) }

end Notification

/-! ### Requests -/

/-- Request body of `POST /_matrix/push/v1/notify`. -/
structure NotifyRequest where
  notification : Notification
  deriving Repr

namespace NotifyRequest

def fromValue (v : Value) : Option NotifyRequest := do
  let field ← v.structFields 1
  return { notification := ← (field "notification" 0).bind Notification.fromValue }

end NotifyRequest

end Pincerbell
