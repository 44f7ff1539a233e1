import Mathlib.Algebra.Group.Nat.Defs
import Pincerbell.Api.RoundTrip
import Pincerbell.Api.Text
import Pincerbell.Gateway.Nesting

/-!
# The messages of the relay on the wire

The bodies that the two endpoints of the queue side exchange with a poll side, with the
serialization that their attributes in `queue.rs` derive. The ids are of type `u64` there, so that a
body is read back as it was written as long as the counter of the queue has not left this range.

* `PollBody`, `pollResponse`, `AckRequest` — the bodies and how they are written.
* `fromValue` — what is accepted.
* `PollResponse.fromValue_pollResponse`, `AckRequest.fromValue_toValue` — the round trips.
-/

namespace Pincerbell

namespace Value

/-- A field with `#[serde(default)]`, which may be absent. -/
def defaultField {α : Type} (default : α) (decode : Value → Option α) : Option Value → Option α
  | none => some default
  | some v => decode v

/-- An entry id. -/
def ofId (id : ℕ) : Value := .number (.posInt (.ofNat id))

def decodeId (v : Value) : Option ℕ := v.decodeU64.map UInt64.toNat

theorem decodeId_ofId {id : ℕ} (h : id < 2 ^ 64) : decodeId (ofId id) = some id := by
  rw [decodeId, ofId, decodeU64, Option.map_some, UInt64.toNat_ofNat_of_lt' h]

end Value

/-! ### Poll requests -/

/-- Body of `POST /_pincerbell/v1/poll`. -/
structure PollBody where
  /-- How long the request is held when the queue is empty. -/
  timeoutSecs : Option UInt64 := none
  max : Option UInt64 := none
  deriving DecidableEq, Repr

namespace PollBody

/-- An absent field is written as `null`. -/
def toValue (b : PollBody) : Value :=
  let field (x : Option UInt64) : Value := (x.map fun n => .number (.posInt n)).getD .null
  .object [("timeout_secs", field b.timeoutSecs), ("max", field b.max)]

def fromValue (v : Value) : Option PollBody := do
  let field ← v.structFields 2
  return {
    timeoutSecs := ← Value.optionalField Value.decodeU64 (field "timeout_secs" 0)
    max := ← Value.optionalField Value.decodeU64 (field "max" 1) }

/-- The request, apart from its timeout. -/
def request (b : PollBody) : PollRequest := ⟨b.max.map UInt64.toNat⟩

theorem fromValue_toValue (b : PollBody) : fromValue b.toValue = some b := by
  obtain ⟨timeoutSecs, max⟩ := b
  cases timeoutSecs <;> cases max <;> rfl

theorem nesting_toValue (b : PollBody) : b.toValue.nesting = 1 := by
  obtain ⟨timeoutSecs, max⟩ := b
  cases timeoutSecs <;> cases max <;> rfl

/-- A poll request is short. -/
theorem length_text_le (formatFloat : UInt64 → Bytes) (b : PollBody) :
    (b.toValue.text formatFloat).length ≤ 404 := by
  have hvalue : ∀ x : Option UInt64,
      (Value.text formatFloat ((x.map fun n => .number (.posInt n)).getD .null)).length ≤ 80 := by
    rintro (_ | n)
    · exact (by decide +kernel : (bytes "null").length ≤ 80)
    · exact Number.length_text_posInt_le formatFloat n
  have htimeout := hvalue b.timeoutSecs
  have hmax := hvalue b.max
  have hkeys : (quote "timeout_secs").length ≤ 80 ∧ (quote "max").length ≤ 80 ∧
      (bytes ":").length = 1 := by decide +kernel
  refine (Value.length_text_object_le formatFloat _).trans ?_
  simp only [Value.textFields, Value.textField, List.map_cons, List.map_nil, List.sum_cons,
    List.sum_nil, List.length_append]
  omega

end PollBody

/-! ### Poll responses -/

namespace PollEntry

def fromValue (v : Value) : Option PollEntry := do
  let field ← v.structFields 2
  return {
    id := ← (field "id" 0).bind Value.decodeId
    notification := ← field "notification" 1 }

theorem fromValue_toValue {p : PollEntry} (h : p.id < 2 ^ 64) : fromValue p.toValue = some p := by
  have hid : Value.decodeId (.number (.posInt (.ofNat p.id))) = some p.id := Value.decodeId_ofId h
  show (Value.decodeId (.number (.posInt (.ofNat p.id)))).bind
    (fun id => some (PollEntry.mk id p.notification)) = _
  rw [hid, Option.bind_some]

end PollEntry

namespace PollResponse

/-- The entries of a poll response. -/
def fromValue (v : Value) : Option (List PollEntry) := do
  let field ← v.structFields 1
  (field "entries" 0).bind (Value.decodeArray PollEntry.fromValue)

/-- A poll side reads the entries that the queue side handed out. -/
theorem fromValue_pollResponse {entries : List PollEntry} (h : ∀ p ∈ entries, p.id < 2 ^ 64) :
    fromValue (pollResponse entries) = some entries := by
  show (entries.map PollEntry.toValue).mapM PollEntry.fromValue = some entries
  exact Value.mapM_map_eq_some fun p hp => PollEntry.fromValue_toValue (h p hp)

end PollResponse

/-! ### Ack requests -/

namespace RejectedPushkey

def toValue (r : RejectedPushkey) : Value :=
  .object [("app_id", .string r.appId), ("pushkey", .string r.pushkey)]

def fromValue (v : Value) : Option RejectedPushkey := do
  let field ← v.structFields 2
  return {
    appId := ← (field "app_id" 0).bind Value.decodeString
    pushkey := ← (field "pushkey" 1).bind Value.decodeString }

theorem fromValue_toValue (r : RejectedPushkey) : fromValue r.toValue = some r := rfl

end RejectedPushkey

namespace AckRequest

def toValue (req : AckRequest) : Value :=
  .object [
    ("acked", .array (req.acked.map Value.ofId)),
    ("rejected_pushkeys", .array (req.rejectedPushkeys.map RejectedPushkey.toValue))]

def fromValue (v : Value) : Option AckRequest := do
  let field ← v.structFields 2
  return {
    acked := ← Value.defaultField [] (Value.decodeArray Value.decodeId) (field "acked" 0)
    rejectedPushkeys := ←
      Value.defaultField [] (Value.decodeArray RejectedPushkey.fromValue)
        (field "rejected_pushkeys" 1) }

/-- The queue side reads the ack that a poll side sent. -/
theorem fromValue_toValue {req : AckRequest} (h : ∀ id ∈ req.acked, id < 2 ^ 64) :
    fromValue req.toValue = some req := by
  have hacked : (req.acked.map Value.ofId).mapM Value.decodeId = some req.acked :=
    Value.mapM_map_eq_some fun id hid => Value.decodeId_ofId (h id hid)
  have hrejected : (req.rejectedPushkeys.map RejectedPushkey.toValue).mapM
      RejectedPushkey.fromValue = some req.rejectedPushkeys :=
    Value.mapM_map_eq_some fun r _ => r.fromValue_toValue
  show ((req.acked.map Value.ofId).mapM Value.decodeId).bind (fun acked =>
    ((req.rejectedPushkeys.map RejectedPushkey.toValue).mapM RejectedPushkey.fromValue).bind
      fun rejected => some (AckRequest.mk acked rejected)) = _
  rw [hacked, Option.bind_some, hrejected, Option.bind_some]

/-- An ack is an object of two arrays, one of which holds objects. -/
theorem nesting_toValue_le (req : AckRequest) : req.toValue.nesting ≤ 3 := by
  rw [toValue, Value.nesting_object_le_iff]
  rintro field hfield
  rcases List.mem_pair.mp hfield with rfl | rfl
  · refine Value.nesting_array_le_iff.mpr fun v hv => ?_
    obtain ⟨id, -, rfl⟩ := List.mem_map.mp hv
    exact Nat.zero_le 1
  · refine Value.nesting_array_le_iff.mpr fun v hv => ?_
    obtain ⟨r, -, rfl⟩ := List.mem_map.mp hv
    exact Nat.le_refl 1

end AckRequest

end Pincerbell
