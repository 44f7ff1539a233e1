import Pincerbell.Gateway.Transparency
import Pincerbell.Queue.Invariant

/-!
# How deep the relay nests

The text parser of the JSON library accepts a document up to a limit on the nesting of its arrays
and objects, the same limit at both ends of the relay. A poll response wraps each notification in
more levels than the notify request did, so that a request at the limit can be accepted and its
entry still make a response that the poll side cannot parse, together with every other entry of the
batch.

* `Value.nesting` — how many arrays and objects a value nests.
* `nesting_payload` — a stored payload nests three levels more than the data of its device.
* `AcceptedBody`, `QueueCall` — what the queue side accepts, and the calls it makes.
* `parses_iff` — the batches that the poll side can parse.
-/

namespace Pincerbell

/-! ### Nesting -/

namespace Value

mutual

/-- How many levels of arrays and objects the value has. -/
def nesting : Value → ℕ
  | array items => nestingItems items + 1
  | object fields => nestingFields fields + 1
  | _ => 0

/-- The deepest of some values. -/
def nestingItems : List Value → ℕ
  | [] => 0
  | v :: vs => max v.nesting (nestingItems vs)

/-- The deepest of the values of some fields. -/
def nestingFields : List (String × Value) → ℕ
  | [] => 0
  | field :: fields => max (nestingField field) (nestingFields fields)

def nestingField : String × Value → ℕ
  | (_, v) => v.nesting

end

variable {k : ℕ}

theorem nesting_array_le_iff {items : List Value} :
    (array items).nesting ≤ k + 1 ↔ ∀ v ∈ items, v.nesting ≤ k := by
  rw [nesting, Nat.add_le_add_iff_right]
  induction items with
  | nil => simp [nestingItems]
  | cons v vs ih => simp [nestingItems, ih]

theorem nesting_object_le_iff {fields : Map} :
    (object fields).nesting ≤ k + 1 ↔ ∀ field ∈ fields, field.2.nesting ≤ k := by
  rw [nesting, Nat.add_le_add_iff_right]
  induction fields with
  | nil => simp [nestingFields]
  | cons field fields ih =>
    obtain ⟨name, v⟩ := field
    simp [nestingFields, nestingField, ih]

/-- What an array holds nests one level less. -/
theorem nesting_lt_of_mem_items {items : List Value} {v : Value} (hv : v ∈ items) :
    v.nesting < (array items).nesting := by
  have hpos : (array items).nesting = nestingItems items + 1 := rfl
  exact Nat.lt_of_le_of_lt (nesting_array_le_iff.mp (Nat.le_of_eq hpos) v hv)
    (hpos ▸ Nat.lt_succ_self _)

/-- What an object holds nests one level less. -/
theorem nesting_lt_of_get {fields : Map} {name : String} {v : Value}
    (hv : Map.get fields name = some v) : v.nesting < (object fields).nesting := by
  have hpos : (object fields).nesting = nestingFields fields + 1 := rfl
  exact Nat.lt_of_le_of_lt
    (nesting_object_le_iff.mp (Nat.le_of_eq hpos) _ (Map.mem_of_get hv))
    (hpos ▸ Nat.lt_succ_self _)

/-- A bound for what may be written of an optional field. -/
theorem nesting_le_of_map {α : Type} {encode : α → Value} {a : Option α}
    (h : ∀ a, (encode a).nesting ≤ k) (v : Value) (hv : a.map encode = some v) :
    v.nesting ≤ k := by
  obtain ⟨a, -, rfl⟩ := Option.map_eq_some_iff.mp hv
  exact h a

end Value

namespace Map

variable {P : String × Value → Prop} {m : Map} {key : String}

/-- What holds of the fields and of a new one holds after it is written. -/
theorem forall_mem_insert {v : Value} (hm : ∀ field ∈ m, P field) (hv : P (key, v)) :
    ∀ field ∈ insert m key v, P field := by
  induction m with
  | nil => simpa [insert] using hv
  | cons field rest ih =>
    rw [List.forall_mem_cons] at hm
    rw [insert]
    split
    next => exact List.forall_mem_cons.mpr ⟨hv, hm.2⟩
    next => exact List.forall_mem_cons.mpr ⟨hm.1, ih hm.2⟩

theorem forall_mem_insertSome {value : Option Value} (hm : ∀ field ∈ m, P field)
    (hv : ∀ v, value = some v → P (key, v)) : ∀ field ∈ insertSome m key value, P field := by
  cases value with
  | none => exact hm
  | some v => exact forall_mem_insert hm (hv v rfl)

end Map

/-! ### What is stored -/

/-- How deep the pusher data and the tweaks of a device nest. -/
def Device.nesting (d : Device) : ℕ :=
  max (d.data.elim 0 fun data => data.toValue.nesting)
    (d.tweaks.elim 0 fun tweaks => (Value.object tweaks).nesting)

namespace Device

variable {d : Device} {k : ℕ}

theorem nesting_le_iff :
    d.nesting ≤ k ↔ (∀ data, d.data = some data → data.toValue.nesting ≤ k) ∧
      ∀ tweaks, d.tweaks = some tweaks → (Value.object tweaks).nesting ≤ k := by
  rw [nesting, Nat.max_le]
  cases d.data <;> cases d.tweaks <;> simp

/-- A serialized device is one object around its data and tweaks. -/
theorem nesting_toValue_le_iff : d.toValue.nesting ≤ k + 1 ↔ d.nesting ≤ k := by
  rw [nesting_le_iff]
  constructor
  · intro h
    -- only the data and the tweaks can nest
    obtain ⟨m, hm, hdata, htweaks⟩ : ∃ m, d.toValue = .object m ∧
        Map.get m "data" = d.data.map PusherData.toValue ∧
        Map.get m "tweaks" = d.tweaks.map .object := ⟨_, rfl, by simp, by simp⟩
    rw [hm] at h
    refine ⟨fun data hd => ?_, fun tweaks ht => ?_⟩
    · have hlt := Value.nesting_lt_of_get (hdata.trans (congrArg _ hd))
      exact Nat.le_of_lt_succ (Nat.lt_of_lt_of_le hlt h)
    · have hlt := Value.nesting_lt_of_get (htweaks.trans (congrArg _ ht))
      exact Nat.le_of_lt_succ (Nat.lt_of_lt_of_le hlt h)
  · rintro ⟨hdata, htweaks⟩
    rw [toValue, Value.nesting_object_le_iff]
    refine Map.forall_mem_insertSome (Map.forall_mem_insertSome (Map.forall_mem_insertSome
      (Map.forall_mem_insert (Map.forall_mem_insert (by simp) ?_) ?_) ?_) ?_) ?_
    · exact Nat.zero_le k
    · exact Nat.zero_le k
    · intro v hv
      obtain ⟨n, -, rfl⟩ := Option.map_eq_some_iff.mp hv
      rw [Value.ofI64]
      split <;> exact Nat.zero_le k
    · intro v hv
      obtain ⟨data, hd, rfl⟩ := Option.map_eq_some_iff.mp hv
      exact hdata data hd
    · intro v hv
      obtain ⟨tweaks, ht, rfl⟩ := Option.map_eq_some_iff.mp hv
      exact htweaks tweaks ht

theorem nesting_toValue (d : Device) : d.toValue.nesting = d.nesting + 1 := by
  obtain ⟨k, hk⟩ : ∃ k, d.toValue.nesting = k + 1 := ⟨_, rfl⟩
  have hge := nesting_toValue_le_iff.mp (Nat.le_of_eq hk)
  have hle := nesting_toValue_le_iff.mpr (Nat.le_refl d.nesting)
  omega

end Device

theorem Counts.nesting_toValue_le (c : Counts) : c.toValue.nesting ≤ 1 := by
  rw [toValue, Value.nesting_object_le_iff]
  exact Map.forall_mem_insertSome
    (Map.forall_mem_insertSome (by simp) (Value.nesting_le_of_map fun _ => Nat.zero_le 0))
    (Value.nesting_le_of_map fun _ => Nat.zero_le 0)

/-- A stored payload is one object around one array of devices, and nothing else in it nests
deeper. -/
theorem nesting_payload (n : Notification) (device : Device) :
    (payload n device).nesting = device.nesting + 3 := by
  rw [payload_eq]
  refine Nat.le_antisymm ?_ ?_
  · rw [Notification.toValue, Value.nesting_object_le_iff]
    iterate 10 refine Map.forall_mem_insertSome ?_ (Value.nesting_le_of_map fun a => ?_)
    -- strings and the flag do not nest at all
    all_goals try exact Nat.zero_le _
    · refine Map.forall_mem_insert (by simp) (Value.nesting_array_le_iff.mpr fun v hv => ?_)
      rw [List.mem_singleton.mp hv, device.nesting_toValue]
    · exact Nat.le_trans a.nesting_toValue_le (Nat.le_add_left 1 _)
    · cases a <;> exact Nat.zero_le _
  · obtain ⟨m, hm, hdevices⟩ : ∃ m, ({ n with devices := [device] } : Notification).toValue =
        .object m ∧ Map.get m "devices" = some (.array [device.toValue]) := ⟨_, rfl, by simp⟩
    have hobject := Value.nesting_lt_of_get hdevices
    have harray := Value.nesting_lt_of_mem_items (List.mem_singleton_self device.toValue)
    rw [device.nesting_toValue] at harray
    rw [hm]
    omega

/-! ### What the queue side accepts -/

/-- A notify body that the queue side accepts: the text parser allows for its nesting, and it
decodes to a notification. -/
structure AcceptedBody (limit : ℕ) where
  body : Value
  distinct : body.Distinct
  nesting_le : body.nesting ≤ limit
  notification : Notification
  decoded : NotifyRequest.fromValue body = some ⟨notification⟩

/-- A call on the queue by a queue side whose text parser has this limit. -/
inductive QueueCall (limit : ℕ)
  | enqueue (now : Instant) (r : AcceptedBody limit) (device : Device)
      (hdevice : device ∈ r.notification.devices)
  | takeAt (now : Instant) (max : ℕ)
  | ack (ids : List ℕ)

variable {limit : ℕ}

/-- The call as the queue sees it. -/
def QueueCall.op : QueueCall limit → Op
  | enqueue now r device _ =>
    .enqueueAt now (payload r.notification device) (countKey r.notification device)
  | takeAt now max => .takeAt now max
  | ack ids => .ack ids

/-! ### The response -/

/-- An entry of a poll response. -/
def PollEntry.toValue (p : PollEntry) : Value :=
  .object [("id", .number (.posInt (.ofNat p.id))), ("notification", p.notification)]

/-- The body of a poll response. -/
def pollResponse (entries : List PollEntry) : Value :=
  .object [("entries", .array (entries.map PollEntry.toValue))]

/-- A response nests three levels around each notification. -/
theorem nesting_pollResponse_le {entries : List PollEntry} (hne : entries ≠ []) :
    (pollResponse entries).nesting ≤ limit ↔
      ∀ p ∈ entries, p.notification.nesting + 3 ≤ limit := by
  -- an entry is an object, in the array of another one
  have hentry : ∀ p : PollEntry, p.toValue.nesting = p.notification.nesting + 1 := by
    intro p
    simp [PollEntry.toValue, Value.nesting, Value.nestingFields, Value.nestingField]
  constructor
  · intro hle p hp
    have harray := Value.nesting_lt_of_mem_items (List.mem_map_of_mem (f := PollEntry.toValue) hp)
    have hobject : (Value.array (entries.map PollEntry.toValue)).nesting <
        (pollResponse entries).nesting :=
      Value.nesting_lt_of_get (show Map.get [("entries", _)] "entries" = _ from rfl)
    rw [hentry] at harray
    omega
  · intro h
    obtain ⟨p, hp⟩ := List.exists_mem_of_ne_nil entries hne
    obtain ⟨k, rfl⟩ := Nat.exists_eq_add_of_le' (Nat.le_trans (Nat.le_add_left 3 _) (h p hp))
    rw [pollResponse, Value.nesting_object_le_iff]
    rintro field hmem
    rw [List.mem_singleton.mp hmem, Value.nesting_array_le_iff]
    rintro v hv
    obtain ⟨p, hp, rfl⟩ := List.mem_map.mp hv
    have := h p hp
    rw [hentry]
    omega

/-- The text parser of the poll side accepts the response with these entries. -/
def Parses (limit : ℕ) (entries : List PollEntry) : Prop := (pollResponse entries).nesting ≤ limit

/-- What a poll returns was stored for a device of an accepted request. -/
theorem exists_of_mem_batch {q : NotificationQueue} {calls : List (QueueCall limit)} {now : Instant}
    {max : ℕ} {p : PollEntry} (hp : p ∈ q.batch (calls.map QueueCall.op) now max) :
    ∃ r : AcceptedBody limit, ∃ device ∈ r.notification.devices,
      p.notification = payload r.notification device := by
  have hout : p ∈ q.output (q.run (calls.map QueueCall.op)) (.takeAt now max) := hp
  obtain ⟨e, he, rfl, -⟩ := q.of_mem_output hout
  -- the entry was enqueued by a call, with the payload of its device
  obtain ⟨call, -, hop⟩ := List.mem_map.mp (exists_op_of_mem_enqueued he)
  cases call with
  | enqueue now r device hdevice =>
    simp only [QueueCall.op, Op.enqueueAt.injEq] at hop
    exact ⟨r, device, hdevice, hop.2.1.symm⟩
  | takeAt now max => cases hop
  | ack ids => cases hop

/-- After any run of a queue side, the poll side can parse a batch exactly when no entry of it is
for a device whose data or tweaks nest more than `limit - 6` levels. -/
theorem parses_iff (q : NotificationQueue) (calls : List (QueueCall limit)) (now : Instant)
    (max : ℕ) (hne : q.batch (calls.map QueueCall.op) now max ≠ []) :
    Parses limit (q.batch (calls.map QueueCall.op) now max) ↔
      ∀ (r : AcceptedBody limit) (device : Device), device ∈ r.notification.devices →
        (∃ p ∈ q.batch (calls.map QueueCall.op) now max,
          p.notification = payload r.notification device) →
        device.nesting + 6 ≤ limit := by
  rw [Parses, nesting_pollResponse_le hne]
  constructor
  · rintro h r device - ⟨p, hp, hpayload⟩
    have hle := h p hp
    rw [hpayload, nesting_payload] at hle
    omega
  · intro h p hp
    obtain ⟨r, device, hdevice, hpayload⟩ := exists_of_mem_batch hp
    have hle := h r device hdevice ⟨p, hp, hpayload⟩
    rw [hpayload, nesting_payload]
    omega

/-! #### A request that poisons its batch -/

/-- Arrays around a `null`. -/
def nested : ℕ → Value
  | 0 => .null
  | k + 1 => .array [nested k]

theorem nesting_nested (k : ℕ) : (nested k).nesting = k := by
  induction k with
  | zero => rfl
  | succ k ih => simp [nested, Value.nesting, Value.nestingItems, ih]

theorem distinct_nested (k : ℕ) : (nested k).Distinct := by
  induction k with
  | zero => exact .null
  | succ k ih => simpa [nested] using ih

/-- A device whose pusher data nests `k + 1` levels. -/
def deepDevice (k : ℕ) : Device :=
  { appId := "app", pushkey := "key", data := some ⟨none, [("x", nested k)]⟩ }

/-- A request for that device, at the limit. -/
def deepRequest (k : ℕ) : AcceptedBody (k + 5) where
  body := .object [("notification", .object [("event_id", .string "$event1:example.test"),
    ("devices", .array [.object [("app_id", .string "app"), ("pushkey", .string "key"),
      ("data", .object [("x", nested k)])]])])]
  distinct := by simp [distinct_nested]
  nesting_le := by
    simp [Value.nesting, Value.nestingItems, Value.nestingFields, Value.nestingField,
      nesting_nested]
  notification := { devices := [deepDevice k], eventId := some "$event1:example.test" }
  decoded := rfl

theorem nesting_deepDevice (k : ℕ) : (deepDevice k).nesting = k + 1 := by
  simp [Device.nesting, deepDevice, PusherData.toValue, Map.insertSome, Map.insert, Value.nesting,
    Value.nestingFields, Value.nestingField, nesting_nested]

theorem mem_deepRequest (k : ℕ) : deepDevice k ∈ (deepRequest k).notification.devices :=
  List.mem_cons_self

/-- A queue side that accepts the request. -/
def deepCalls (k : ℕ) : List (QueueCall (k + 5)) :=
  [.enqueue 0 (deepRequest k) (deepDevice k) (mem_deepRequest k)]

theorem batch_deepCalls (k : ℕ) :
    (NotificationQueue.mk 10 3600 60).batch ((deepCalls k).map QueueCall.op) 0 1 =
      [⟨0, payload (deepRequest k).notification (deepDevice k)⟩] := rfl

/-- The batch of that queue side, with a limit of 127 levels. -/
theorem parses_iff_deep :
    let batch := (NotificationQueue.mk 10 3600 60).batch ((deepCalls 122).map QueueCall.op) 0 1
    Parses 127 batch ↔
      ∀ (r : AcceptedBody 127) (device : Device), device ∈ r.notification.devices →
        (∃ p ∈ batch, p.notification = payload r.notification device) →
        device.nesting + 6 ≤ 127 :=
  parses_iff _ _ _ _ (by rw [batch_deepCalls]; exact List.cons_ne_nil _ _)

/-- A queue side whose text parser admits 127 levels accepts a request at this limit, and hands it
out in a response that the poll side cannot parse. -/
theorem not_parses :
    ¬ ∀ (q : NotificationQueue) (calls : List (QueueCall 127)) (now : Instant) (max : ℕ)
        (r : AcceptedBody 127) (device : Device), device ∈ r.notification.devices →
      (∃ p ∈ q.batch (calls.map QueueCall.op) now max,
        p.notification = payload r.notification device) →
      Parses 127 (q.batch (calls.map QueueCall.op) now max) := by
  intro h
  have hbatch := batch_deepCalls 122
  have hparses := h ⟨10, 3600, 60⟩ (deepCalls 122) 0 1 (deepRequest 122) (deepDevice 122)
    (mem_deepRequest 122) ⟨_, hbatch ▸ List.mem_cons_self, rfl⟩
  rw [hbatch, Parses, nesting_pollResponse_le (List.cons_ne_nil _ _)] at hparses
  have hle := hparses _ List.mem_cons_self
  rw [nesting_payload, nesting_deepDevice] at hle
  exact absurd hle (by decide)

end Pincerbell
