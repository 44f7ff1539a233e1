import Pincerbell.Api

/-!
# Serialization and back

What `toValue` writes, `fromValue` reads back. The one type whose values are not all written
faithfully is `PusherData`: its flattened remainder must not hold `format`, nor any key twice. Both
hold of what was decoded from a JSON value.

* `Value.Distinct` — no object of the value holds a key twice, as in every `serde_json::Value`.
* `PusherData.Flattened` — pusher data as it can be decoded.
* `Counts.fromValue_toValue`, `PusherData.fromValue_toValue`, `Device.fromValue_toValue` — the round
  trips.
* `Notification.flattened_of_fromValue` — a decoded notification has flattened pusher data.
-/

namespace Pincerbell

/-! ### Maps -/

namespace Map

variable {m : Map} {key key' : String} {value : Option Value}

@[simp]
theorem get_nil (key : String) : get [] key = none := rfl

@[simp]
theorem get_insertSome_self : get (insertSome m key value) key = value.or (get m key) := by
  cases value with
  | none => rfl
  | some v => exact get_insert_self m key v

@[simp]
theorem get_insertSome_of_ne (hne : key' ≠ key) :
    get (insertSome m key value) key' = get m key' := by
  cases value with
  | none => rfl
  | some v => exact get_insert_of_ne m v hne

/-- Writing another key leaves the first field in front. -/
theorem insertSome_cons_of_ne {field : String × Value} (hne : field.1 ≠ key) :
    insertSome (field :: m) key value = field :: insertSome m key value := by
  cases value with
  | none => rfl
  | some v => rw [insertSome, insert, if_neg hne, insertSome]

/-- Writing a new key appends it. -/
theorem insert_of_notMem (hkey : key ∉ m.map Prod.fst) (v : Value) :
    insert m key v = m ++ [(key, v)] := by
  induction m with
  | nil => rfl
  | cons field rest ih =>
    rw [List.map_cons, List.mem_cons, not_or] at hkey
    rw [insert, if_neg fun heq => hkey.1 heq.symm, ih hkey.2]
    rfl

/-- Writing new, distinct keys one after the other appends them all. -/
theorem foldl_insert_of_disjoint {fields : Map} (hnodup : ((m ++ fields).map Prod.fst).Nodup) :
    fields.foldl (fun m field => insert m field.1 field.2) m = m ++ fields := by
  induction fields generalizing m with
  | nil => simp
  | cons field rest ih =>
    have hnew : field.1 ∉ m.map Prod.fst := by
      rw [List.map_append, List.nodup_append] at hnodup
      exact fun hmem => hnodup.2.2 _ hmem _ (by simp) rfl
    rw [List.foldl_cons, insert_of_notMem hnew, ih (by simpa using hnodup)]
    simp

/-- What is read was written. -/
theorem mem_of_get {v : Value} (h : get m key = some v) : (key, v) ∈ m := by
  induction m with
  | nil => cases h
  | cons field rest ih =>
    obtain ⟨k, w⟩ := field
    rw [get, List.lookup_cons] at h
    split at h
    next heq =>
      obtain rfl := Option.some_inj.mp h
      rw [beq_iff_eq] at heq
      exact heq ▸ List.mem_cons_self
    next => exact List.mem_cons_of_mem _ (ih h)

end Map

/-! ### JSON values -/

namespace Value

/-- No object in the value holds a key twice. -/
inductive Distinct : Value → Prop
  | null : Distinct null
  | bool (b : Bool) : Distinct (bool b)
  | number (n : Number) : Distinct (number n)
  | string (s : String) : Distinct (string s)
  | array {items : List Value} (hitems : ∀ v ∈ items, Distinct v) : Distinct (array items)
  | object {fields : Map} (hkeys : (fields.map Prod.fst).Nodup)
      (hfields : ∀ field ∈ fields, Distinct field.2) : Distinct (object fields)

attribute [simp] Distinct.null Distinct.bool Distinct.number Distinct.string

@[simp]
theorem distinct_array_iff {items : List Value} :
    (array items).Distinct ↔ ∀ v ∈ items, v.Distinct :=
  ⟨fun h => by cases h; assumption, .array⟩

@[simp]
theorem distinct_object_iff {fields : Map} :
    (object fields).Distinct ↔
      (fields.map Prod.fst).Nodup ∧ ∀ field ∈ fields, field.2.Distinct :=
  ⟨fun h => by cases h; exact ⟨‹_›, ‹_›⟩, fun h => .object h.1 h.2⟩

/-- A field of a struct is part of the value that it is read from. -/
theorem Distinct.field {v w : Value} {arity i : ℕ} {name : String}
    {field : String → ℕ → Option Value} (h : v.Distinct) (hv : v.structFields arity = some field)
    (hw : field name i = some w) : w.Distinct := by
  -- only arrays and objects have fields
  cases h with
  | null => cases hv
  | bool b => cases hv
  | number n => cases hv
  | string s => cases hv
  | array hitems =>
    rw [structFields] at hv
    split at hv
    next =>
      cases hv
      exact hitems w (List.mem_of_getElem? hw)
    next => cases hv
  | object hkeys hfields =>
    cases hv
    exact hfields _ (Map.mem_of_get hw)

variable {α : Type} {decode : Value → Option α}

/-- A present optional field was decoded from what is there. -/
theorem exists_of_optionalField {field : Option Value} {a : α}
    (h : optionalField decode field = some (some a)) :
    ∃ v, field = some v ∧ decode v = some a := by
  cases field with
  | none => cases h
  | some v =>
    refine ⟨v, rfl, ?_⟩
    cases v <;> simp_all [optionalField]

/-- Every element of a decoded list was decoded from an item of the array. -/
theorem exists_of_mapM {items : List Value} {as : List α} (h : items.mapM decode = some as) {a : α}
    (ha : a ∈ as) : ∃ v ∈ items, decode v = some a := by
  induction items generalizing as with
  | nil =>
    obtain rfl : [] = as := by simpa using h
    cases ha
  | cons v items ih =>
    rw [List.mapM_cons] at h
    obtain ⟨b, hb, h⟩ := Option.bind_eq_some_iff.mp h
    obtain ⟨bs, hbs, h⟩ := Option.bind_eq_some_iff.mp h
    obtain rfl := Option.some_inj.mp h
    rcases List.mem_cons.mp ha with rfl | ha
    · exact ⟨v, List.mem_cons_self, hb⟩
    · obtain ⟨w, hw, hdec⟩ := ih hbs ha
      exact ⟨w, List.mem_cons_of_mem v hw, hdec⟩

/-- Decoding a list of values that each decode. -/
theorem mapM_map_eq_some {encode : α → Value} {as : List α}
    (h : ∀ a ∈ as, decode (encode a) = some a) : (as.map encode).mapM decode = some as := by
  induction as with
  | nil => rfl
  | cons a as ih =>
    rw [List.map_cons, List.mapM_cons, h a List.mem_cons_self,
      ih fun b hb => h b (List.mem_cons_of_mem a hb)]
    rfl

/-- A written optional field reads back, as nothing is written as `null`. -/
theorem optionalField_map {encode : α → Value} {a : Option α}
    (hnull : ∀ a, encode a ≠ null) (h : ∀ b, a = some b → decode (encode b) = some b) :
    optionalField decode (a.map encode) = some a := by
  cases a with
  | none => rfl
  | some b =>
    rw [Option.map_some, optionalField, h b rfl]
    · rfl
    · exact fun heq => hnull b heq

end Value

/-! ### The types of a notification -/

namespace Prio

theorem fromValue_toValue (p : Prio) : fromValue p.toValue = some p := by
  cases p <;> rfl

end Prio

namespace Counts

theorem fromValue_toValue (c : Counts) : fromValue c.toValue = some c := by
  obtain ⟨unread, missedCalls⟩ := c
  cases unread <;> cases missedCalls <;> rfl

end Counts

namespace PusherData

/-- The remainder holds no key twice, and not the key of the named field. -/
structure Flattened (d : PusherData) : Prop where
  nodup : (d.rest.map Prod.fst).Nodup
  notMem : "format" ∉ d.rest.map Prod.fst

variable {d : PusherData}

theorem Flattened.get_format (h : d.Flattened) : Map.get d.rest "format" = none := by
  cases hget : Map.get d.rest "format" with
  | none => rfl
  | some v => exact absurd (List.mem_map_of_mem (Map.mem_of_get hget)) h.notMem

theorem Flattened.filter_rest (h : d.Flattened) :
    d.rest.filter (fun field => field.1 ≠ "format") = d.rest := by
  refine List.filter_eq_self.mpr fun field hmem => ?_
  have hne : field.1 ≠ "format" := fun heq => h.notMem (heq ▸ List.mem_map_of_mem hmem)
  simpa using hne

/-- The remainder is written behind the named field. -/
theorem Flattened.toValue_eq (h : d.Flattened) :
    d.toValue = .object (Map.insertSome [] "format" (d.format.map .string) ++ d.rest) := by
  rw [toValue, Map.foldl_insert_of_disjoint]
  cases d.format with
  | none => exact h.nodup
  | some f =>
    show ("format" :: d.rest.map Prod.fst).Nodup
    exact List.nodup_cons.mpr ⟨h.notMem, h.nodup⟩

theorem fromValue_toValue (h : d.Flattened) : fromValue d.toValue = some d := by
  rw [h.toValue_eq]
  have hget := h.get_format
  have hfilter := h.filter_rest
  obtain ⟨format, rest⟩ := d
  cases format with
  | none =>
    show (Value.optionalField Value.decodeString (Map.get rest "format")).bind
      (fun format => some (PusherData.mk format (rest.filter fun field => field.1 ≠ "format"))) = _
    rw [hget, hfilter]
    rfl
  | some f =>
    show some (PusherData.mk (some f)
      (List.filter (fun field => field.1 ≠ "format") (("format", .string f) :: rest))) = _
    rw [List.filter_cons_of_neg (by simp), hfilter]

/-- What is decoded from a JSON value is flattened. -/
theorem flattened_of_fromValue {v : Value} (hv : v.Distinct) (h : fromValue v = some d) :
    d.Flattened := by
  cases hv with
  | object hkeys hfields =>
    obtain ⟨format, -, h⟩ := Option.bind_eq_some_iff.mp h
    obtain rfl := Option.some_inj.mp h
    constructor
    · exact hkeys.sublist (List.filter_sublist.map _)
    · simp
  | _ => cases h

end PusherData

namespace Device

/-- The pusher data of the device is as it can be decoded. -/
def Flattened (d : Device) : Prop := ∀ data, d.data = some data → data.Flattened

theorem decodeI64_ofI64 (n : Int64) : Value.decodeI64 (Value.ofI64 n) = some n := by
  rw [Value.ofI64]
  split
  next hpos =>
    have hlt : n.toUInt64 < 0x8000000000000000 := by
      rw [UInt64.lt_iff_toNat_lt, Int64.toNat_toUInt64_of_le hpos]
      exact Int64.toNatClampNeg_lt n
    rw [Value.decodeI64, if_pos hlt, Int64.toInt64_toUInt64]
  next => rfl

theorem fromValue_toValue {d : Device} (h : d.Flattened) : fromValue d.toValue = some d := by
  have hts : Value.optionalField Value.decodeI64 (d.pushkeyTs.map Value.ofI64) =
      some d.pushkeyTs := by
    refine Value.optionalField_map (fun n => ?_) fun n _ => decodeI64_ofI64 n
    rw [Value.ofI64]
    split <;> simp
  have hdata : Value.optionalField PusherData.fromValue (d.data.map PusherData.toValue) =
      some d.data :=
    Value.optionalField_map (fun _ heq => Value.noConfusion heq) fun data hd =>
      PusherData.fromValue_toValue (h data hd)
  have htweaks : Value.optionalField Value.decodeMap (d.tweaks.map .object) = some d.tweaks :=
    Value.optionalField_map (fun _ heq => Value.noConfusion heq) fun _ _ => rfl
  rw [fromValue, toValue]
  simp [Value.structFields, hts, hdata, htweaks, Value.decodeString]

/-- What is decoded from a JSON value has flattened pusher data. -/
theorem flattened_of_fromValue {v : Value} {d : Device} (hv : v.Distinct)
    (h : fromValue v = some d) : d.Flattened := by
  obtain ⟨field, hfield, h⟩ := Option.bind_eq_some_iff.mp h
  obtain ⟨appId, -, h⟩ := Option.bind_eq_some_iff.mp h
  obtain ⟨pushkey, -, h⟩ := Option.bind_eq_some_iff.mp h
  obtain ⟨pushkeyTs, -, h⟩ := Option.bind_eq_some_iff.mp h
  obtain ⟨data, hdata, h⟩ := Option.bind_eq_some_iff.mp h
  obtain ⟨tweaks, -, h⟩ := Option.bind_eq_some_iff.mp h
  obtain rfl := Option.some_inj.mp h
  rintro data' rfl
  obtain ⟨w, hw, hdec⟩ := Value.exists_of_optionalField hdata
  exact PusherData.flattened_of_fromValue (hv.field hfield hw) hdec

end Device

namespace Notification

/-- A notification reads back without its content. -/
theorem fromValue_toValue {n : Notification} (h : ∀ d ∈ n.devices, d.Flattened) :
    fromValue n.toValue = some { n with content := none } := by
  -- each field is read back as it was written
  have hdevices : (n.devices.map Device.toValue).mapM Device.fromValue = some n.devices :=
    Value.mapM_map_eq_some fun d hd => Device.fromValue_toValue (h d hd)
  have hcounts : Value.optionalField Counts.fromValue (n.counts.map Counts.toValue) =
      some n.counts :=
    Value.optionalField_map (fun _ heq => Value.noConfusion heq) fun c _ =>
      Counts.fromValue_toValue c
  have hstring : ∀ s : Option String,
      Value.optionalField Value.decodeString (s.map .string) = some s := fun s =>
    Value.optionalField_map (fun _ heq => Value.noConfusion heq) fun _ _ => rfl
  have hbool : Value.optionalField Value.decodeBool (n.userIsTarget.map .bool) =
      some n.userIsTarget :=
    Value.optionalField_map (fun _ heq => Value.noConfusion heq) fun _ _ => rfl
  have hprio : Value.optionalField Prio.fromValue (n.prio.map Prio.toValue) = some n.prio :=
    Value.optionalField_map (fun p heq => by cases p <;> cases heq) fun p _ =>
      Prio.fromValue_toValue p
  have hcontent : Value.optionalField (α := Value) some none = some none := rfl
  rw [fromValue, toValue]
  simp [Value.structFields, Value.decodeArray, hdevices, hcontent, hcounts, hstring, hbool, hprio]

/-- The devices of a decoded notification are decoded from the items of an array. -/
theorem exists_of_fromValue {v : Value} {n : Notification} (h : fromValue v = some n) {d : Device}
    (hd : d ∈ n.devices) :
    ∃ field items w, v.structFields 12 = some field ∧ field "devices" 0 = some (.array items) ∧
      w ∈ items ∧ Device.fromValue w = some d := by
  obtain ⟨field, hfield, h⟩ := Option.bind_eq_some_iff.mp h
  obtain ⟨devices, hdevices, h⟩ := Option.bind_eq_some_iff.mp h
  -- the other fields do not matter
  have hsame : n.devices = devices := by
    iterate 11 obtain ⟨_, -, h⟩ := Option.bind_eq_some_iff.mp h
    obtain rfl := Option.some_inj.mp h
    rfl
  obtain ⟨v', hv', hdec⟩ := Option.bind_eq_some_iff.mp hdevices
  cases v' with
  | array items =>
    obtain ⟨w, hw, hdec⟩ := Value.exists_of_mapM hdec (hsame ▸ hd)
    exact ⟨field, items, w, hfield, hv', hw, hdec⟩
  | _ => cases hdec

/-- What is decoded from a JSON value has devices with flattened pusher data. -/
theorem flattened_of_fromValue {v : Value} {n : Notification} (hv : v.Distinct)
    (h : fromValue v = some n) {d : Device} (hd : d ∈ n.devices) : d.Flattened := by
  obtain ⟨field, items, w, hfield, hitems, hw, hdec⟩ := exists_of_fromValue h hd
  have hdistinct := Value.distinct_array_iff.mp (hv.field hfield hitems)
  exact Device.flattened_of_fromValue (hdistinct w hw) hdec

end Notification

/-- A decoded request holds a decoded notification. -/
theorem NotifyRequest.exists_of_fromValue {v : Value} {n : Notification}
    (h : fromValue v = some ⟨n⟩) :
    ∃ field w, v.structFields 1 = some field ∧ field "notification" 0 = some w ∧
      Notification.fromValue w = some n := by
  obtain ⟨field, hfield, h⟩ := Option.bind_eq_some_iff.mp h
  obtain ⟨m, hm, h⟩ := Option.bind_eq_some_iff.mp h
  obtain rfl : m = n := congrArg NotifyRequest.notification (Option.some_inj.mp h)
  obtain ⟨w, hw, hdec⟩ := Option.bind_eq_some_iff.mp hm
  exact ⟨field, w, hfield, hw, hdec⟩

end Pincerbell
