import Mathlib.Data.List.Sort
import Mathlib.Data.Nat.Digits.Defs
import Pincerbell.Support.ContentCoding
import Pincerbell.Support.Utf8
import Pincerbell.WebPush

/-!
# The text of a JSON value

What `Value::to_string` writes: no white space, strings with the escapes that JSON requires, and the
fields of an object in the order of their keys. How the library prints a float is a parameter.

* `quote`, `Number.text` — the text of a string and of a number.
* `Value.text` — the text of a value.
* `Value.length_text_le_of_mem` — the text is no shorter than a string in it.
* `Value.length_text_object_le` — the text of an object is not much longer than its fields.
-/

namespace Pincerbell

/-- A character of a JSON string. Control characters are escaped, and the two characters with a
meaning of their own. -/
def escapeChar (c : Char) : Bytes :=
  if c = '"' then bytes "\\\""
  else if c = '\\' then bytes "\\\\"
  else if c = '\n' then bytes "\\n"
  else if c = '\r' then bytes "\\r"
  else if c = '\t' then bytes "\\t"
  else if c.toNat = 8 then bytes "\\b"
  else if c.toNat = 12 then bytes "\\f"
  else if c.toNat < 32 then
    bytes "\\u00" ++ bytes (String.ofList [(c.toNat / 16).digitChar, (c.toNat % 16).digitChar])
  else String.utf8EncodeChar c

/-- A JSON string. -/
def quote (s : String) : Bytes := bytes "\"" ++ s.toList.flatMap escapeChar ++ bytes "\""

/-- A number; integers are written in decimal. -/
def Number.text (formatFloat : UInt64 → Bytes) : Number → Bytes
  | posInt n => bytes (toString n.toNat)
  | negInt n => bytes (toString n.toInt)
  | float bits => formatFloat bits

namespace Value

variable (formatFloat : UInt64 → Bytes)

mutual

/-- The text of a value. -/
def text : Value → Bytes
  | null => bytes "null"
  | bool true => bytes "true"
  | bool false => bytes "false"
  | number n => n.text formatFloat
  | string s => quote s
  | array items => bytes "[" ++ (bytes ",").intercalate (textItems items) ++ bytes "]"
  | object fields =>
    -- a map is kept in the order of its keys
    let sorted := (textFields fields).insertionSort fun a b => a.1 ≤ b.1
    bytes "\x7b" ++ (bytes ",").intercalate (sorted.map Prod.snd) ++ bytes "\x7d"

def textItems : List Value → List Bytes
  | [] => []
  | v :: vs => text v :: textItems vs

/-- The fields with their keys. -/
def textFields : List (String × Value) → List (String × Bytes)
  | [] => []
  | field :: fields => textField field :: textFields fields

def textField : String × Value → String × Bytes
  | (key, v) => (key, quote key ++ bytes ":" ++ text v)

end

example : text (fun _ => []) (.object [("b", .array [.null, .number (.posInt 7)]),
    ("a", .string "\n\x01x")]) =
    bytes "\x7b\"a\":\"\\n\\u0001x\",\"b\":[null,7]\x7d" := by decide +kernel

/-! ### Lengths -/

/-- Every character takes at least one byte, escaped or not. -/
theorem escapeChar_ne_nil (c : Char) : escapeChar c ≠ [] := by
  unfold escapeChar
  split_ifs
  case neg => exact String.utf8EncodeChar_ne_nil
  iterate 7 next => decide +kernel
  -- a control character without a letter of its own
  exact List.append_ne_nil_of_left_ne_nil (by decide +kernel) _

/-- A text is no shorter than the string that it quotes. -/
theorem length_le_quote (s : String) : s.toList.length ≤ (quote s).length := by
  have hchars : ∀ cs : List Char, cs.length ≤ (cs.flatMap escapeChar).length := by
    intro cs
    induction cs with
    | nil => exact Nat.zero_le _
    | cons c cs ih =>
      have hpos := List.length_pos_iff.mpr (escapeChar_ne_nil c)
      rw [List.flatMap_cons, List.length_append, List.length_cons]
      omega
  have := hchars s.toList
  rw [quote, List.length_append, List.length_append]
  omega

/-- What is joined is no longer than the result. -/
theorem length_le_intercalate (sep : Bytes) {part : Bytes} {parts : List Bytes}
    (h : part ∈ parts) :
    part.length ≤ (sep.intercalate parts).length := by
  induction parts with
  | nil => cases h
  | cons first parts ih =>
    by_cases hne : parts = []
    · subst hne
      rw [List.mem_singleton.mp h, List.intercalate_singleton]
    · rw [List.intercalate_cons_of_ne_nil hne, List.length_append, List.length_append]
      rcases List.mem_cons.mp h with rfl | h
      · omega
      · have := ih h
        omega

/-- The text of an object is no shorter than the text of a field. -/
theorem length_text_le_of_mem {fields : Map} {key : String} {v : Value} (h : (key, v) ∈ fields) :
    (v.text formatFloat).length ≤ ((object fields).text formatFloat).length := by
  have hfield : textField formatFloat (key, v) ∈ textFields formatFloat fields := by
    induction fields with
    | nil => cases h
    | cons field fields ih =>
      rcases List.mem_cons.mp h with rfl | h
      · exact List.mem_cons_self
      · exact List.mem_cons_of_mem _ (ih h)
  rw [text]
  have hpart := List.mem_map_of_mem (f := Prod.snd)
    ((List.mem_insertionSort (fun a b => a.1 ≤ b.1)).mpr hfield)
  have hle := length_le_intercalate (bytes ",") hpart
  simp only [textField, List.length_append] at hle ⊢
  omega

/-- What is joined by commas takes one more byte for each part at most. -/
theorem length_intercalate_comma_le (parts : List Bytes) :
    ((bytes ",").intercalate parts).length ≤ (parts.map fun part => part.length + 1).sum := by
  have hcomma : (bytes ",").length = 1 := by decide +kernel
  induction parts with
  | nil => exact Nat.le_refl 0
  | cons part parts ih =>
    by_cases hne : parts = []
    · subst hne
      simp
    · rw [List.intercalate_cons_of_ne_nil hne, List.length_append, List.length_append, hcomma,
        List.map_cons, List.sum_cons]
      omega

/-- The text of an object is its fields, a byte between two of them, and the braces. -/
theorem length_text_object_le (fields : Map) :
    ((object fields).text formatFloat).length ≤
      ((textFields formatFloat fields).map fun field => field.2.length + 1).sum + 2 := by
  have hsort := (List.perm_insertionSort (fun a b => a.1 ≤ b.1)
    (textFields formatFloat fields)).map fun field => field.2.length + 1
  have hle := length_intercalate_comma_le
    (((textFields formatFloat fields).insertionSort fun a b => a.1 ≤ b.1).map Prod.snd)
  rw [List.map_map] at hle
  have hbraces : (bytes "\x7b").length = 1 ∧ (bytes "\x7d").length = 1 := by decide +kernel
  rw [text, List.length_append, List.length_append, hbraces.1, hbraces.2, ← hsort.sum_nat]
  exact Nat.le_trans (Nat.add_le_add_right (Nat.add_le_add_left hle 1) 1)
    (by rw [Nat.add_comm 1]; exact Nat.le_refl _)

end Value

/-- A character takes at most four bytes. -/
theorem length_bytes_le (s : String) : (bytes s).length ≤ 4 * s.length := by
  have hchars : ∀ cs : List Char, (Utf8.utf8 cs).length ≤ 4 * cs.length := by
    intro cs
    induction cs with
    | nil => exact Nat.le_refl 0
    | cons c cs ih =>
      have := c.utf8Size_le_four
      rw [Utf8.utf8_cons, List.length_append, List.length_cons, String.length_utf8EncodeChar]
      omega
  rw [bytes, Utf8.toList_toUTF8, ← String.length_toList]
  exact hchars _

/-- An integer that is not negative has at most twenty digits. -/
theorem Number.length_text_posInt_le (formatFloat : UInt64 → Bytes) (n : UInt64) :
    ((posInt n).text formatFloat).length ≤ 80 := by
  have hdigits : (toString n.toNat).length ≤ 20 :=
    Nat.repr_length _ 20 (by decide) (Nat.lt_trans n.toNat_lt (by decide))
  have hbytes := length_bytes_le (toString n.toNat)
  rw [text]
  omega

end Pincerbell
