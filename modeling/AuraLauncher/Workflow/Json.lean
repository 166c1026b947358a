import Mathlib.Data.String.Basic
import Mathlib.Tactic.Common

/-!
# JSON values

The values a workflow passes around are `serde_json::Value`s. The crate itself is not part of the
repository; this file has its data type and the compact text `to_string` gives, and takes as the
parameter `SerdeJson` the two things the workflow code uses and the repository does not decide: the
decimal text of a float, and what comes back when the text of a value is parsed again.

* `Json`, `JsonNumber` — `Value` and `Number` (without the crate's `preserve_order` and
  `arbitrary_precision` features, which no manifest of the repository asks for).
* `JsonNumber.asF64`, `Json.asF64` — `as_f64`, into Lean's `Float`.
* `Json.text` — the compact text of a value.
* `Json.get`, `Json.asStr`, `Json.asObject`, `Json.beq` — the accessors and the equality of `Value`.
* `insertField` — `Map::insert`, which keeps the fields in key order.
-/

namespace AuraLauncher.Workflow

/-- A JSON number: a nonnegative integer, a negative one, or a finite float.
Source: `serde_json::Number`. -/
inductive JsonNumber
  | posInt (n : UInt64)
  | negInt (n : Int64)
  | float (x : Float) (finite : x.isFinite = true)

/-- A JSON value; the fields of an object are in key order. Source: `serde_json::Value`. -/
inductive Json
  | null
  | bool (b : Bool)
  | number (n : JsonNumber)
  | string (s : String)
  | array (items : List Json)
  | object (fields : List (String × Json))

/-- What the workflow crate uses of `serde_json` and the repository does not contain. -/
structure SerdeJson where
  /-- The decimal text of a float. -/
  floatText : Float → String
  /-- `from_str` of the text of a value: the value again where it has a faithful text, and `none`
  where the parser refuses, as it does beyond its recursion limit. -/
  reread : Json → Option Json

/-- The crate as it behaves on values without floats, whose text always reads back. -/
def SerdeJson.withoutFloats : SerdeJson := ⟨fun _ => "", some⟩

/-- Source: `serde_json::Number::as_f64`. Lean's `Int64.toFloat` is opaque; its model of the
conversion is not. -/
def JsonNumber.asF64 : JsonNumber → Float
  | .posInt n => n.toFloat
  | .negInt n => .ofModel (.ofInt64 n)
  | .float x _ => x

/-- Source: `serde_json::Value::as_f64`. -/
def Json.asF64 : Json → Option Float
  | .number n => some n.asF64
  | _ => none

/-- Source: `serde_json::Value::is_null`. -/
def Json.isNull : Json → Bool
  | .null => true
  | _ => false

/-- Source: `serde_json::Value::is_object`. -/
def Json.isObject : Json → Bool
  | .object _ => true
  | _ => false

/-- Source: `serde_json::Value::as_str`. -/
def Json.asStr : Json → Option String
  | .string s => some s
  | _ => none

/-- Source: `serde_json::Value::as_object`. -/
def Json.asObject : Json → Option (List (String × Json))
  | .object fields => some fields
  | _ => none

/-- The value of a field of an object; `none` for any other value.
Source: `serde_json::Value::get` with a string. -/
def Json.get (v : Json) (key : String) : Option Json :=
  match v with
  | .object fields => fields.lookup key
  | _ => none

/-- Equality of numbers; two floats are compared as floats. Source: `serde_json::Number`, `eq`. -/
def JsonNumber.beq : JsonNumber → JsonNumber → Bool
  | .posInt m, .posInt n => m == n
  | .negInt m, .negInt n => m == n
  | .float x _, .float y _ => x == y
  | _, _ => false

mutual

/-- Equality of values. Source: `serde_json::Value`, `eq`. -/
def Json.beq : Json → Json → Bool
  | .null, .null => true
  | .bool a, .bool b => a == b
  | .number m, .number n => m.beq n
  | .string s, .string t => s == t
  | .array xs, .array ys => Json.itemsBeq xs ys
  | .object xs, .object ys => Json.fieldsBeq xs ys
  | _, _ => false

/-- Equality of the items of two arrays. -/
def Json.itemsBeq : List Json → List Json → Bool
  | [], [] => true
  | x :: xs, y :: ys => x.beq y && Json.itemsBeq xs ys
  | _, _ => false

/-- Equality of the fields of two objects. -/
def Json.fieldsBeq : List (String × Json) → List (String × Json) → Bool
  | [], [] => true
  | (k, x) :: xs, (l, y) :: ys => k == l && x.beq y && Json.fieldsBeq xs ys
  | _, _ => false

end

/-- A value that equals a string is that string. -/
theorem Json.eq_of_string_beq {s : String} {v : Json} (h : (Json.string s).beq v = true) :
    v = .string s := by
  cases v with
  | string t =>
      have hst : s = t := by simpa [Json.beq] using h
      rw [hst]
  | _ => simp [Json.beq] at h

/-- A field inserted into fields in key order, in the place of a field of the same key.
Source: `serde_json::Map::insert`. -/
def insertField (key : String) (value : Json) : List (String × Json) → List (String × Json)
  | [] => [(key, value)]
  | (k, v) :: fields =>
      if key < k then (key, value) :: (k, v) :: fields
      else if key = k then (key, value) :: fields
      else (k, v) :: insertField key value fields

/-- The inserted field is found under its key. -/
theorem lookup_insertField (key : String) (value : Json) (fields : List (String × Json)) :
    (insertField key value fields).lookup key = some value := by
  induction fields with
  | nil => simp [insertField]
  | cons field fields ih =>
      obtain ⟨k, v⟩ := field
      unfold insertField
      split_ifs with hlt heq
      · simp
      · simp
      · have hne : (key == k) = false := by simpa using heq
        rw [List.lookup_cons, hne]
        exact ih

/-- The other fields are as they were. -/
theorem lookup_insertField_of_ne {key other : String} (h : other ≠ key) (value : Json)
    (fields : List (String × Json)) :
    (insertField key value fields).lookup other = fields.lookup other := by
  have hne : (other == key) = false := beq_eq_false_iff_ne.mpr h
  induction fields with
  | nil => simp only [insertField, List.lookup_cons, hne, List.lookup_nil]
  | cons field fields ih =>
      obtain ⟨k, v⟩ := field
      unfold insertField
      split_ifs with hlt heq
      · simp only [List.lookup_cons, hne]
      · rw [List.lookup_cons, List.lookup_cons, hne, ← heq, hne]
      · rw [List.lookup_cons, List.lookup_cons, ih]

/-- An insertion adds one field at most. -/
theorem length_insertField_le (key : String) (value : Json) (fields : List (String × Json)) :
    (insertField key value fields).length ≤ fields.length + 1 := by
  induction fields with
  | nil => exact Nat.le_refl 1
  | cons field fields ih =>
      obtain ⟨k, v⟩ := field
      unfold insertField
      split_ifs with hlt heq
      · exact Nat.le_refl _
      · exact Nat.le_succ _
      · exact Nat.succ_le_succ ih

/-- The later of two insertions under one key counts. -/
theorem insertField_insertField (key : String) (value value' : Json)
    (fields : List (String × Json)) :
    insertField key value (insertField key value' fields) = insertField key value fields := by
  have hirr : ¬ key < key := lt_irrefl key
  induction fields with
  | nil => simp only [insertField, hirr, if_false, if_true]
  | cons field fields ih =>
      obtain ⟨k, v⟩ := field
      by_cases hlt : key < k
      · simp only [insertField, hlt, hirr, if_false, if_true]
      · by_cases heq : key = k
        · simp only [insertField, heq, lt_irrefl k, if_false, if_true]
        · simp only [insertField, hlt, heq, if_false, ih]

variable (sj : SerdeJson)

/-- The text of a number. -/
def JsonNumber.text : JsonNumber → String
  | .posInt n => toString n.toNat
  | .negInt n => toString n.toInt
  | .float x _ => sj.floatText x

/-- One hexadecimal digit in lower case. -/
def hexDigit (d : ℕ) : Char := "0123456789abcdef".toList.getD d '0'

/-- The characters of a character inside a JSON string. -/
def escapeChar (c : Char) : List Char :=
  if c = '"' then ['\\', '"']
  else if c = '\\' then ['\\', '\\']
  else if c = '\x08' then ['\\', 'b']
  else if c = '\t' then ['\\', 't']
  else if c = '\n' then ['\\', 'n']
  else if c = '\x0c' then ['\\', 'f']
  else if c = '\r' then ['\\', 'r']
  else if c.toNat < 0x20 then
    ['\\', 'u', '0', '0', hexDigit (c.toNat / 16), hexDigit (c.toNat % 16)]
  else [c]

/-- The text of a JSON string. -/
def quote (s : String) : String := "\"" ++ String.ofList (s.toList.flatMap escapeChar) ++ "\""

mutual

/-- The compact text of a value. Source: `serde_json::Value`, `to_string`. -/
def Json.text : Json → String
  | .null => "null"
  | .bool true => "true"
  | .bool false => "false"
  | .number n => n.text sj
  | .string s => quote s
  | .array items => "[" ++ Json.itemsText items ++ "]"
  | .object fields => "\x7b" ++ Json.fieldsText fields ++ "\x7d"

/-- The items of an array, separated by commas. -/
def Json.itemsText : List Json → String
  | [] => ""
  | [v] => v.text
  | v :: items => v.text ++ "," ++ Json.itemsText items

/-- The fields of an object, separated by commas. -/
def Json.fieldsText : List (String × Json) → String
  | [] => ""
  | [(k, v)] => quote k ++ ":" ++ v.text
  | (k, v) :: fields => quote k ++ ":" ++ v.text ++ "," ++ Json.fieldsText fields

end

/-- The text of a value that has a list, a nested object and an escaped character in it. -/
example : (Json.object [("a", .array [.number (.posInt 10), .bool true, .null]),
      ("b", .object [("k\n", .string "v")])]).text sj =
    "\x7b\"a\":[10,true,null],\"b\":\x7b\"k\\n\":\"v\"\x7d\x7d" := by
  rfl

end AuraLauncher.Workflow
