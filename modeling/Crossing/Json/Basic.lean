/-!
# JSON values

A JSON document as data. Numbers keep the text they were written with, so that an integer and a
fraction of the same value stay apart, and objects keep their fields in the order and number in
which they were written. `Json.variant?` and `Json.fields?` read the two shapes in which a
document may give a choice among names and a record.
-/

namespace Crossing

/-- A JSON value. -/
inductive Json where
  | null
  | bool (value : Bool)
  /-- A number, as it was written. -/
  | number (literal : List Char)
  | string (text : String)
  /-- A string in which an escape names half of a surrogate pair: well-formed, but no text. -/
  | unpaired
  | array (items : List Json)
  | object (fields : List (String × Json))
deriving Inhabited

namespace Json

/-- The value of a field: the last one if the key occurs several times. -/
def field? (key : String) : Json → Option Json
  | .object fields => (fields.reverse.find? (·.1 == key)).map (·.2)
  | _ => none

/-- The value of a field, `null` if it is absent or the value is no object. -/
def field (json : Json) (key : String) : Json :=
  (json.field? key).getD .null

/-- The text of a value that is a string. -/
def string? : Json → Option String
  | .string s => some s
  | _ => none

/-- The elements of a value that is an array. -/
def array? : Json → Option (List Json)
  | .array items => some items
  | _ => none

/-- A number below `bound` written as plain digits: no sign, fraction or exponent. -/
def natBelow? (bound : Nat) : Json → Option Nat
  | .number literal =>
    if literal.all Char.isDigit then
      let n := literal.foldl (fun n c => n * 10 + (c.toNat - 0x30)) 0
      if n < bound then some n else none
    else none
  | _ => none

/-- The array whose elements `f` reads. -/
def arrayOf? (f : Json → Option α) (json : Json) : Option (List α) :=
  json.array? >>= List.mapM f

/-- A choice among names: the name as a string, or an object with that one key and no value. -/
def variant? : Json → Option String
  | .string s => some s
  | .object [(s, .null)] => some s
  | _ => none

/-- The fields of a record, in the order of `keys`: from an object, whose other keys do not
count, or from an array with exactly as many elements. -/
def fields? (keys : List String) : Json → Option (List Json)
  | .object fields => keys.mapM (Json.object fields).field?
  | .array items => if items.length = keys.length then some items else none
  | _ => none

end Json

end Crossing
