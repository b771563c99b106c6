import Crossing.Json.Basic

/-!
# Writing JSON

The compact form of a value. In a string the quote, the backslash and the control characters
below the blank are escaped, five of them by a letter and the others by four lowercase
hexadecimal digits; every other character stands for itself.
-/

namespace Crossing.Json

/-- The lowercase digit of a number below sixteen. -/
def hexDigit (n : Nat) : Char :=
  Char.ofNat (if n < 10 then 0x30 + n else 0x57 + n)

/-- A character inside a string literal. -/
def escape (c : Char) : List Char :=
  match c with
  | '"' => ['\\', '"']
  | '\\' => ['\\', '\\']
  | '\x08' => ['\\', 'b']
  | '\x0c' => ['\\', 'f']
  | '\n' => ['\\', 'n']
  | '\r' => ['\\', 'r']
  | '\t' => ['\\', 't']
  | c =>
    if c.toNat < 0x20 then
      ['\\', 'u', '0', '0', hexDigit (c.toNat / 16), hexDigit (c.toNat % 16)]
    else [c]

/-- A text as a string literal. -/
def quote (text : String) : String :=
  .ofList ('"' :: text.toList.flatMap escape ++ ['"'])

mutual

/-- The compact form of a value. -/
def render : Json → String
  | .null => "null"
  | .bool true => "true"
  | .bool false => "false"
  | .number literal => .ofList literal
  | .string text => quote text
  | .unpaired => "\"\\ud800\""
  | .array items => "[" ++ renderItems items ++ "]"
  | .object fields => "\x7b" ++ renderFields fields ++ "\x7d"

/-- The elements of an array with commas between them. -/
def renderItems : List Json → String
  | [] => ""
  | [item] => item.render
  | item :: items => item.render ++ "," ++ renderItems items

/-- The fields of an object with commas between them. -/
def renderFields : List (String × Json) → String
  | [] => ""
  | [(key, item)] => quote key ++ ":" ++ item.render
  | (key, item) :: fields => quote key ++ ":" ++ item.render ++ "," ++ renderFields fields

end

end Crossing.Json
