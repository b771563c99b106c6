import Crossing.Json.Basic

/-!
# Reading JSON

The reader of RFC 8259 documents: blanks are the four of JSON, a string holds no control
character, a number has no leading zero, and nothing but blanks follows the value. `parse?` takes
documents in which arrays and objects nest less than 128 deep.
-/

namespace Crossing.Json

/-- The document without the blanks it starts with. -/
def skipBlanks (s : List Char) : List Char :=
  s.dropWhile fun c => c = ' ' ∨ c = '\t' ∨ c = '\n' ∨ c = '\r'

/-- The value of a hexadecimal digit of either case. -/
def hexDigit? (c : Char) : Option Nat :=
  if '0' ≤ c ∧ c ≤ '9' then some (c.toNat - 0x30)
  else if 'A' ≤ c ∧ c ≤ 'F' then some (c.toNat - 0x37)
  else if 'a' ≤ c ∧ c ≤ 'f' then some (c.toNat - 0x57)
  else none

/-- The code unit that four hexadecimal digits name. -/
def codeUnit? (a b c d : Char) : Option Nat := do
  return (((← hexDigit? a) * 16 + (← hexDigit? b)) * 16 + (← hexDigit? c)) * 16 + (← hexDigit? d)

/-- The character that a letter after a backslash names. -/
def simpleEscape? : Char → Option Char
  | '"' => some '"'
  | '\\' => some '\\'
  | '/' => some '/'
  | 'b' => some '\x08'
  | 'f' => some '\x0c'
  | 'n' => some '\n'
  | 'r' => some '\r'
  | 't' => some '\t'
  | _ => none

/-- A high surrogate that waits for its other half. -/
abbrev Pending := Option Nat

/-- The text of a string literal after its opening quote, and what follows the closing one. The
text is `none` if an escape names half of a surrogate pair without the other half. -/
def stringBody : Pending → List Char → Option (Option (List Char) × List Char)
  | pending, '"' :: rest => some (if pending.isSome then none else some [], rest)
  | pending, '\\' :: 'u' :: a :: b :: c :: d :: rest => do
    let unit ← codeUnit? a b c d
    match pending with
    | some high =>
      if 0xDC00 ≤ unit ∧ unit ≤ 0xDFFF then
        let (text, rest) ← stringBody none rest
        let c := Char.ofNat (0x10000 + (high - 0xD800) * 1024 + (unit - 0xDC00))
        return (text.map (c :: ·), rest)
      else
        let (_, rest) ← stringBody none rest
        return (none, rest)
    | none =>
      if 0xD800 ≤ unit ∧ unit ≤ 0xDBFF then stringBody (some unit) rest
      else
        let (text, rest) ← stringBody none rest
        return (if 0xDC00 ≤ unit ∧ unit ≤ 0xDFFF then none
          else text.map (Char.ofNat unit :: ·), rest)
  | pending, '\\' :: e :: rest => do
    let c ← simpleEscape? e
    let (text, rest) ← stringBody none rest
    return (if pending.isSome then none else text.map (c :: ·), rest)
  | pending, c :: rest => do
    if c.toNat < 0x20 ∨ c = '\\' then none
    let (text, rest) ← stringBody none rest
    return (if pending.isSome then none else text.map (c :: ·), rest)
  | _, [] => none

/-- The digits that a text starts with, at least one, and the rest. -/
def digits? (s : List Char) : Option (List Char × List Char) :=
  let ds := s.takeWhile Char.isDigit
  if ds.isEmpty then none else some (ds, s.dropWhile Char.isDigit)

/-- The integer part of a number: zero, or digits that do not start with it. -/
def integerPart? : List Char → Option (List Char × List Char)
  | '0' :: rest => some (['0'], rest)
  | s => digits? s

/-- The fraction of a number, empty if there is none. -/
def fraction? : List Char → Option (List Char × List Char)
  | '.' :: rest => (digits? rest).map fun (ds, rest) => ('.' :: ds, rest)
  | s => some ([], s)

/-- The exponent of a number, empty if there is none. -/
def exponent? : List Char → Option (List Char × List Char)
  | c :: rest =>
    if c = 'e' ∨ c = 'E' then
      let (sign, rest) := match rest with
        | '+' :: tail => (['+'], tail)
        | '-' :: tail => (['-'], tail)
        | _ => ([], rest)
      (digits? rest).map fun (ds, rest) => (c :: sign ++ ds, rest)
    else some ([], c :: rest)
  | [] => some ([], [])

/-- A number as it is written, and the rest. -/
def number? (s : List Char) : Option (List Char × List Char) := do
  let (sign, s) := match s with
    | '-' :: rest => (['-'], rest)
    | _ => ([], s)
  let (int, s) ← integerPart? s
  let (frac, s) ← fraction? s
  let (exp, s) ← exponent? s
  return (sign ++ int ++ frac ++ exp, s)

mutual

/-- A value and the rest. `fuel` bounds the steps and `depth` the nesting. -/
def value? : (fuel depth : Nat) → List Char → Option (Json × List Char)
  | 0, _, _ => none
  | fuel + 1, depth, s =>
    match skipBlanks s with
    | 'n' :: 'u' :: 'l' :: 'l' :: rest => some (.null, rest)
    | 't' :: 'r' :: 'u' :: 'e' :: rest => some (.bool true, rest)
    | 'f' :: 'a' :: 'l' :: 's' :: 'e' :: rest => some (.bool false, rest)
    | '"' :: rest => do
      let (text, rest) ← stringBody none rest
      return (match text with
        | some cs => .string (.ofList cs)
        | none => .unpaired, rest)
    | '[' :: rest =>
      match depth with
      | 0 => none
      | depth + 1 =>
        match skipBlanks rest with
        | ']' :: rest => some (.array [], rest)
        | rest => (items? fuel depth rest).map fun (items, rest) => (.array items, rest)
    | '{' :: rest =>
      match depth with
      | 0 => none
      | depth + 1 =>
        match skipBlanks rest with
        | '}' :: rest => some (.object [], rest)
        | rest => (members? fuel depth rest).map fun (fields, rest) => (.object fields, rest)
    | rest => (number? rest).map fun (literal, rest) => (.number literal, rest)

/-- The elements of an array up to its closing bracket. -/
def items? : (fuel depth : Nat) → List Char → Option (List Json × List Char)
  | 0, _, _ => none
  | fuel + 1, depth, s => do
    let (item, rest) ← value? fuel depth s
    match skipBlanks rest with
    | ',' :: rest =>
      let (items, rest) ← items? fuel depth rest
      return (item :: items, rest)
    | ']' :: rest => return ([item], rest)
    | _ => none

/-- The fields of an object up to its closing brace. -/
def members? : (fuel depth : Nat) → List Char → Option (List (String × Json) × List Char)
  | 0, _, _ => none
  | fuel + 1, depth, s =>
    match skipBlanks s with
    | '"' :: rest => do
      let (key, rest) ← stringBody none rest
      let key ← key
      match skipBlanks rest with
      | ':' :: rest =>
        let (item, rest) ← value? fuel depth rest
        match skipBlanks rest with
        | ',' :: rest =>
          let (fields, rest) ← members? fuel depth rest
          return ((.ofList key, item) :: fields, rest)
        | '}' :: rest => return ([(.ofList key, item)], rest)
        | _ => none
      | _ => none
    | _ => none

end

/-- The arrays and objects that may stand inside one another. -/
def maxDepth : Nat := 127

/-- The value of a document in which no more than `depth` arrays and objects stand inside one
another. Every step reads a character, so the length of the document is fuel enough. -/
def parseWithin? (depth : Nat) (text : String) : Option Json := do
  let (json, rest) ← value? (text.length + 1) depth text.toList
  if (skipBlanks rest).isEmpty then some json else none

/-- The value of a document. -/
def parse? (text : String) : Option Json :=
  parseWithin? maxDepth text

end Crossing.Json
