import Crossing.Text.Blank
import Crossing.Text.Search

/-!
# Callee chains

The text of a callee as the segments between its dots. Blanks go, and the markers `?.` and `!.`
count as dots. A dot inside brackets of any kind or inside a string does not part segments, so a
call and a computed access stay in the segment that they belong to.
-/

namespace Crossing.Chain

open Text

/-- The text without blanks and markers. -/
def compact (callee : List Char) : List Char :=
  replacePair '!' '.' '.' (replacePair '?' '.' '.' (callee.filter (!isBlank ·)))

/-- What the splitter knows between two characters: the number of brackets that are open, and
inside a string its quote and whether a backslash stands before the next character. -/
inductive Scan where
  | code (depth : Nat)
  | string (depth : Nat) (quote : Char) (escaped : Bool)
deriving DecidableEq

/-- The quotes that a string may stand in. -/
def quotes : List Char := ['"', '\'', '\x60']

/-- The brackets that open. -/
def openers : List Char := ['(', '[', '{']

/-- The brackets that close. -/
def closers : List Char := [')', ']', '}']

/-- What the splitter knows after a character. -/
def Scan.step (c : Char) : Scan → Scan
  | .string depth quote escaped =>
    if escaped then .string depth quote false
    else if c = '\\' then .string depth quote true
    else if c = quote then .code depth
    else .string depth quote false
  | .code depth =>
    if c ∈ quotes then .string depth c false
    else if c ∈ openers then .code (depth + 1)
    else if c ∈ closers then .code (depth - 1)
    else .code depth

/-- A character in front of the first segment. -/
def extend (c : Char) : List (List Char) → List (List Char)
  | [] => [[c]]
  | segment :: rest => (c :: segment) :: rest

/-- The segments of a compact text that is read from a state. -/
def splitFrom : Scan → List Char → List (List Char)
  | _, [] => [[]]
  | state, c :: rest =>
    if c = '.' ∧ state = .code 0 then [] :: splitFrom state rest
    else extend c (splitFrom (state.step c) rest)

/-- The segments of a callee; `none` if one of them is empty. -/
def ofCallee? (callee : String) : Option (List String) :=
  let segments := splitFrom (.code 0) (compact callee.toList)
  if segments.any List.isEmpty then none else some (segments.map .ofList)

end Crossing.Chain
