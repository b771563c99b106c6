import Crossing.Text.Utf8

/-!
# Edits of a text

An edit puts a text in the place of a range of bytes. A list of edits is carried out from the back
of the text to the front; one that is out of range, or that reaches behind the start of one
already carried out, is left out. An edit that would cut a character in two is refused.
-/

namespace Crossing

open Text

/-- A text in the place of a range of bytes; the range is empty for an insertion. -/
structure Edit where
  start : Nat
  stop : Nat
  text : String
deriving DecidableEq, Inhabited

namespace Edit

/-- The insertion of a text. -/
def insertion (offset : Nat) (text : String) : Edit :=
  ⟨offset, offset, text⟩

/-- Whether an edit comes before another when a text is edited from the back. -/
def before (a b : Edit) : Bool :=
  b.start < a.start || (b.start == a.start && b.stop ≤ a.stop)

/-- The edits that are carried out: of those in order, each that is in range and ends no later
than the last one kept starts. -/
def select (length : Nat) : Option Nat → List Edit → List Edit
  | _, [] => []
  | floor, e :: rest =>
    if e.start ≤ e.stop ∧ e.stop ≤ floor.getD e.stop ∧ e.stop ≤ length then
      e :: select length (some e.start) rest
    else select length floor rest

/-- The text before a byte offset and the text from there on, unless the offset lies inside a
character or behind the end. -/
def splitAt? : (offset : Nat) → List Char → Option (List Char × List Char)
  | 0, s => some ([], s)
  | _ + 1, [] => none
  | n + 1, c :: rest =>
    if c.utf8Size ≤ n + 1 then
      (splitAt? (n + 1 - c.utf8Size) rest).map fun (before, after) => (c :: before, after)
    else none

/-- Carries out one edit. -/
def splice? (e : Edit) (s : List Char) : Option (List Char) := do
  let (before, rest) ← splitAt? e.start s
  let (_, after) ← splitAt? (e.stop - e.start) rest
  return before ++ e.text.toList ++ after

/-- Carries out edits one after the other. -/
def spliceAll? : List Edit → List Char → Option (List Char)
  | [], s => some s
  | e :: rest, s => splice? e s >>= spliceAll? rest

/-- Carries out a list of edits; `none` if one of them cuts a character in two. -/
def applyAll? (source : String) (edits : List Edit) : Option String :=
  let s := source.toList
  (spliceAll? (select (Utf8.width s) none (edits.mergeSort before)) s).map .ofList

end Edit

end Crossing
