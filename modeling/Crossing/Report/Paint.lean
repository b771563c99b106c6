import Crossing.Text.Decimal
import Crossing.Text.Search

/-!
# Painted text

Text whose parts may have a style. It is written plainly or for a terminal, where a style is an
escape sequence before the part and the reset after it. A reset inside a part is followed by the
style again, so that the part keeps its style to the end.
-/

namespace Crossing.Report

open Text

/-- The style of a part of a text. -/
inductive Style where
  | bold
  | dimmed
  | red
  | green
  | yellow
  | blue
  | magenta
  | cyan
  | white
deriving DecidableEq, Inhabited

/-- The number of a style in an escape sequence. -/
def Style.code : Style → Nat
  | bold => 1
  | dimmed => 2
  | red => 31
  | green => 32
  | yellow => 33
  | blue => 34
  | magenta => 35
  | cyan => 36
  | white => 37

/-- The escape sequence with a number. -/
def sequence (code : Nat) : List Char :=
  '\x1b' :: '[' :: Decimal.ofNat code ++ ['m']

/-- The escape sequence that ends a style. -/
def reset : List Char := sequence 0

/-- The text with `again` after every reset. -/
def afterResets (again : List Char) : List Char → List Char
  | '\x1b' :: '[' :: '0' :: 'm' :: rest => reset ++ again ++ afterResets again rest
  | c :: rest => c :: afterResets again rest
  | [] => []

/-- A part of a text, with its style if it has one. -/
structure Span where
  style : Option Style
  text : List Char
deriving DecidableEq, Inhabited

namespace Span

/-- A part without a style. -/
def plain (text : String) : Span := ⟨none, text.toList⟩

/-- A part with a style. -/
def styled (style : Style) (text : String) : Span := ⟨some style, text.toList⟩

/-- A part as it is written on a terminal. -/
def paint (s : Span) : List Char :=
  match s.style with
  | some style => sequence style.code ++ afterResets (sequence style.code) s.text ++ reset
  | none => s.text

end Span

/-- A line of painted text. -/
abbrev Line := List Span

/-- The text of lines, in colour or plainly. -/
def write (colour : Bool) (lines : List Line) : String :=
  .ofList (lines.flatMap fun line =>
    line.flatMap (fun s => if colour then s.paint else s.text) ++ ['\n'])

end Crossing.Report
