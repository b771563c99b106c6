import Crossing.Text.Letter
import Crossing.Text.Visible

/-!
# Quoted text

Keys of object literals. A key that is a plain name is written as it is, and any other one in
double quotes: the quote, the backslash and four control characters by a letter after a backslash,
other characters that are not visible by their code point.
-/

namespace Crossing.Text.Quoted

/-- The lowercase hexadecimal digits of a number, put in front of `tail`. -/
def hexPrepend (n : Nat) (tail : List Char) : List Char :=
  let digit := Char.ofNat (if n % 16 < 10 then 0x30 + n % 16 else 0x57 + n % 16)
  if n < 16 then digit :: tail else hexPrepend (n / 16) (digit :: tail)
termination_by n

/-- A character inside quotes. -/
def escape (c : Char) : List Char :=
  match c with
  | '\x00' => ['\\', '0']
  | '\t' => ['\\', 't']
  | '\r' => ['\\', 'r']
  | '\n' => ['\\', 'n']
  | '"' => ['\\', '"']
  | '\\' => ['\\', '\\']
  | c =>
    if isVisible c then [c] else ['\\', 'u', '{'] ++ hexPrepend c.toNat ['}']

/-- A text in quotes. -/
def quote (s : List Char) : List Char :=
  '"' :: s.flatMap escape ++ ['"']

/-- Whether a character may stand in a plain name. -/
def isNameChar (c : Char) : Bool :=
  isLetterOrNumber c || c == '_' || c == '$'

/-- Whether a text is a plain name: it is not empty, does not start with a number, and holds
letters, numbers, `_` and `$` only. -/
def isPlainName : List Char → Bool
  | [] => false
  | c :: rest => (isLetter c || c == '_' || c == '$') && (c :: rest).all isNameChar

/-- A key as it is written in an object literal. -/
def key (name : String) : String :=
  if isPlainName name.toList then name else .ofList (quote name.toList)

end Crossing.Text.Quoted
