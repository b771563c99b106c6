import Crossing.Text.Search

/-!
# Lexemes

The smallest parts of a script. A lexeme is given by the number of characters that it takes of a
text, zero if the text does not start with one. Which lexeme is tried where is the grammar's
business, so that a slash may start a pattern in one place and divide in another.
-/

namespace Crossing.Script

open Text

/-- A sort of lexeme: how many characters a text starts with that form one. -/
abbrev Lexeme := List Char → Nat

/-! ## Blanks and comments -/

/-- Whether a character is a blank between lexemes. -/
def isSpace (c : Char) : Bool :=
  let n := c.toNat
  (9 ≤ n && n ≤ 13) || n == 0x20 || n == 0xA0 || n == 0x1680 || (0x2000 ≤ n && n ≤ 0x200B) ||
    n == 0x2028 || n == 0x2029 || n == 0x202F || n == 0x205F || n == 0x2060 || n == 0x3000 ||
    n == 0xFEFF

/-- Whether a character is one of the six blanks of ASCII. -/
def isAsciiSpace (c : Char) : Bool :=
  let n := c.toNat
  (9 ≤ n && n ≤ 13) || n == 0x20

/-- Whether a character ends a comment that goes to the end of its line. -/
def endsLine (c : Char) : Bool :=
  c == '\n' || c == '\r' || c == '\u2028' || c == '\u2029'

/-- What counts as a blank and as the end of a line while comments are skipped. -/
structure Skipper where
  space : Char → Bool
  lineEnd : Char → Bool

mutual

/-- `n` and the length of the blanks and comments that a text starts with. -/
def Skipper.skip (k : Skipper) : Nat → List Char → Nat
  | n, '/' :: '/' :: rest => k.skipLine (n + 2) rest
  | n, '/' :: '*' :: rest => k.skipBlock n (n + 2) rest
  | n, c :: rest => if k.space c then k.skip (n + 1) rest else n
  | n, [] => n

/-- The same inside a comment that goes to the end of its line. -/
def Skipper.skipLine (k : Skipper) : Nat → List Char → Nat
  | n, c :: rest =>
    if k.lineEnd c then (if k.space c then k.skip (n + 1) rest else n)
    else k.skipLine (n + 1) rest
  | n, [] => n

/-- The same inside a comment that an asterisk and a slash close. One that is not closed is no
comment, and the text before it, `start` characters, is all that is skipped. -/
def Skipper.skipBlock (k : Skipper) (start : Nat) : Nat → List Char → Nat
  | n, '*' :: '/' :: rest => k.skip (n + 2) rest
  | n, _ :: rest => k.skipBlock start (n + 1) rest
  | _, [] => start

end

/-- Blanks and comments between lexemes. -/
def trivia : Lexeme :=
  Skipper.skip ⟨isSpace, endsLine⟩ 0

/-- Blanks and comments up to the end of a line. -/
def lineTrivia : Lexeme :=
  Skipper.skip ⟨fun c => isAsciiSpace c && c != '\n', endsLine⟩ 0

/-- Blanks and comments behind the end of a line. -/
def nextTrivia : Lexeme :=
  Skipper.skip ⟨isAsciiSpace, (· == '\n')⟩ 0

/-- Whether a character ends a comment as pages have them. -/
def endsRemark (c : Char) : Bool :=
  c == '\n' || c == '\u2028' || c == '\u2029' || c == '\x00'

/-- A comment as pages have them: it starts with either of their two marks and goes to the end of
its line. -/
def remark : Lexeme := fun s =>
  if "<!--".toList.isPrefixOf s || "-->".toList.isPrefixOf s then
    (s.takeWhile (!endsRemark ·)).length
  else 0

/-! ## Names -/

/-- Whether a character may stand in a name: it is no control character, blank or sign. -/
def isWordChar (c : Char) : Bool :=
  0x20 ≤ c.toNat && !isSpace c && !":;\x60\"'@#.,|^&<=>+-*/\\%?!~()[]\x7b\x7d".toList.contains c

/-- Whether a character is a hexadecimal digit. -/
def isHex (c : Char) : Bool :=
  c.isDigit || ('a' ≤ c && c ≤ 'f') || ('A' ≤ c && c ≤ 'F')

mutual

/-- `n` and the length of what continues a name. -/
def wordTail : Nat → List Char → Nat
  | n, '\\' :: 'u' :: '{' :: c :: rest => if isHex c then codeTail n (n + 4) rest else n
  | n, '\\' :: 'u' :: a :: b :: c :: d :: rest =>
    if isHex a && isHex b && isHex c && isHex d then wordTail (n + 6) rest else n
  | n, c :: rest => if isWordChar c then wordTail (n + 1) rest else n
  | n, [] => n

/-- The same inside the braces of an escape. -/
def codeTail (start : Nat) : Nat → List Char → Nat
  | n, c :: rest =>
    if isHex c then codeTail start (n + 1) rest
    else if c = '}' then wordTail (n + 1) rest
    else start
  | _, [] => start

end

/-- Any name, a keyword or not. -/
def anyWord : Lexeme
  | [] => 0
  | c :: rest => if c.isDigit then 0 else wordTail 0 (c :: rest)

/-- A name that is none of the given words. -/
def wordExcept (words : List (List Char)) : Lexeme := fun s =>
  let n := anyWord s
  if words.contains (s.take n) then 0 else n

/-- A word. -/
def keyword (word : String) : Lexeme := fun s =>
  match after? word.toList s with
  | some rest => if wordTail 0 rest = 0 then word.toList.length else 0
  | none => 0

/-- A name with `#` in front. -/
def hashWord : Lexeme
  | '#' :: rest => if anyWord rest = 0 then 0 else anyWord rest + 1
  | _ => 0

/-! ## Signs -/

/-- The signs of expressions, the longer ones before those that they start with. -/
def signs : List (List Char) :=
  [">>>=", "...", "===", "!==", "**=", "<<=", ">>=", ">>>", "&&=", "||=", "??=", "=>", "==", "!=",
    "<=", ">=", "&&", "||", "??", "?.", "++", "--", "+=", "-=", "*=", "/=", "%=", "&=", "|=",
    "^=", "<<", ">>", "**"].map String.toList

/-- The longest sign that a text starts with; any character is one by itself. -/
def signAt (s : List Char) : List Char :=
  (signs.find? (·.isPrefixOf s)).getD (s.take 1)

/-- One of the given signs, where the text does not start with a longer sign. -/
def oneOf (wanted : List String) : Lexeme := fun s =>
  let sign := signAt s
  if (wanted.map String.toList).contains sign then sign.length else 0

/-- A run of characters, whatever follows it. -/
def exactly (run : String) : Lexeme := fun s =>
  if run.toList.isPrefixOf s then run.toList.length else 0

/-- An operator between two operands that binds more tightly than `<`. -/
def tightSign : Lexeme :=
  oneOf ["**", "*", "/", "%", "+", "-", "<<", ">>>", ">>"]

/-- An operator between two operands. -/
def binarySign : Lexeme :=
  oneOf [">>>", ">>", "<<", "**", "&&", "||", "??", "===", "!==", "==", "!=", "<=", ">=", "+", "-",
    "*", "/", "%", "<", ">", "&", "|", "^"]

/-- An operator that assigns. -/
def assignSign : Lexeme :=
  oneOf ["=", ">>>=", "**=", "<<=", ">>=", "&&=", "||=", "??=", "+=", "-=", "*=", "/=", "%=", "&=",
    "|=", "^="]

/-- The question mark of a conditional expression. It is no part of `??` or `?.`, and what follows
it may not be what follows the mark of an optional parameter. -/
def questionSign : Lexeme
  | '?' :: rest =>
    match rest with
    | '?' :: _ => 0
    | _ =>
      match rest.dropWhile isAsciiSpace with
      | '.' :: c :: _ => if c.isDigit then 1 else 0
      | c :: _ => if c = ':' ∨ c = ')' ∨ c = ',' ∨ c = '.' then 0 else 1
      | [] => 1
  | _ => 0

/-! ## Numbers -/

/-- The length of digits with single underscores between them. -/
def digitRun (isDigit : Char → Bool) : Lexeme
  | c :: '_' :: d :: rest =>
    if isDigit c then (if isDigit d then digitRun isDigit (d :: rest) + 2 else 1) else 0
  | c :: rest => if isDigit c then digitRun isDigit rest + 1 else 0
  | [] => 0

/-- A number with a letter after its first zero. -/
def radixNumber : Lexeme
  | '0' :: x :: rest =>
    let digits :=
      if x = 'x' ∨ x = 'X' then digitRun isHex rest
      else if x = 'b' ∨ x = 'B' then digitRun (fun c => c == '0' || c == '1') rest
      else if x = 'o' ∨ x = 'O' then digitRun (fun c => '0' ≤ c && c ≤ '7') rest
      else 0
    if digits = 0 then 0
    else digits + (if (rest.drop digits).head? = some 'n' then 3 else 2)
  | _ => 0

/-- The exponent of a number. -/
def exponent : Lexeme
  | e :: rest =>
    if e = 'e' ∨ e = 'E' then
      let (sign, rest) := match rest with
        | '+' :: tail => (1, tail)
        | '-' :: tail => (1, tail)
        | _ => (0, rest)
      let digits := digitRun Char.isDigit rest
      if digits = 0 then 0 else 1 + sign + digits
    else 0
  | [] => 0

/-- The integer part of a number with a fraction or an exponent. -/
def wholePart : Lexeme
  | '0' :: c :: rest =>
    if '1' ≤ c ∧ c ≤ '9' then 1 + digitRun Char.isDigit (c :: rest) else 1
  | s => digitRun Char.isDigit s

/-- A number with a point. -/
def pointNumber : Lexeme := fun s =>
  let whole := wholePart s
  match s.drop whole with
  | '.' :: rest =>
    let fraction := digitRun Char.isDigit rest
    if whole = 0 ∧ fraction = 0 then 0
    else whole + 1 + fraction + exponent (rest.drop fraction)
  | _ => 0

/-- A number with an exponent and no point. -/
def exponentNumber : Lexeme := fun s =>
  let whole := wholePart s
  let e := exponent (s.drop whole)
  if whole = 0 ∨ e = 0 then 0 else whole + e

/-- A number of digits only, or with `n` behind them. -/
def digitNumber : Lexeme := fun s =>
  let n := digitRun Char.isDigit s
  if n ≠ 0 ∧ (s.drop n).head? = some 'n' then n + 1 else n

/-- A number: the longest of its forms. -/
def numeral : Lexeme := fun s =>
  max (max (radixNumber s) (pointNumber s)) (max (exponentNumber s) (digitNumber s))

/-! ## Strings, templates and patterns -/

/-- The length of an escape in a string or a template. -/
def escape : Lexeme
  | '\\' :: 'x' :: a :: b :: _ => if isHex a && isHex b then 4 else 0
  | '\\' :: 'u' :: '{' :: rest =>
    let digits := (rest.takeWhile isHex).length
    if digits ≠ 0 ∧ (rest.drop digits).head? = some '}' then digits + 4 else 0
  | '\\' :: 'u' :: a :: b :: c :: d :: _ =>
    if isHex a && isHex b && isHex c && isHex d then 6 else 0
  | '\\' :: c :: _ => if c = 'x' ∨ c = 'u' then 0 else 2
  | _ => 0

/-- The length of the rest of a string literal, with its closing quote. `skip` characters of an
escape are still to come. -/
def stringTail (quote : Char) : (skip n : Nat) → List Char → Nat
  | _, _, [] => 0
  | skip + 1, n, _ :: rest => stringTail quote skip (n + 1) rest
  | 0, n, c :: rest =>
    if c = quote then n + 1
    else if c = '\n' ∨ c = '\r' then 0
    else if c = '\\' then
      match escape (c :: rest) with
      | 0 => 0
      | k + 1 => stringTail quote k (n + 1) rest
    else stringTail quote 0 (n + 1) rest

/-- A string literal, on one line unless a backslash stands before the end of the line. -/
def stringLiteral : Lexeme
  | q :: rest => if q = '"' ∨ q = '\'' then stringTail q 0 1 rest else 0
  | [] => 0

/-- `n` and the length of the text of a template up to an escape, a hole or the end; zero if the
template is not closed. -/
def templateTail : Nat → List Char → Nat
  | _, [] => 0
  | n, '$' :: '{' :: _ => n
  | n, c :: rest => if c = '\x60' ∨ c = '\\' then n else templateTail (n + 1) rest

/-- Text of a template. -/
def templateText : Lexeme :=
  templateTail 0

/-- The length of the rest of a regular pattern with its closing slash. `inClass` says that it
stands in a class, where a slash closes nothing. -/
def patternTail (inClass escaped : Bool) : Nat → List Char → Nat
  | _, [] => 0
  | n, c :: rest =>
    if c = '\n' then 0
    else if escaped then patternTail inClass false (n + 1) rest
    else if c = '\\' then patternTail inClass true (n + 1) rest
    else if inClass then patternTail (c != ']') false (n + 1) rest
    else if c = '/' then n + 1
    else patternTail (c == '[') false (n + 1) rest

/-- A regular pattern with its flags. -/
def regularPattern : Lexeme
  | '/' :: rest =>
    match patternTail false false 0 rest with
    | 0 | 1 => 0
    | n => n + 1 + ((rest.drop n).takeWhile fun c => 'a' ≤ c && c ≤ 'z').length
  | _ => 0

/-! ## Tags -/

/-- Text between tags. -/
def tagText : Lexeme := fun s =>
  (s.takeWhile (!"<>\x7b\x7d&".toList.contains ·)).length

/-- A named or numbered character between tags. -/
def tagEntity : Lexeme
  | '&' :: rest =>
    let (before, run, most) := match rest with
      | '#' :: x :: tail =>
        if x = 'x' ∨ x = 'X' then (2, tail.takeWhile isHex, 6)
        else (1, (x :: tail).takeWhile Char.isDigit, 5)
      | _ => (0, rest.takeWhile Char.isAlpha, 30)
    let n := before + run.length
    if run.isEmpty ∨ run.length > most ∨ (rest.drop n).head? ≠ some ';' then 0 else n + 2
  | _ => 0

/-- The length of the rest of a string in a tag, with its closing quote. -/
def tagStringTail (quote : Char) : (skip n : Nat) → List Char → Nat
  | _, _, [] => 0
  | skip + 1, n, _ :: rest => tagStringTail quote skip (n + 1) rest
  | 0, n, c :: rest =>
    if c = quote then n + 1
    else if c = '&' then
      match rest with
      | d :: _ =>
        if d = '#' ∨ d.isAlpha then
          match tagEntity (c :: rest) with
          | 0 => 0
          | k + 1 => tagStringTail quote k (n + 1) rest
        else tagStringTail quote 1 (n + 1) rest
      | [] => 0
    else tagStringTail quote 0 (n + 1) rest

/-- A string in a tag, which may go over several lines. -/
def tagString : Lexeme
  | q :: rest => if q = '"' ∨ q = '\'' then tagStringTail q 0 1 rest else 0
  | [] => 0

/-- A name in a tag: any name, or ASCII letters and digits with hyphens. -/
def tagName : Lexeme := fun s =>
  let isPart (c : Char) := c.isAlphanum || c == '_' || c == '$' || c == '-'
  match s with
  | c :: _ =>
    if c.isDigit ∨ c = '-' then 0
    else
      let run := s.takeWhile isPart
      if run.contains '-' then max run.length (anyWord s) else anyWord s
  | [] => 0

/-- The line at the start of a script that names its interpreter. -/
def hashbang : Lexeme
  | '#' :: '!' :: rest => 2 + (rest.takeWhile (· != '\n')).length
  | _ => 0

/-! ## Semicolons that are left out -/

/-- Whether the operator `in` or `instanceof` follows the letter `i`, or something that is no name
by ASCII letters. -/
def startsIn (rest : List Char) : Bool :=
  match rest with
  | 'n' :: tail =>
    match tail with
    | c :: _ =>
      if !c.isAlpha then true
      else
        match after? "stanceof".toList tail with
        | some (d :: _) => !d.isAlpha
        | some [] => true
        | none => false
    | [] => true
  | _ => false

/-- Where a semicolon may be left out. -/
inductive Ending where
  /-- After an expression. -/
  | expression
  /-- After anything else but the head of a function. -/
  | plain
  /-- After the head of a function, which a body might follow. -/
  | signature
deriving DecidableEq, Inhabited

/-- Whether a semicolon is left out before a line that starts with this text. -/
def breaksBefore (e : Ending) : List Char → Bool
  | [] => true
  | c :: rest =>
    if "\x60,.;*%><=?^|&/:".toList.contains c then false
    else if c = '{' then e ≠ .signature
    else if c = '(' ∨ c = '[' then e ≠ .expression
    else if c = '+' then rest.head? == some '+'
    else if c = '-' then rest.head? == some '-'
    else if c = '!' then rest.head? != some '='
    else if c = 'i' then !startsIn rest
    else true

/-- Whether a semicolon is left out before this text: at the end of the script, before a closing
brace, and at the end of a line that the next line does not continue. -/
def breaksAt (e : Ending) (s : List Char) : Bool :=
  match s.drop (lineTrivia s) with
  | [] => true
  | '}' :: rest =>
    match rest.dropWhile isAsciiSpace with
    | ':' :: _ => e = .expression
    | _ => true
  | '\n' :: rest => breaksBefore e (rest.drop (nextTrivia rest))
  | _ => false

end Crossing.Script
