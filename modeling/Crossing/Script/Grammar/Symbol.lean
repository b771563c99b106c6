import Crossing.Script.Rule

/-!
# Symbols and common rules

The names of the rules that refer to one another, and the rules that the parts of the grammar
share: words, signs, lists, and the places where a semicolon may be left out.
-/

namespace Crossing.Script

/-- The language of a script: with tags, or with type assertions in angle brackets. -/
inductive Dialect where
  | plain
  | tagged
deriving DecidableEq, Inhabited

/-- The rules that others refer to. -/
inductive Symbol where
  | statement
  | block
  | declarators
  | declaration
  | expression
  | operand
  | term
  | access
  | primary
  | arguments
  | template
  | binding
  | parameters
  | signature
  | classBody
  | propertyName
  | tag
  | type
  | typeOperand
  | typeArguments
  | typeParameters
  | objectType
deriving DecidableEq, Inhabited

namespace Grammar

/-- A rule of the grammar of scripts. -/
abbrev Clause := Rule Symbol

/-- A rule that is referred to by its name. -/
def ref (s : Symbol) : Clause := .symbol s

/-- Rules that follow one another. -/
def seq (rules : List Clause) : Clause := .sequence rules
/-- The first of several rules that reads the text. -/
def alt (rules : List Clause) : Clause := .either rules
/-- A rule that may be left out. -/
def opt (rule : Clause) : Clause := .optional rule
/-- A rule of which a node is made. -/
def node (kind : Kind) (rule : Clause) : Clause := .node (.kind kind) rule
/-- Rules that follow one another, of which a node is made that no question about calls needs. -/
def other (rules : List Clause) : Clause := node .other (.sequence rules)

/-- An operator and its operand. -/
def operation (operator operand : Clause) : Clause :=
  .node .operation (.sequence [operator, operand])

/-- What may follow in a chain: rules, the shape of the node that is made, and a test of what they
follow. -/
abbrev Tail := Shape × (Tree → Bool) × Clause

/-- What may follow any tree. -/
def tail (shape : Shape) (rules : List Clause) : Tail := (shape, fun _ => true, seq rules)

/-- A word of the language. -/
def word (w : String) : Clause := .lexeme .keyword (keyword w)

/-- A sign of expressions. -/
def sign (s : String) : Clause := .lexeme .mark (oneOf [s])

/-- A sign that may be the start of a longer one. -/
def start (s : String) : Clause := .lexeme .mark (exactly s)

/-- A name, whatever else the word may mean elsewhere. -/
def name : Clause := .lexeme .word anyWord

/-- A name that is none of the given words. -/
def nameExcept (words : List String) : Clause :=
  .lexeme .word (wordExcept (words.map String.toList))

/-- The name of a member. -/
def property : Clause := .lexeme .property anyWord

/-- A name with `#` in front. -/
def privateName : Clause := .lexeme .privateName hashWord
/-- A number. -/
def number : Clause := .lexeme .number numeral
/-- A string. -/
def string : Clause := .lexeme .string stringLiteral

/-- Items with commas between them, and perhaps a comma at the end. -/
def commaList (item : Clause) : Clause := seq [item, .many (seq [sign ",", item]), opt (sign ",")]

/-- Remarks where an item may stand, so that no operator could be meant. -/
def remarks : Clause := .many (.lexeme .remark remark)

/-- Items with commas between them, any of which may be missing. -/
def holeList (item : Clause) : Clause :=
  seq [remarks, opt item, .many (seq [sign ",", remarks, opt item])]

/-- The rule where no statement can end, and an arrow function may name its type. -/
def enclosed (rule : Clause) : Clause := .within (fun _ => ⟨false, true⟩) rule

/-- The rule where no statement can end. -/
def unended (rule : Clause) : Clause := .within (fun m => { m with ends := false }) rule

/-- The rule where a statement may end. -/
def ended (rule : Clause) : Clause := .within (fun _ => ⟨true, true⟩) rule

/-- A rule in brackets. -/
def between (opening closing : String) (rule : Clause) : Clause :=
  seq [sign opening, enclosed rule, sign closing]

/-- Nothing, unless a line break ends the statement here. -/
def unbroken (e : Ending) : Clause := .test fun m s => !(m.ends && breaksAt e s)

/-- A semicolon, or a place where it may be left out. -/
def semicolon (e : Ending) : Clause := alt [sign ";", .test fun _ s => breaksAt e s]

/-- Nothing, if the text after blanks and comments satisfies a test. -/
def next (p : List Char → Bool) : Clause := .test fun _ s => p (s.drop (trivia s))

/-- Whether a text starts with a name, a string, a number or a bracket that gives a key. -/
def startsKey (s : List Char) : Bool :=
  anyWord s ≠ 0 || match s with
    | c :: _ => c.isDigit || "\"'[#*\\".toList.contains c
    | [] => false

/-- Whether a text starts with what gives a name to a parameter. -/
def startsBinding (s : List Char) : Bool :=
  anyWord s ≠ 0 || match s with
    | c :: _ => c == '[' || c == '{'
    | [] => false

/-- A word in front of a key, where it is no key itself. -/
def modifier (w : String) : Clause := seq [word w, unbroken .plain, next startsKey]

/-- The key of a slot or a member. -/
def propertyName : Clause :=
  alt [property, privateName, string, number,
    node .other (between "[" "]" (ref .expression))]

/-- Expressions with commas between them. -/
def expressions : Clause :=
  .chain (ref .expression) [tail (.kind .other) [sign ",", ref .expression]]

/-- The type of a name, after its colon. -/
def typeAnnotation : Clause := seq [sign ":", ref .type]

/-- The value that a name starts with. -/
def initializer : Clause := seq [sign "=", ref .expression]

end Grammar

end Crossing.Script
