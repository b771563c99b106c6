/-!
# Glob patterns

A pattern as a list of tokens, and its reader. `?` stands for a byte and `*` for any run of bytes,
slashes included. `**` as a whole component stands for any number of components. A class stands
for one of its bytes, or one outside of it after `!` or `^`. Alternatives stand in braces and may
be nested. A backslash takes the meaning from the next character.
-/

namespace Crossing.Glob

/-- A part of a pattern. -/
inductive Token where
  | literal (c : Char)
  /-- One byte. -/
  | any
  /-- Any run of bytes. -/
  | run
  /-- `**/` at the start: nothing, or components and the slash after them. -/
  | leading
  /-- `/**` at the end: a slash and whatever follows. -/
  | trailing
  /-- `/**/` inside: a slash, or components between slashes. -/
  | between
  /-- One byte of the ranges, or with `negated` one byte outside of them. -/
  | class (negated : Bool) (ranges : List (Char × Char))
  | alternatives (branches : List (List Token))
deriving Inhabited

/-- Why a text is no pattern. -/
inductive PatternError where
  | unclosedClass
  | invalidRange (first last : Char)
  | unopenedAlternatives
  | unclosedAlternatives
  | danglingEscape
deriving DecidableEq, Inhabited

/-- What is said of a pattern that cannot be read. -/
def PatternError.message : PatternError → String
  | unclosedClass => "unclosed character class; missing ']'"
  | invalidRange first last =>
    .ofList ("invalid range; '".toList ++ first :: "' > '".toList ++ [last, '\''])
  | unopenedAlternatives =>
    "unopened alternate group; missing '\x7b' (maybe escape '\x7d' with '[\x7d]'?)"
  | unclosedAlternatives =>
    "unclosed alternate group; missing '\x7d' (maybe escape '\x7b' with '[\x7b]'?)"
  | danglingEscape => "dangling '\\'"

/-- The ranges of a class up to its bracket and the text after it. `ranges` are those before, the
last one first, and `hyphen` says that a hyphen stands after the last one. -/
def readClass (ranges : List (Char × Char)) (first hyphen : Bool) :
    List Char → Except PatternError (List (Char × Char) × List Char)
  | [] => .error .unclosedClass
  | c :: rest =>
    if c = ']' ∧ !first then
      .ok (if hyphen then (('-', '-') :: ranges).reverse else ranges.reverse, rest)
    else if c = '-' ∧ !first ∧ !hyphen then readClass ranges false true rest
    else
      match hyphen, ranges with
      | true, (low, _) :: before =>
        if c < low then .error (.invalidRange low c)
        else readClass ((low, c) :: before) false false rest
      | _, _ => readClass ((c, c) :: ranges) false false rest

/-- The class after an opening bracket. -/
def takeClass (s : List Char) : Except PatternError (Token × List Char) := do
  let (negated, s) := match s with
    | '!' :: rest => (true, rest)
    | '^' :: rest => (true, rest)
    | _ => (false, s)
  let (ranges, rest) ← readClass [] true false s
  return (.class negated ranges, rest)

/-- A group of alternatives that is being read: the branches before the current one, the last one
first, and the tokens of the current one, the last one first. -/
structure Group where
  branches : List (List Token)
  current : List Token

/-- What a reader of a pattern has read: the groups that are open, the innermost first. The last
of them is the pattern itself. -/
structure Progress where
  inner : List Group
  outer : List Token

namespace Progress

/-- The tokens of the branch that is being read, the last one first. -/
def current (p : Progress) : List Token :=
  match p.inner with
  | g :: _ => g.current
  | [] => p.outer

/-- The same with other tokens in the branch that is being read. -/
def withCurrent (tokens : List Token) (p : Progress) : Progress :=
  match p.inner with
  | g :: rest => { p with inner := { g with current := tokens } :: rest }
  | [] => { p with outer := tokens }

/-- The same with one more token. -/
def push (t : Token) (p : Progress) : Progress :=
  p.withCurrent (t :: p.current)

/-- The same with a new group. -/
def opened (p : Progress) : Progress :=
  { p with inner := ⟨[], []⟩ :: p.inner }

/-- The same with a new branch in the innermost group; outside of groups a comma is a literal. -/
def comma (p : Progress) : Progress :=
  match p.inner with
  | g :: rest => { p with inner := ⟨g.current.reverse :: g.branches, []⟩ :: rest }
  | [] => p.push (.literal ',')

/-- The same with the innermost group closed. -/
def close (p : Progress) : Except PatternError Progress :=
  match p.inner with
  | g :: rest =>
    .ok ({ p with inner := rest }.push
      (.alternatives (g.current.reverse :: g.branches).reverse))
  | [] => .error .unopenedAlternatives

/-- The same after a `**` that stands behind the character `before`, and the text after it. -/
def doubleStar (before : Option Char) (s : List Char) (p : Progress) : Progress × List Char :=
  let plain := ((p.push .run).push .run, s)
  if p.current.isEmpty then
    match s with
    | [] => (p.push .leading, [])
    | '/' :: rest => (p.push .leading, rest)
    | _ => plain
  else if before ≠ some '/' ∧ (p.inner.isEmpty ∨ (before ≠ some ',' ∧ before ≠ some '{')) then
    plain
  else
    let instead (t : Token) :=
      match p.current with
      | .leading :: _ => p
      | .trailing :: _ => p
      | tokens => p.withCurrent (t :: tokens.tail)
    match s with
    | [] => (instead .trailing, [])
    | '/' :: rest => (instead .between, rest)
    | c :: _ => if (c = ',' ∨ c = '}') ∧ !p.inner.isEmpty then (instead .trailing, s) else plain

end Progress

/-- Reads a pattern behind the character `before`. Every step reads a character, so a `fuel` above
the number of characters is enough. -/
def readFrom : (fuel : Nat) → (before : Option Char) → Progress → List Char →
    Except PatternError Progress
  | 0, _, p, _ => .ok p
  | _ + 1, _, p, [] => .ok p
  | fuel + 1, before, p, c :: rest =>
    match c with
    | '?' => readFrom fuel (some c) (p.push .any) rest
    | '*' =>
      match rest with
      | '*' :: rest =>
        let (p, left) := p.doubleStar before rest
        let before := if left.length < rest.length then some '/' else some '*'
        readFrom fuel before p left
      | _ => readFrom fuel (some c) (p.push .run) rest
    | '[' => do
      let (t, rest) ← takeClass rest
      readFrom fuel (some ']') (p.push t) rest
    | '{' => readFrom fuel (some c) p.opened rest
    | '}' => do readFrom fuel (some c) (← p.close) rest
    | ',' => readFrom fuel (some c) p.comma rest
    | '\\' =>
      match rest with
      | e :: rest => readFrom fuel (some e) (p.push (.literal e)) rest
      | [] => .error .danglingEscape
    | c => readFrom fuel (some c) (p.push (.literal c)) rest

/-- The tokens of a pattern. -/
def parse (pattern : List Char) : Except PatternError (List Token) := do
  let p ← readFrom (pattern.length + 1) none ⟨[], []⟩ pattern
  if p.inner.isEmpty then return p.outer.reverse else throw .unclosedAlternatives

end Crossing.Glob
