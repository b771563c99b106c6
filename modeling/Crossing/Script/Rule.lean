import Crossing.Script.Lexeme
import Crossing.Script.Operation

/-!
# Grammar rules

Rules as data, and the one function that reads a text by them. A rule reads a text from its start
and gives trees and the rest; the texts of the trees and the rest together are the text that was
read. Of several rules the first that reads is taken, a repetition goes on as long as it can, and
nothing is tried again. `chain` nests to the left: what has been read so far becomes the first
child of the next node. Blanks and comments in front of a node stay outside of it.
-/

namespace Crossing.Script

/-- What a rule knows of its surroundings. -/
structure Mode where
  /-- Whether a statement may end here, so that a line break can part two statements. -/
  ends : Bool
  /-- Whether the head of an arrow function may name the type of its value. -/
  arrowTypes : Bool
deriving DecidableEq, Inhabited

/-- A rule over the symbols `σ`. -/
inductive Rule (σ : Type) where
  /-- A lexeme, with blanks and comments in front. -/
  | lexeme (leaf : Leaf) (l : Lexeme)
  /-- A lexeme with nothing in front. -/
  | glued (leaf : Leaf) (l : Lexeme)
  /-- Nothing, if the text that follows satisfies a test. -/
  | test (p : Mode → List Char → Bool)
  | sequence (rules : List (Rule σ))
  | either (rules : List (Rule σ))
  | many (rule : Rule σ)
  | optional (rule : Rule σ)
  /-- Nothing, if the rule could read. -/
  | ahead (rule : Rule σ)
  /-- Nothing, if the rule could not read. -/
  | without (rule : Rule σ)
  | symbol (s : σ)
  | node (shape : Shape) (rule : Rule σ)
  /-- A tree, and as long as a tail reads, a node of it and what the tail reads. A tail asks what
  the tree is that it follows. -/
  | chain (head : Rule σ) (tails : List (Shape × (Tree → Bool) × Rule σ))
  | within (change : Mode → Mode) (rule : Rule σ)

/-- What a rule reads: trees and the rest of the text. -/
abbrev Reading := Option (List Tree × List Char)

namespace Reading

/-- The first `n` characters as a leaf, behind the leaves before it. -/
def leaf (before : List Tree) (kind : Leaf) (n : Nat) (s : List Char) : Reading :=
  if n = 0 then none else some (before ++ [.leaf kind (s.take n)], s.drop n)

/-- A leaf of the first `n` characters, if there are any. -/
def triviaLeaf (n : Nat) (s : List Char) : List Tree :=
  if n = 0 then [] else [.leaf .trivia (s.take n)]

/-- One reading after another. -/
def sequence {ρ : Type} (read : ρ → List Char → Reading) : List ρ → List Char → Reading
  | [], s => some ([], s)
  | r :: rest, s =>
    match read r s with
    | some (ts, s') =>
      match sequence read rest s' with
      | some (us, s'') => some (ts ++ us, s'')
      | none => none
    | none => none

/-- The first reading that there is. -/
def either {ρ : Type} (read : ρ → List Char → Reading) : List ρ → List Char → Reading
  | [], _ => none
  | r :: rest, s =>
    match read r s with
    | some found => some found
    | none => either read rest s

/-- Readings of one sort as long as they take something, at most `n` of them, behind the trees
before them. -/
def many (read : List Char → Reading) : (n : Nat) → List Tree → List Char → Reading
  | 0, before, s => some (before, s)
  | n + 1, before, s =>
    match read s with
    | some ([], _) | none => some (before, s)
    | some (ts, s') => many read n (before ++ ts) s'

/-- The blanks and comments that trees start with, and the others. -/
def splitTrivia (ts : List Tree) : List Tree × List Tree :=
  (ts.takeWhile Tree.isTrivia, ts.dropWhile Tree.isTrivia)

/-- Trees as one node; blanks and comments in front stay outside. -/
def wrap (shape : Shape) (ts : List Tree) : List Tree :=
  match splitTrivia ts with
  | (_, []) => ts
  | (before, inner) => before ++ [shape.build inner]

/-- The first tail that follows a tree, as the shape of the new node and what the tail reads. -/
def tail {ρ : Type} (read : ρ → List Char → Reading) (base : Tree) (s : List Char) :
    List (Shape × (Tree → Bool) × ρ) → Option (Shape × List Tree × List Char)
  | [] => none
  | (shape, follows, r) :: rest =>
    match (if follows base then read r s else none) with
    | some ([], _) | none => tail read base s rest
    | some (ts, s') => some (shape, ts, s')

/-- A tree with the tails that follow it, at most `n` of them. -/
def grow {ρ : Type} (read : ρ → List Char → Reading)
    (tails : List (Shape × (Tree → Bool) × ρ)) : (n : Nat) → Tree → List Char → Tree × List Char
  | 0, base, s => (base, s)
  | n + 1, base, s =>
    match tail read base s tails with
    | some (shape, ts, s') => grow read tails n (shape.build (base :: ts)) s'
    | none => (base, s)

/-- What a chain reads: trees of which the last one grows. -/
def chain {ρ : Type} (read : ρ → List Char → Reading) (n : Nat)
    (tails : List (Shape × (Tree → Bool) × ρ)) (head : Reading) : Reading :=
  match head with
  | some (ts, s) =>
    match ts.getLast? with
    | some base =>
      let (tree, rest) := grow read tails n base s
      some (ts.dropLast ++ [tree], rest)
    | none => none
  | none => none

end Reading

/-- Reads a text by a rule. The fuel bounds the depth of rules within rules. -/
def Rule.read {σ : Type} (grammar : σ → Rule σ) : (fuel : Nat) → Rule σ → Mode → List Char → Reading
  | 0, _, _, _ => none
  | fuel + 1, rule, mode, s =>
    match rule with
    | .lexeme kind l =>
      let n := trivia s
      let rest := s.drop n
      Reading.leaf (Reading.triviaLeaf n s) kind (l rest) rest
    | .glued kind l => Reading.leaf [] kind (l s) s
    | .test p => if p mode s then some ([], s) else none
    | .sequence rules => Reading.sequence (fun r s => read grammar fuel r mode s) rules s
    | .either rules => Reading.either (fun r s => read grammar fuel r mode s) rules s
    | .many r => Reading.many (fun s => read grammar fuel r mode s) fuel [] s
    | .optional r => (read grammar fuel r mode s).or (some ([], s))
    | .ahead r => if (read grammar fuel r mode s).isSome then some ([], s) else none
    | .without r => if (read grammar fuel r mode s).isSome then none else some ([], s)
    | .symbol σ => read grammar fuel (grammar σ) mode s
    | .node shape r =>
      (read grammar fuel r mode s).map fun (ts, rest) => (Reading.wrap shape ts, rest)
    | .chain head tails =>
      Reading.chain (fun r s => read grammar fuel r mode s) fuel tails
        (read grammar fuel head mode s)
    | .within change r => read grammar fuel r (change mode) s

end Crossing.Script
