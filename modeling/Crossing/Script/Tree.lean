import Crossing.Text.Utf8

/-!
# Script trees

A module as a tree that holds its whole text: the leaves, read from left to right, are the text,
blanks and comments included. Only those nodes have a kind of their own that a question about
calls needs. `Spot` is a position in a text, and `placed` gives the children of a node with their
positions.
-/

namespace Crossing.Script

open Text

/-- What a leaf is. -/
inductive Leaf where
  /-- Blanks and comments. -/
  | trivia
  /-- A comment as pages have them. It stands among the members of a list. -/
  | remark
  /-- A sign of punctuation or an operator. -/
  | mark
  | keyword
  /-- A name that stands for a value. -/
  | word
  /-- The name `undefined` where it stands for a value. -/
  | undefined
  /-- A name after a dot, or the key of a slot. -/
  | property
  /-- A name with `#` in front. -/
  | privateName
  /-- A slot of an object literal that is a name alone. -/
  | shorthand
  | number
  | string
  | pattern
  /-- Text of a template or between tags. -/
  | text
deriving DecidableEq, Inhabited

/-- What a node is. -/
inductive Kind where
  | module
  | call
  | member
  | element
  | nonNull
  | arguments
  | typeArguments
  | template
  | object
  | pair
  | array
  | group
  /-- A pattern that is assigned to. -/
  | target
  | other
deriving DecidableEq, Inhabited

/-- A tree over a text. -/
inductive Tree where
  | leaf (kind : Leaf) (text : List Char)
  | node (kind : Kind) (children : List Tree)
deriving Inhabited

namespace Tree

mutual

/-- Whether two trees are the same. -/
def decEq : (t u : Tree) → Decidable (t = u)
  | leaf k s, leaf k' s' => decidable_of_iff (k = k' ∧ s = s') (by rw [leaf.injEq])
  | node k ts, node k' us =>
    have := decEqAll ts us
    decidable_of_iff (k = k' ∧ ts = us) (by rw [node.injEq])
  | leaf .., node .. => isFalse (by simp)
  | node .., leaf .. => isFalse (by simp)

/-- Whether two lists of trees are the same. -/
def decEqAll : (ts us : List Tree) → Decidable (ts = us)
  | [], [] => isTrue rfl
  | t :: ts, u :: us =>
    have := decEq t u
    have := decEqAll ts us
    decidable_of_iff (t = u ∧ ts = us) (by rw [List.cons.injEq])
  | [], _ :: _ => isFalse (by simp)
  | _ :: _, [] => isFalse (by simp)

end

instance : DecidableEq Tree := decEq

/-- Whether a tree is made of blanks and comments. -/
def isTrivia : Tree → Bool
  | leaf .trivia _ | leaf .remark _ => true
  | _ => false

/-- Whether a tree is passed over among the members of a list: blanks and comments, but no
remark. -/
def isFiller : Tree → Bool
  | leaf .trivia _ => true
  | _ => false

/-- Whether a tree is a node of a kind. -/
def hasKind (k : Kind) : Tree → Bool
  | node k' _ => k = k'
  | leaf .. => false

/-- Whether a tree is a leaf of a kind. -/
def isLeaf (l : Leaf) : Tree → Bool
  | leaf l' _ => l = l'
  | node .. => false

/-- Whether a tree is the given sign. -/
def isMark (sign : String) : Tree → Bool
  | leaf .mark text => text == sign.toList
  | _ => false

/-- The children of a tree. -/
def children : Tree → List Tree
  | node _ ts => ts
  | leaf .. => []

mutual

/-- The text of a tree. -/
def text : Tree → List Char
  | leaf _ s => s
  | node _ ts => textOf ts

/-- The text of trees that follow one another. -/
def textOf : List Tree → List Char
  | [] => []
  | t :: ts => text t ++ textOf ts

end

/-- The text of trees is the text of the first ones and then that of the others. -/
theorem textOf_append (ts us : List Tree) : textOf (ts ++ us) = textOf ts ++ textOf us := by
  induction ts with
  | nil => rfl
  | cons t ts ih => simp [textOf, ih]

/-- The children that are no blanks and comments. -/
def parts (t : Tree) : List Tree :=
  t.children.filter (!·.isTrivia)

end Tree

/-- A position in a text. -/
structure Spot where
  /-- The bytes before it. -/
  offset : Nat
  /-- The line, counted from one; only line feeds end a line. -/
  line : Nat
deriving DecidableEq, Inhabited

namespace Spot

/-- The start of a text. -/
def start : Spot := ⟨0, 1⟩

/-- The position after a text. -/
def after (spot : Spot) (s : List Char) : Spot :=
  ⟨spot.offset + Utf8.width s, spot.line + s.count '\n'⟩

end Spot

/-- Trees that follow one another with the positions where they start. -/
def placed (spot : Spot) : List Tree → List (Spot × Tree)
  | [] => []
  | t :: ts => (spot, t) :: placed (spot.after t.text) ts

/-- The children of a tree that are not passed over, with their positions. -/
def placedParts (spot : Spot) (t : Tree) : List (Spot × Tree) :=
  (placed spot t.children).filter (!·.2.isFiller)

end Crossing.Script
