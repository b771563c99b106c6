import Crossing.Script.Tree

/-!
# Going through a tree with a cursor

A loop that comes to the nodes of a tree by the moves of a cursor, and keeps no account of where it
has been. It goes down to first children as long as there are any, and then up, until there is a
sibling to go on to. It ends where it cannot go up. What the cursor is made of is left open:
`Follows` says how it moves, and `ofTree` is one that moves so.
-/

namespace Crossing.Script

/-- The node of a tree at a place, with its position. A place is the numbers of the children that
lead to it. -/
def locate? (spot : Spot) (t : Tree) : (place : List Nat) → Option (Spot × Tree)
  | [] => some (spot, t)
  | i :: place => (placed spot t.children)[i]?.bind fun child => locate? child.1 child.2 place

mutual

/-- The number of nodes of a tree. -/
def Tree.size : Tree → Nat
  | .leaf _ _ => 1
  | .node _ ts => 1 + Tree.sizeOf ts

/-- The number of nodes of trees. -/
def Tree.sizeOf : List Tree → Nat
  | [] => 0
  | t :: ts => Tree.size t + Tree.sizeOf ts

end

/-- A cursor over a tree. -/
structure Cursor (γ : Type) where
  /-- The node that it is at, with its position. -/
  node : γ → Spot × Tree
  firstChild? : γ → Option γ
  nextSibling? : γ → Option γ
  parent? : γ → Option γ

namespace Cursor

variable {γ : Type}

/-- What is asked of a cursor that starts at the root of a tree, where `place` says where it is. -/
structure Follows (m : Cursor γ) (script : Tree) (place : γ → List Nat) : Prop where
  /-- It is at the node of its place. -/
  node : ∀ c, locate? .start script (place c) = some (m.node c)
  /-- It goes to the first child of its node, if there are children. -/
  firstChild : ∀ c, (m.firstChild? c).map place =
    if (m.node c).2.children = [] then none else some (place c ++ [0])
  /-- It goes to the next child of the same parent, if there is one. -/
  nextSibling : ∀ c p i, place c = p ++ [i] → (m.nextSibling? c).map place =
    if (locate? .start script (p ++ [i + 1])).isSome then some (p ++ [i + 1]) else none
  /-- It goes to the parent. -/
  parent : ∀ c p i, place c = p ++ [i] → (m.parent? c).map place = some p
  /-- At the root there is nothing around it. -/
  root : ∀ c, place c = [] → m.nextSibling? c = none ∧ m.parent? c = none

/-- A point that the loop passes. -/
inductive Point (γ : Type) where
  /-- At a node, before its children. -/
  | arrived (c : γ)
  /-- At a node, behind its children. -/
  | leaving (c : γ)

/-- The next point of the loop, if it has not ended. -/
def next? (m : Cursor γ) : Point γ → Option (Point γ)
  | .arrived c =>
    match m.firstChild? c with
    | some d => some (.arrived d)
    | none => some (.leaving c)
  | .leaving c =>
    match m.nextSibling? c with
    | some d => some (.arrived d)
    | none =>
      match m.parent? c with
      | some d => some (.leaving d)
      | none => none

/-- What is visited at a point: a call that the loop arrives at. -/
def visit (m : Cursor γ) : Point γ → List γ
  | .arrived c => if (m.node c).2.hasKind .call then [c] else []
  | .leaving _ => []

/-- The calls that are visited from a point on; `none` if the loop passes more points than are
allowed. -/
def walk? (m : Cursor γ) : (points : Nat) → Point γ → Option (List γ)
  | 0, _ => none
  | n + 1, here =>
    match m.next? here with
    | some there => (m.walk? n there).map (m.visit here ++ ·)
    | none => some (m.visit here)

/-! ### Places as cursors -/

/-- A place of a tree. -/
abbrev Place (script : Tree) : Type :=
  { place : List Nat // (locate? .start script place).isSome }

/-- A place, if the tree has it. -/
def place? (script : Tree) (place : List Nat) : Option (Place script) :=
  if h : (locate? .start script place).isSome then some ⟨place, h⟩ else none

/-- The cursor that is nothing but its place in a tree. -/
def ofTree (script : Tree) : Cursor (Place script) where
  node c := (locate? .start script c.val).get c.property
  firstChild? c := place? script (c.val ++ [0])
  nextSibling? c := c.val.getLast?.bind fun i => place? script (c.val.dropLast ++ [i + 1])
  parent? c := if c.val = [] then none else place? script c.val.dropLast

end Cursor

end Crossing.Script
