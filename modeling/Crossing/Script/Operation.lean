import Crossing.Script.Tree

/-!
# Operations

How an operator and its operand become a node. Type arguments bind their call less tightly than
most operators do: `await f<T>(x)` is the call of `await f` with the type `T`, while `await f(x)`
awaits the call. What is read after that call, members and further calls, follows it; but where
the whole would then be no call, the operand stays whole and the operator stands in front of it.
-/

namespace Crossing.Script

/-- Whether a node is made by what follows its first child. -/
def Kind.follows : Kind → Bool
  | .call | .member | .element | .nonNull => true
  | _ => false

namespace Operation

open Crossing.Script.Tree

/-- Whether a call has type arguments right after what it calls. -/
def hasTypeArguments (k : Kind) (rest : List Tree) : Bool :=
  k == .call &&
    match rest.filter (!·.isTrivia) with
    | t :: _ => t.hasKind .typeArguments
    | [] => false

/-- Whether a node of a kind that holds the operation is preferred to the operation on all of it:
always a call, and a member or an element unless the operator is `await`. -/
def isPreferred (operator : List Tree) : Kind → Bool
  | .call => true
  | .member | .element =>
    match operator with
    | .leaf .keyword s :: _ => s != "await".toList
    | _ => true
  | _ => false

/-- The operation on a tree, and the tree with the operation in the place of what the operator
takes of it, if that is not all. -/
def split (operator : List Tree) : Tree → Tree × Option Tree
  | .node kind (base :: rest) =>
    let whole := .node .other (operator ++ [.node kind (base :: rest)])
    if kind.follows then
      let (inner, outer) := split operator base
      match (if hasTypeArguments kind rest then some inner else outer) with
      | some first =>
        let grown := .node kind (first :: rest)
        (if isPreferred operator kind then grown else whole, some grown)
      | none => (whole, none)
    else (whole, none)
  | t => (.node .other (operator ++ [t]), none)

/-- The operation of an operator on its operand. -/
def apply (operator : List Tree) (operand : Tree) : Tree :=
  (split operator operand).1

/-- The operation on all of a tree has the text of the operator and of the tree. -/
theorem text_whole (op : List Tree) (t : Tree) :
    (Tree.node .other (op ++ [t])).text = textOf op ++ t.text := by
  simp [text, textOf, textOf_append]

/-- Both trees that an operation can come to have the text of the operator and of its operand. -/
theorem text_split (op : List Tree) (t : Tree) :
    (split op t).1.text = textOf op ++ t.text ∧
      ∀ u, (split op t).2 = some u → u.text = textOf op ++ t.text := by
  fun_induction split op t with
  | case1 kind base rest whole _ inner outer hsplit first hfirst grown ih =>
    rw [hsplit] at ih
    have hgrown : grown.text = textOf op ++ (node kind (base :: rest)).text := by
      have htext : first.text = textOf op ++ base.text := by
        split at hfirst
        · rw [← Option.some.inj hfirst, ih.1]
        · exact ih.2 first hfirst
      simp [grown, text, textOf, htext]
    refine ⟨?_, fun u hu => Option.some.inj hu ▸ hgrown⟩
    dsimp only
    split
    · exact hgrown
    · exact text_whole op _
  | case2 | case3 | case4 => exact ⟨text_whole op _, fun u hu => by contradiction⟩

/-- An operation keeps the text of its parts. -/
theorem text_apply (op : List Tree) (t : Tree) : (apply op t).text = textOf op ++ t.text :=
  (text_split op t).1

end Operation

/-- What trees become as one node. -/
inductive Shape where
  /-- A node of a kind. -/
  | kind (k : Kind)
  /-- An operation; the last tree is the operand. -/
  | operation
deriving DecidableEq, Inhabited

/-- The node of the trees. -/
def Shape.build (ts : List Tree) : Shape → Tree
  | .kind k => .node k ts
  | .operation =>
    match ts.getLast? with
    | some operand => Operation.apply ts.dropLast operand
    | none => .node .other []

end Crossing.Script
