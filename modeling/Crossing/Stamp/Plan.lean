import Crossing.Options.Render
import Crossing.Script.Calls
import Crossing.Stamp.Edit

/-!
# Planning stamps

A stamp adds the boundary record of a call to the options of the call, which are its second
argument. Options that are missing are written anew, and an object literal is extended where the
record belongs. Any other second argument is left alone, and so is a call that has a record.
-/

namespace Crossing

/-- A call that is stamped. -/
structure Stamp where
  line : UInt32
  edits : List Edit
deriving DecidableEq, Inhabited

namespace Stamp

open Script Options

/-- The keys that lead from the options to the context. -/
def contextPath : List String := ["trpc", "context"]

/-- The key of the record in the context. -/
def recordKey : String := "__boundary"

/-- How slots are added to a literal. -/
inductive Layout where
  /-- The literal has no members: the slots go between its braces. -/
  | empty
  /-- The last member has a comma behind it. -/
  | trailingComma
  | afterLast
deriving DecidableEq, Inhabited

/-- The place in a literal where slots are added. -/
structure Anchor where
  offset : Nat
  layout : Layout
deriving DecidableEq, Inhabited

/-- The edit that adds slots at a place. -/
def Anchor.edit (a : Anchor) (slots : List String) : Edit :=
  let joined := ", ".intercalate slots
  .insertion a.offset (match a.layout with
    | .empty => " " ++ joined ++ " "
    | .trailingComma => " " ++ joined ++ ","
    | .afterLast => ", " ++ joined)

/-- The end of a tree that starts at a position. -/
def stop (part : Spot × Tree) : Nat :=
  (part.1.after part.2.text).offset

/-- The place where slots are added to a literal: behind its last member, or behind the brace or
the comma that ends what it holds. -/
def anchor? (spot : Spot) (object : Tree) : Option Anchor :=
  match (placedParts spot object).reverse with
  | closing :: last :: before =>
    if closing.2.isMark "\x7d" then
      some ⟨stop last,
        if before.isEmpty then .empty
        else if last.2.isMark "," then .trailingComma
        else .afterLast⟩
    else none
  | _ => none

/-- The key that a tree names; a computed one names none. -/
def key? : Tree → Option String
  | .leaf .property s => some (.ofList s)
  | .leaf .number s => some (.ofList s)
  | .leaf .string s => some (.ofList (Text.trimBy (fun c => c == '"' || c == '\'') s))
  | _ => none

mutual

/-- The value that a tree is in an options tree. -/
def liftValue (spot : Spot) : Tree → Value Anchor
  | .node .object ts =>
    match anchor? spot (.node .object ts) with
    | some a => .object (some a) (liftSlots spot ts)
    | none => .other
  | _ => .other

/-- The slots of the children of a literal. -/
def liftSlots (spot : Spot) : List Tree → Slots Anchor
  | [] => []
  | t :: ts =>
    (match t with
      | .leaf .trivia _ | .leaf .mark _ => []
      | .leaf .shorthand s => [⟨some (.ofList s), .other, false⟩]
      | .node .pair members => [liftPair spot none members]
      | _ => [⟨none, .other, false⟩]) ++
    liftSlots (spot.after t.text) ts

/-- The slot of a key and its value: the key is the first child that is no blank, and the value
the last one. -/
def liftPair (spot : Spot) (key : Option Tree) : List Tree → Slot (Value Anchor)
  | [] => ⟨key >>= key?, .other, false⟩
  | [t] => ⟨key >>= key?, liftValue spot t, false⟩
  | t :: u :: ts =>
    liftPair (spot.after t.text) (key.or (if t.isTrivia then none else some t)) (u :: ts)

end

/-- The options tree of an object literal. -/
def lift? (spot : Spot) (object : Tree) : Option (Literal Anchor) :=
  match liftValue spot object with
  | .object a slots => some ⟨a, slots⟩
  | _ => none

/-- Options that hold nothing but a record. -/
def freshOptions (record : String) : String :=
  ((⟨none, []⟩ : Literal Anchor).ensure contextPath recordKey record).2.render

/-- The edits that extend an object literal by a record; `none` if it has one, or if it holds
something else where the record belongs. -/
def extend? (spot : Spot) (object : Tree) (record : String) : Option (List Edit) := do
  let literal ← lift? spot object
  match literal.ensure contextPath recordKey record with
  | (.inserted, extended) => return extended.pending.map fun (a, slots) => a.edit slots
  | _ => none

/-- The arguments of a call with their positions, and the positions before and behind the last
bracket. -/
def arguments? (spot : Spot) (call : Tree) : Option (List (Spot × Tree) × Nat) :=
  match (placedParts spot call).getLast? with
  | some (spot, t) =>
    if t.hasKind .arguments then
      some ((placedParts spot t).filter fun p => !p.2.isLeaf .mark, stop (spot, t) - 1)
    else none
  | none => none

/-- The edits that stamp a call with a record; `none` if it cannot be stamped or has a stamp. -/
def edits? (spot : Spot) (call : Tree) (record : String) : Option (List Edit) := do
  let (args, closing) ← arguments? spot call
  match args with
  | [] => return [.insertion closing ("undefined, " ++ freshOptions record)]
  | [first] => return [.insertion (stop first) (", " ++ freshOptions record)]
  | _ :: (spot, second) :: _ =>
    if second.isLeaf .undefined then
      return [⟨spot.offset, stop (spot, second), freshOptions record⟩]
    else if second.hasKind .object then extend? spot second record
    else none

/-- The stamps of a script, where `record` gives the record of a line. -/
def plan (record : UInt32 → String) (script : Tree) : List Stamp :=
  (calls script).filterMap fun (spot, call) =>
    if isRemoteCall call then
      (edits? spot call (record spot.lineNumber)).map fun edits => ⟨spot.lineNumber, edits⟩
    else none

end Stamp

end Crossing
