import Crossing.Call.Basic
import Crossing.Call.Chain
import Crossing.Script.Reader

/-!
# Calls in scripts

The calls of a tree, in the order in which they start, a call before those inside of it; the
sites that a scan records; and the calls of remote procedures that stamping looks for.
-/

namespace Crossing.Script

mutual

/-- The calls at and below a tree, with their positions. -/
def callsAt (spot : Spot) : Tree → List (Spot × Tree)
  | .leaf _ _ => []
  | .node kind ts =>
    (if kind = .call then [(spot, .node kind ts)] else []) ++ callsIn spot ts

/-- The calls in trees that follow one another. -/
def callsIn (spot : Spot) : List Tree → List (Spot × Tree)
  | [] => []
  | t :: ts => callsAt spot t ++ callsIn (spot.after t.text) ts

end

/-- The calls of a script. -/
def calls (script : Tree) : List (Spot × Tree) :=
  callsAt .start script

/-- What a call calls. -/
def callee? (call : Tree) : Option Tree :=
  call.parts.head?

/-- The chain of a call on a name, a member, or one of these that is known to be there. -/
def chain? (call : Tree) : Option (List String) := do
  let callee ← callee? call
  if callee.isLeaf .word || callee.hasKind .member || callee.hasKind .nonNull then
    Chain.ofCallee? (.ofList callee.text)
  else none

/-- The number of a line. -/
def Spot.lineNumber (spot : Spot) : UInt32 := .ofNat spot.line

/-- The sites of the calls of a script that have a chain. -/
def sites (file : String) (script : Tree) : List CallSite :=
  (calls script).filterMap fun (spot, call) =>
    (chain? call).map fun chain => ⟨chain, file, spot.lineNumber⟩

/-- The tree under the markers that say that a value is there. -/
def withoutMarkers : Tree → Tree
  | .node .nonNull (t :: _) => withoutMarkers t
  | t => t

/-- The method of a call on a value, and whether the value is a member or an element of
another. -/
def method? (call : Tree) : Option (String × Bool) := do
  let callee ← callee? call
  if !callee.hasKind .member then none
  match callee.parts with
  | [receiver, _, .leaf .property method] =>
    let receiver := withoutMarkers receiver
    return (.ofList method, receiver.hasKind .member || receiver.hasKind .element)
  | _ => none

/-- Whether a call is one of a remote procedure. -/
def isRemoteCall (call : Tree) : Bool :=
  match method? call with
  | some (method, onMember) => isRemote method onMember
  | none => false

end Crossing.Script
