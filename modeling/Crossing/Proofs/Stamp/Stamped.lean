import Crossing.Proofs.Script.Split
import Crossing.Stamp.Transform

/-!
# Stamped trees

The tree of a script with a record in every call of a remote procedure that takes one. It is made of
the tree of the script, without regard to texts and offsets: the arguments of a call gain a tree, or
a literal among them gains a member. Where a remark ends the place for the record, the record becomes
a part of the remark, and is lost.
-/

namespace Crossing.Stamp

open Script Script.Tree

/-! ## What is written -/

/-- A blank. -/
def blank : Script.Tree := .leaf .trivia [' ']

/-- A sign. -/
def mark (sign : String) : Script.Tree := .leaf .mark sign.toList

/-- A slot of an object literal. -/
def slotTree (key : String) (value : Script.Tree) : Script.Tree :=
  .node .pair [.leaf .property key.toList, mark ":", blank, value]

/-- Slots with commas between them. -/
def listed : List Script.Tree → List Script.Tree
  | [] => []
  | [slot] => [slot]
  | slot :: rest => slot :: mark "," :: blank :: listed rest

/-- An object literal. -/
def literalTree (slots : List Script.Tree) : Script.Tree :=
  .node .object (mark "\x7b" :: blank :: (listed slots ++ [blank, mark "\x7d"]))

/-- A value below levels of keys. -/
def nested : (path : List String) → (value : Script.Tree) → Script.Tree
  | [], value => value
  | key :: path, value => literalTree [slotTree key (nested path value)]

/-- The keys that lead from the options to the record. -/
def recordPath : List String := contextPath ++ [recordKey]

/-- The record of a call. -/
def recordTree (file : String) (side : Side) (line : UInt32) : Script.Tree :=
  literalTree [slotTree "file" (.leaf .string (Json.quote file).toList),
    slotTree "line" (.leaf .number (Text.Decimal.ofNat line.toNat)),
    slotTree "side" (.leaf .string ("\"" ++ side.name ++ "\"").toList)]

/-! ## Where it is written -/

/-- Trees with a text in front of them, which is made of blanks. -/
def glue : (s : List Char) → List Script.Tree → List Script.Tree
  | [], ts => ts
  | s, .leaf .trivia gap :: ts => .leaf .trivia (s ++ gap) :: ts
  | s, ts => .leaf .trivia s :: ts

/-- Trees, and a text of blanks, behind a tree and in front of others, and whether they are lost: a
remark takes everything that is written behind it. -/
def insertBehind (written : List Script.Tree) (gap : List Char) (last : Script.Tree)
    (after : List Script.Tree) : List Script.Tree × Bool :=
  match last with
  | .leaf .remark s => (.leaf .remark (s ++ textOf written ++ gap) :: after, true)
  | last => (last :: (written ++ glue gap after), false)

/-- The members of a literal with their signs: what stands before the last of them, the last of them,
and what follows it. The literal must be closed by its brace. -/
def seat? (ts : List Script.Tree) :
    Option (List Script.Tree × Script.Tree × List Script.Tree) := do
  let (members, closing, after) ← splitLast? (!·.isFiller) ts
  if closing.isMark "\x7d" then
    let (before, last, gap) ← splitLast? (!·.isFiller) members
    return (before, last, gap ++ closing :: after)
  else none

/-- How slots are added behind the last member of a literal. -/
def layoutOf (before : List Script.Tree) (last : Script.Tree) : Layout :=
  if before.all (·.isFiller) then .empty
  else if last.isMark "," then .trailingComma
  else .afterLast

/-- What is written for a slot. -/
def Layout.written (slot : Script.Tree) : Layout → List Script.Tree × List Char
  | .empty => ([blank, slot], [' '])
  | .trailingComma => ([blank, slot, mark ","], [])
  | .afterLast => ([mark ",", blank, slot], [])

/-- The key of a pair: its first child that is no blank, unless it is the last child. -/
def pairKey? : List Script.Tree → Option String
  | t :: u :: ts => if t.isTrivia then pairKey? (u :: ts) else key? t
  | _ => none

/-- Whether a member of a literal is a slot of a key. -/
def isAt (key : String) : Script.Tree → Bool
  | .leaf .shorthand s => some (String.ofList s) = some key
  | .node .pair ts => pairKey? ts = some key
  | _ => false

/-- The children of a literal with one slot more. -/
def addSlot (slot : Script.Tree) (before : List Script.Tree) (last : Script.Tree)
    (after : List Script.Tree) : List Script.Tree × Bool :=
  let (written, gap) := (layoutOf before last).written slot
  let (us, lost) := insertBehind written gap last after
  (before ++ us, lost)

/-- The value of a pair, and what stands before it. -/
def pairParts? : Script.Tree → Option (List Script.Tree × Script.Tree)
  | .node .pair ts => (splitLast? (fun _ => true) ts).map fun (front, value, _) => (front, value)
  | _ => none

/-- A literal with a record at the end of a path of keys, and whether it is lost there; `none` if the
literal has it, or if it has something else on the path. -/
def extendTree? (record : Script.Tree) :
    (path : List String) → Script.Tree → Option (Script.Tree × Bool)
  | key :: path, .node .object ts => do
    let (before, last, after) ← seat? ts
    match splitLast? (isAt key) ts with
    | none =>
      let (us, lost) := addSlot (slotTree key (nested path record)) before last after
      return (.node .object us, lost)
    | some (before, member, after) =>
      let (front, value) ← pairParts? member
      let (value, lost) ← extendTree? record path value
      return (.node .object (before ++ .node .pair (front ++ [value]) :: after), lost)
  | _, _ => none

/-- Whether a child of an argument list is an argument. -/
def isArgument (t : Script.Tree) : Bool :=
  !t.isFiller && !t.isLeaf .mark

/-- An argument list with a record in its options, and whether it is lost there. -/
def addArgument? (record : Script.Tree) (ts : List Script.Tree) :
    Option (List Script.Tree × Bool) :=
  let options := nested recordPath record
  match splitFirst? isArgument ts with
  | none =>
    some (ts.dropLast ++ .leaf .undefined "undefined".toList :: mark "," :: blank :: options ::
      ts.getLast?.toList, false)
  | some (before, first, after) =>
    match splitFirst? isArgument after with
    | none =>
      let (us, lost) := insertBehind [mark ",", blank, options] [] first after
      some (before ++ us, lost)
    | some (between, second, after) =>
      if second.isLeaf .undefined then some (before ++ first :: (between ++ options :: after), false)
      else (extendTree? record recordPath second).map fun (second, lost) =>
        (before ++ first :: (between ++ second :: after), lost)

/-- A call with a record in its options, and whether it is lost there; `none` if the call takes
none, or has one. -/
def addRecord? (record : Script.Tree) : (call : Script.Tree) → Option (Script.Tree × Bool)
  | .node .call ts => do
    match ← splitLast? (!·.isFiller) ts with
    | (before, .node .arguments args, after) =>
      let (args, lost) ← addArgument? record args
      return (.node .call (before ++ .node .arguments args :: after), lost)
    | _ => none
  | _ => none

mutual

/-- A tree with records in its calls, where `record` gives the record of a line. -/
def stamped (record : UInt32 → Script.Tree) (spot : Spot) : Script.Tree → Script.Tree
  | .leaf kind s => .leaf kind s
  | .node kind ts =>
    let inner := .node kind (stampedAll record spot ts)
    if isRemoteCall (.node kind ts) then
      ((addRecord? (record spot.lineNumber) inner).map Prod.fst).getD inner
    else inner

/-- Trees that follow one another with records in their calls. -/
def stampedAll (record : UInt32 → Script.Tree) (spot : Spot) : List Script.Tree → List Script.Tree
  | [] => []
  | t :: ts => stamped record spot t :: stampedAll record (spot.after t.text) ts

end

/-! ## Step by step -/

section Steps

variable {record member : Script.Tree} {key : String} {path : List String}
  {ts before after between behind us : List Script.Tree} {first second last : Script.Tree}

/-- What is written behind a remark is lost. -/
theorem insertBehind_snd (written : List Script.Tree) (gap : List Char) (last : Script.Tree)
    (after : List Script.Tree) : (insertBehind written gap last after).2 = last.isLeaf .remark := by
  unfold insertBehind
  split
  · rfl
  · next hlast =>
    cases last with
    | leaf kind s =>
      by_cases hkind : kind = .remark
      · exact absurd (by rw [hkind]) (hlast s)
      · rw [isLeaf, decide_eq_false (Ne.symm hkind)]
    | node kind ts => rfl

/-- What is written behind another tree stands there. -/
theorem insertBehind_fst {last : Script.Tree} (h : last.isLeaf .remark = false)
    (written : List Script.Tree) (gap : List Char) (after : List Script.Tree) :
    (insertBehind written gap last after).1 = last :: (written ++ glue gap after) := by
  unfold insertBehind
  split
  · contradiction
  · rfl

/-- A slot is written behind the last member. -/
theorem addSlot_fst (slot : Script.Tree) (before : List Script.Tree) (last : Script.Tree)
    (after : List Script.Tree) : (addSlot slot before last after).1 =
      before ++ (insertBehind ((layoutOf before last).written slot).1
        ((layoutOf before last).written slot).2 last after).1 := rfl

/-- A slot that is written behind a remark is lost. -/
theorem addSlot_snd (slot : Script.Tree) (before : List Script.Tree) (last : Script.Tree)
    (after : List Script.Tree) : (addSlot slot before last after).2 = last.isLeaf .remark := by
  rw [addSlot, insertBehind_snd]

/-- A literal that has no slot of the key gains one. -/
theorem extendTree?_slot (record : Script.Tree) (path : List String)
    (hseat : seat? ts = some (before, last, after))
    (hkey : splitLast? (isAt key) ts = none) : extendTree? record (key :: path) (.node .object ts) =
      some (.node .object (addSlot (slotTree key (nested path record)) before last after).1,
        (addSlot (slotTree key (nested path record)) before last after).2) := by
  rw [extendTree?, hseat]
  simp only [Option.bind_eq_bind, Option.bind_some, hkey]
  rfl

/-- A literal that has a slot of the key is extended in the value of the last one. -/
theorem extendTree?_inside (record : Script.Tree) (path : List String)
    (hseat : seat? ts = some (before, last, after))
    (hkey : splitLast? (isAt key) ts = some (us, member, behind)) :
    extendTree? record (key :: path) (.node .object ts) =
      (pairParts? member).bind fun (front, value) =>
        (extendTree? record path value).map fun (value, lost) =>
          (.node .object (us ++ .node .pair (front ++ [value]) :: behind), lost) := by
  rw [extendTree?, hseat]
  simp only [Option.bind_eq_bind, Option.bind_some, hkey]
  congr 1
  funext ⟨front, value⟩
  cases extendTree? record path value <;> rfl

/-- A literal that is not closed is not extended. -/
theorem extendTree?_unseated (hseat : seat? ts = none) :
    extendTree? record path (.node .object ts) = none := by
  cases path with
  | nil => rfl
  | cons key path =>
    rw [extendTree?, hseat]
    rfl

/-- A tree that is no literal is not extended. -/
theorem extendTree?_other {t : Script.Tree} (h : t.hasKind .object = false) :
    extendTree? record path t = none := by
  cases path with
  | nil => rfl
  | cons key path =>
    cases t with
    | leaf kind s => rfl
    | node kind ts => cases kind <;> first | contradiction | rfl

/-- Without arguments both of them are written. -/
theorem addArgument?_none (h : splitFirst? isArgument ts = none) :
    addArgument? record ts = some (ts.dropLast ++ .leaf .undefined "undefined".toList :: mark "," ::
      blank :: nested recordPath record :: ts.getLast?.toList, false) := by
  rw [addArgument?, h]

/-- The options are written behind a single argument. -/
theorem addArgument?_single (record : Script.Tree)
    (hfirst : splitFirst? isArgument ts = some (before, first, after))
    (hsecond : splitFirst? isArgument after = none) : addArgument? record ts =
      some (before ++ (insertBehind [mark ",", blank, nested recordPath record] [] first after).1,
        first.isLeaf .remark) := by
  rw [addArgument?, hfirst]
  simp only [hsecond, insertBehind_snd]

/-- Options that are `undefined` are replaced. -/
theorem addArgument?_undefined (hfirst : splitFirst? isArgument ts = some (before, first, after))
    (hsecond : splitFirst? isArgument after = some (between, second, behind))
    (h : second.isLeaf .undefined = true) : addArgument? record ts =
      some (before ++ first :: (between ++ nested recordPath record :: behind), false) := by
  rw [addArgument?, hfirst]
  simp only [hsecond, h, if_true]

/-- Other options are extended if they are a literal. -/
theorem addArgument?_literal (hfirst : splitFirst? isArgument ts = some (before, first, after))
    (hsecond : splitFirst? isArgument after = some (between, second, behind))
    (h : second.isLeaf .undefined = false) : addArgument? record ts =
      (extendTree? record recordPath second).map fun (second, lost) =>
        (before ++ first :: (between ++ second :: behind), lost) := by
  rw [addArgument?, hfirst]
  simp only [hsecond, h, Bool.false_eq_true, if_false]

/-- A call takes a record if its arguments do. -/
theorem addRecord?_arguments {args : List Script.Tree}
    (h : splitLast? (!·.isFiller) ts = some (before, .node .arguments args, after)) :
    addRecord? record (.node .call ts) = (addArgument? record args).map fun (args, lost) =>
      (.node .call (before ++ .node .arguments args :: after), lost) := by
  rw [addRecord?]
  simp only [h, Option.bind_eq_bind, Option.bind_some]
  cases addArgument? record args <;> rfl

/-- A call that does not end with arguments takes no record. -/
theorem addRecord?_other
    (h : ∀ before args after,
      splitLast? (!·.isFiller) ts ≠ some (before, .node .arguments args, after)) :
    addRecord? record (.node .call ts) = none := by
  rw [addRecord?]
  cases hlast : splitLast? (!·.isFiller) ts with
  | none => rfl
  | some parted =>
    simp only [Option.bind_eq_bind, Option.bind_some]
    split
    · exact absurd hlast (h _ _ _)
    · rfl

end Steps

end Crossing.Stamp
