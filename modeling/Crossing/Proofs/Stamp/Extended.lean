import Crossing.Proofs.Stamp.Carried

/-!
# Literals with a record

The edit that extends an options literal by a record makes the text of the extended literal
(`agree_extend`). The literal is found and extended in the source, and the calls inside of it may be
stamped as well, so three things are said at once (`Agree`): what is edited, what the tree of the
source becomes, and what the stamped tree becomes.
-/

namespace Crossing.Stamp

open Text Script Script.Tree Options List

/-- How edits for a record, a tree that takes it, and the stamped tree go together: none of them has
a place for the record, or there is one edit, and both trees lose the record or keep it. What the
edit makes of the stamped tree is a parameter. -/
inductive Agree {α : Type} (edits : Option (List Edit)) (tree stamped : Option (α × Bool))
    (makes : Edit → α → Prop) : Prop
  | stays (hedits : edits = none) (htree : tree = none) (hstamped : stamped = none)
  | changes (e : Edit) (a b : α) (lost : Bool) (hedits : edits = some [e])
    (htree : tree = some (a, lost)) (hstamped : stamped = some (b, lost))
    (hinserts : lost = true → e.Inserts) (hmakes : makes e b)

/-- What agrees on a part agrees on the whole. -/
theorem Agree.map {α β : Type} {edits : Option (List Edit)} {tree stamped : Option (α × Bool)}
    {makes : Edit → α → Prop} {makes' : Edit → β → Prop} (h : Agree edits tree stamped makes)
    (f g : α → β) (hmakes : ∀ e b, makes e b → makes' e (g b)) :
    Agree edits (tree.map fun p => (f p.1, p.2)) (stamped.map fun p => (g p.1, p.2)) makes' := by
  cases h with
  | stays hedits htree hstamped =>
    rw [htree, hstamped]
    exact .stays hedits rfl rfl
  | changes e a b lost hedits htree hstamped hinserts h =>
    rw [htree, hstamped]
    exact .changes e (f a) (g b) lost hedits rfl rfl hinserts (hmakes e b h)

/-- Whether the edits that are planned on a tree are the one that a record needs, and those inside of
the tree. -/
def Makes (record : UInt32 → Script.Tree) (spot : Spot) (t : Script.Tree) (e : Edit)
    (t' : Script.Tree) : Prop :=
  t.Every (carried record) →
    Edit.Rewrites spot.offset t.text t'.text (e :: editsAt record spot t)

variable {record : UInt32 → Script.Tree} {spot : Spot}

/-! ## Insertions -/

/-- An insertion of a text with something in front is one of a text that is not empty. -/
theorem inserts_insertion {offset : Nat} {front : String} (h : 0 < Utf8.width front.toList)
    (text : String) : (Edit.insertion offset (front ++ text)).Inserts := by
  refine ⟨rfl, ?_⟩
  rw [Edit.insertion, String.toList_append, Utf8.width_append]
  omega

/-- A slot is inserted. -/
theorem inserts_edit (place : Anchor) (slot : String) : (place.edit [slot]).Inserts := by
  unfold Anchor.edit
  cases place.layout with
  | empty =>
    dsimp only
    rw [String.append_assoc]
    exact inserts_insertion (by decide) _
  | trailingComma =>
    dsimp only
    rw [String.append_assoc]
    exact inserts_insertion (by decide) _
  | afterLast => exact inserts_insertion (by decide) _

/-! ## A slot more -/

/-- The parts of a list around its seat. -/
theorem eq_of_seat? {ts before after : List Script.Tree} {last : Script.Tree}
    (h : seat? ts = some (before, last, after)) : ts = before ++ last :: after := by
  obtain ⟨members, closing, gap, behind, hclosing, -, hlast, rfl⟩ := seat?_eq_some.mp h
  obtain ⟨rfl, -, -⟩ := splitLast?_eq_some.mp hclosing
  obtain ⟨rfl, -, -⟩ := splitLast?_eq_some.mp hlast
  simp

/-- The options tree of a literal that is closed. -/
theorem liftValue_object {ts before after : List Script.Tree} {last : Script.Tree}
    (h : seat? ts = some (before, last, after)) (spot : Spot) :
    liftValue spot (.node .object ts) = .object
      (some ⟨((spot.after (textOf before)).after last.text).offset, layoutOf before last⟩)
      (liftSlots spot ts) := by
  rw [liftValue, anchor?_eq, h]
  rfl

/-- A seat is taken in the same way when its literal is stamped. -/
theorem layoutOf_stampedAll (before : List Script.Tree) (last : Script.Tree) (spot' : Spot) :
    layoutOf (stampedAll record spot before) (stamped record spot' last) = layoutOf before last := by
  have hall : (stampedAll record spot before).all (·.isFiller) = before.all (·.isFiller) := by
    induction before generalizing spot with
    | nil => rfl
    | cons t before ih => rw [stampedAll, all_cons, all_cons, isFiller_stamped, ih]
  rw [layoutOf, layoutOf, hall, isMark_stamped]

/-- The edit of a literal that gains a slot makes the text of the literal with the slot. -/
theorem rewrites_slot {ts before after : List Script.Tree} {last slotTree : Script.Tree}
    {slot : String} (hseat : seat? ts = some (before, last, after))
    (htext : slotTree.text = slot.toList) (hts : EveryOf (carried record) ts) (spot : Spot) :
    Edit.Rewrites spot.offset (textOf ts)
      (textOf (addSlot slotTree (stampedAll record spot before)
        (stamped record (spot.after (textOf before)) last)
        (stampedAll record ((spot.after (textOf before)).after last.text) after)).1)
      ((Anchor.mk ((spot.after (textOf before)).after last.text).offset
        (layoutOf before last)).edit [slot] :: editsIn record spot ts) := by
  obtain rfl := eq_of_seat? hseat
  rw [edit_eq _ _ htext, addSlot, layoutOf_stampedAll]
  exact rewrites_behind hts _ _ spot

/-! ## The end of a path -/

/-- The edits that extend a literal by a record at the end of a path of keys. -/
def extendEdits? (record : String) (path : List String) (spot : Spot) (object : Script.Tree) :
    Option (List Edit) :=
  (target? record path (liftValue spot object)).map fun (place, slot) => [place.edit [slot]]

section Path

variable {r : Script.Tree} {key : String} {path : List String}
  {ts before after us behind : List Script.Tree} {last member : Script.Tree}

/-- A literal whose options tree has no slot of the key is edited at its seat. -/
theorem extendEdits?_slot (record : String) (path : List String) (spot : Spot)
    (hseat : seat? ts = some (before, last, after)) (hkey : splitLast? (isAt key) ts = none) :
    extendEdits? record (key :: path) spot (.node .object ts) =
      some [(Anchor.mk ((spot.after (textOf before)).after last.text).offset
        (layoutOf before last)).edit [Quoted.key key ++ ": " ++ nestedText path record]] := by
  rw [extendEdits?, liftValue_object hseat, target?, lookup_liftSlots, hkey]
  rfl

/-- A literal whose options tree has the key is edited in the value of its last member there. -/
theorem extendEdits?_inside (record : String) (path : List String) (spot : Spot)
    {front : List Script.Tree} {value : Script.Tree} (hseat : seat? ts = some (before, last, after))
    (hkey : splitLast? (isAt key) ts = some (us, .node .pair (front ++ [value]), behind)) :
    extendEdits? record (key :: path) spot (.node .object ts) =
      extendEdits? record path ((spot.after (textOf us)).after (textOf front)) value := by
  rw [extendEdits?, liftValue_object hseat, target?, lookup_liftSlots, hkey, Option.map_some]
  dsimp only
  rw [memberValue, pairParts?_eq_some.mpr rfl]
  rfl

/-- A literal without the key gets a slot of it, with the rest of the path in its value. -/
theorem agree_slot (hpath : ∀ k ∈ key :: path, Quoted.key k = k)
    (hseat : seat? ts = some (before, last, after)) (hkey : splitLast? (isAt key) ts = none) :
    Agree (extendEdits? (.ofList r.text) (key :: path) spot (.node .object ts))
      (extendTree? r (key :: path) (.node .object ts))
      (extendTree? r (key :: path) (.node .object (stampedAll record spot ts)))
      (Makes record spot (.node .object ts)) := by
  have hrest : ∀ k ∈ path, Quoted.key k = k := fun k hk => hpath k (mem_cons_of_mem _ hk)
  have hat (spot : Spot) (t : Script.Tree) :
      isAt key (stamped record spot t) = isAt key t := isAt_stamped key t
  have hslot := extendTree?_slot r path hseat hkey
  have hslot' := extendTree?_slot r path (seat?_stampedAll record spot hseat)
    (splitLast?_stampedAll_none spot hat hkey)
  rw [addSlot_snd] at hslot hslot'
  rw [isLeaf_stamped] at hslot'
  -- The options tree has no slot of the key either, so its place is the seat of the literal.
  have hedits := extendEdits?_slot (.ofList r.text) path spot hseat hkey
  refine .changes _ _ _ _ hedits hslot hslot' (fun _ => inserts_edit _ _) fun hobject => ?_
  rw [editsAt_node _ (by decide)]
  refine rewrites_slot hseat ?_ hobject.2 spot
  rw [text_slotTree (hpath key mem_cons_self), text_nested hrest]
  simp

/-- The last member of the key takes the record, if it is a pair. -/
theorem agree_member {front : List Script.Tree} {value : Script.Tree}
    (hseat : seat? ts = some (before, last, after))
    (hkey : splitLast? (isAt key) ts = some (us, .node .pair (front ++ [value]), behind))
    (h : Agree
      (extendEdits? (.ofList r.text) path ((spot.after (textOf us)).after (textOf front)) value)
      (extendTree? r path value)
      (extendTree? r path (stamped record ((spot.after (textOf us)).after (textOf front)) value))
      (Makes record ((spot.after (textOf us)).after (textOf front)) value)) :
    Agree (extendEdits? (.ofList r.text) (key :: path) spot (.node .object ts))
      (extendTree? r (key :: path) (.node .object ts))
      (extendTree? r (key :: path) (.node .object (stampedAll record spot ts)))
      (Makes record spot (.node .object ts)) := by
  have hat (spot : Spot) (t : Script.Tree) :
      isAt key (stamped record spot t) = isAt key t := isAt_stamped key t
  have hparts : pairParts? (.node .pair (front ++ [value])) = some (front, value) :=
    pairParts?_eq_some.mpr rfl
  rw [extendEdits?_inside _ _ _ hseat hkey, extendTree?_inside _ _ hseat hkey, extendTree?_inside _ _
    (seat?_stampedAll record spot hseat) (splitLast?_stampedAll _ hat hkey), pairParts?_stamped,
    hparts]
  obtain ⟨rfl, -, -⟩ := splitLast?_eq_some.mp hkey
  refine h.map (fun t => Script.Tree.node .object (us ++ .node .pair (front ++ [t]) :: behind))
    (fun t => Script.Tree.node .object (stampedAll record spot us ++
      .node .pair (stampedAll record (spot.after (textOf us)) front ++ [t]) ::
        stampedAll record ((spot.after (textOf us)).after
          (Script.Tree.node .pair (front ++ [value])).text) behind)) ?_
  intro e value' hvalue hobject
  obtain ⟨hus, hpair, hbehind⟩ := everyOf_append.mp hobject.2
  obtain ⟨hfront, hevery, -⟩ := everyOf_append.mp hpair.2
  -- What the edit does in the value, it does in the pair, and so in the literal.
  have hinPair := rewrites_inside value value' hfront (everyOf_nil _) (spot.after (textOf us))
    (hvalue hevery)
  rw [← editsAt_node record (show Kind.pair ≠ .call by decide)] at hinPair
  have hinObject := rewrites_inside (.node .pair (front ++ [value]))
    (.node .pair (stampedAll record (spot.after (textOf us)) front ++ [value']))
    hus hbehind spot hinPair
  rw [editsAt_node _ (by decide)]
  exact hinObject

/-- A member that is no pair is not extended. -/
theorem agree_other (hseat : seat? ts = some (before, last, after))
    (hkey : splitLast? (isAt key) ts = some (us, member, behind)) (h : pairParts? member = none) :
    Agree (extendEdits? (.ofList r.text) (key :: path) spot (.node .object ts))
      (extendTree? r (key :: path) (.node .object ts))
      (extendTree? r (key :: path) (.node .object (stampedAll record spot ts)))
      (Makes record spot (.node .object ts)) := by
  have hat (spot : Spot) (t : Script.Tree) :
      isAt key (stamped record spot t) = isAt key t := isAt_stamped key t
  refine .stays ?_ ?_ ?_
  · rw [extendEdits?, liftValue_object hseat, target?, lookup_liftSlots, hkey, Option.map_some]
    dsimp only
    rw [memberValue, h]
    cases path <;> rfl
  · rw [extendTree?_inside _ _ hseat hkey, h]
    rfl
  · rw [extendTree?_inside _ _ (seat?_stampedAll record spot hseat)
      (splitLast?_stampedAll _ hat hkey), pairParts?_stamped, h]
    rfl

end Path

/-- What is no literal has no options tree. -/
theorem liftValue_other {t : Script.Tree} (h : t.hasKind .object = false) (spot : Spot) :
    liftValue spot t = .other := by
  rw [liftValue]
  rintro ts rfl
  contradiction

/-- A literal is extended by an edit exactly if its tree is, and then the edit makes the text of the
extended tree. -/
theorem agree_extend (r : Script.Tree) {path : List String}
    (hpath : ∀ key ∈ path, Quoted.key key = key) (spot : Spot) (object : Script.Tree) :
    Agree (extendEdits? (.ofList r.text) path spot object) (extendTree? r path object)
      (extendTree? r path (stamped record spot object)) (Makes record spot object) := by
  -- The induction is on the path, and goes down into the value of the last member of each key.
  induction path generalizing spot object with
  | nil => exact .stays rfl rfl rfl
  | cons key path ih =>
    by_cases hkind : object.hasKind .object = true
    · cases object with
      | leaf kind s => contradiction
      | node kind ts =>
        obtain rfl : kind = .object := (of_decide_eq_true hkind).symm
        rw [stamped_node (by decide)]
        cases hseat : seat? ts with
        | none =>
          refine .stays ?_ (extendTree?_unseated hseat)
            (extendTree?_unseated (seat?_stampedAll_none hseat))
          rw [extendEdits?, liftValue, anchor?_eq, hseat]
          rfl
        | some seat =>
          obtain ⟨before, last, after⟩ := seat
          cases hkey : splitLast? (isAt key) ts with
          | none => exact agree_slot hpath hseat hkey
          | some parted =>
            obtain ⟨us, member, behind⟩ := parted
            cases hparts : pairParts? member with
            | none => exact agree_other hseat hkey hparts
            | some parts =>
              obtain ⟨front, value⟩ := parts
              obtain rfl := pairParts?_eq_some.mp hparts
              exact agree_member hseat hkey
                (ih (fun key hkey => hpath key (mem_cons_of_mem _ hkey)) _ _)
    · have hother : object.hasKind .object = false := Bool.eq_false_iff.mpr hkind
      refine .stays ?_ (extendTree?_other hother)
        (extendTree?_other (by rw [hasKind_stamped, hother]))
      rw [extendEdits?, liftValue_other hother]
      rfl

end Crossing.Stamp
