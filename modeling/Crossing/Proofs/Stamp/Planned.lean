import Crossing.Proofs.Stamp.Extended

/-!
# The planned edits make the stamped script

What is planned for a call agrees with what its tree becomes (`agree_arguments`, `agree_call`): the
arguments take the options as a whole, or the literal among them is extended. The edit lies strictly
between the brackets of the call, so those of different calls keep apart, however the calls are
nested, and all edits of a script together make the text of the stamped script (`applyAll?_plan`).
-/

namespace Crossing.Stamp

open Text Script Script.Tree Options List

variable {record : UInt32 → Script.Tree} {spot : Spot}

/-! ## Arguments -/

/-- The edits for a call with its arguments, where the last bracket starts at an offset. -/
def argumentEdits? (record : String) (closing : Nat) : List (Spot × Script.Tree) → Option (List Edit)
  | [] => some [.insertion closing ("undefined, " ++ freshOptions record)]
  | [first] => some [.insertion (stop first) (", " ++ freshOptions record)]
  | _ :: (spot, second) :: _ =>
    if second.isLeaf .undefined then
      some [⟨spot.offset, stop (spot, second), freshOptions record⟩]
    else if second.hasKind .object then extend? spot second record
    else none

/-- The edits for a call are those for its arguments. -/
theorem edits?_eq (spot : Spot) (call : Script.Tree) (record : String) :
    edits? spot call record = (arguments? spot call).bind fun (args, closing) =>
      argumentEdits? record closing args := by
  unfold edits?
  congr 1

/-- A tree that is no literal is not extended, whether or not one looks at its kind first. -/
theorem extend?_of_object (t : Script.Tree) (spot : Spot) (record : String) :
    (if t.hasKind .object then extend? spot t record else none) =
      extendEdits? record recordPath spot t := by
  have hextend : extend? spot t record = extendEdits? record recordPath spot t :=
    extend?_eq spot t record
  rw [← hextend]
  split
  · rfl
  · next hkind =>
    rw [extend?_eq, liftValue_other (Bool.eq_false_iff.mpr hkind)]
    rfl

/-- An argument stands between the brackets. -/
theorem brackets_around {before after : List Script.Tree} {t : Script.Tree}
    (h : layout .arguments (before ++ t :: after)) (ht : isArgument t = true) :
    (∃ front, before = mark "(" :: front) ∧ ∃ behind, after = behind ++ [mark ")"] := by
  obtain ⟨inner, heq⟩ : ∃ inner, before ++ t :: after = mark "(" :: (inner ++ [mark ")"]) := h
  constructor
  · cases before with
    | nil =>
      -- A bracket is no argument.
      obtain rfl : t = mark "(" := (cons.inj heq).1
      contradiction
    | cons first before =>
      obtain rfl : first = mark "(" := (cons.inj heq).1
      exact ⟨before, rfl⟩
  · rcases eq_nil_or_concat after with rfl | ⟨behind, last, rfl⟩
    · rw [← cons_append] at heq
      obtain rfl : t = mark ")" := (append_inj' heq rfl).2 |> cons.inj |>.1
      contradiction
    · have hsplit : before ++ t :: behind ++ [last] = (mark "(" :: inner) ++ [mark ")"] := by
        simpa using heq
      obtain rfl : last = mark ")" := (append_inj' hsplit rfl).2 |> cons.inj |>.1
      exact ⟨behind, concat_eq_append⟩

/-- There is something in front of an argument and something behind it. -/
theorem width_around {before after : List Script.Tree} {t : Script.Tree}
    (h : layout .arguments (before ++ t :: after)) (ht : isArgument t = true) :
    0 < Utf8.width (textOf before) ∧ 0 < Utf8.width (textOf after) := by
  obtain ⟨⟨front, rfl⟩, behind, rfl⟩ := brackets_around h ht
  have hopening : Utf8.width (mark "(").text = '('.utf8Size := rfl
  have hclosing : Utf8.width (textOf [mark ")"]) = ')'.utf8Size := rfl
  have hopeningPos := Char.utf8Size_pos '('
  have hclosingPos := Char.utf8Size_pos ')'
  rw [textOf, textOf_append, Utf8.width_append, Utf8.width_append]
  omega

/-- The text of the options that hold nothing but a record. -/
theorem text_options (r : Script.Tree) :
    (nested recordPath r).text = (freshOptions (.ofList r.text)).toList := by
  rw [text_nested key_recordPath, freshOptions_eq]

/-- What an edit makes of the arguments of a call: it is carried out strictly between the brackets,
together with the edits inside of the arguments. -/
def MakesIn (record : UInt32 → Script.Tree) (spot : Spot) (args : List Script.Tree) (e : Edit)
    (args' : List Script.Tree) : Prop :=
  layout .arguments args → EveryOf (carried record) args →
    Carried spot (textOf args) (textOf args') (e :: editsIn record spot args)

section Arguments

variable {r first second : Script.Tree} {args before after between behind : List Script.Tree}

/-- Without arguments, the edit stands in front of the last bracket. -/
theorem makes_none : MakesIn record spot args
    (.insertion (stop (spot, .node .arguments args) - 1)
      ("undefined, " ++ freshOptions (.ofList r.text)))
    ((stampedAll record spot args).dropLast ++ .leaf .undefined "undefined".toList :: mark "," ::
      blank :: nested recordPath r :: (stampedAll record spot args).getLast?.toList) := by
  intro hlayout hargs
  have hcarried := carried_of_everyOf hargs spot
  obtain ⟨inner, rfl⟩ := hlayout
  have hpos : 0 < Utf8.width (textOf (.leaf .mark "(".toList :: inner)) := by
    have hwidth := Char.utf8Size_pos '('
    exact Nat.lt_of_lt_of_le hwidth (Nat.le_add_right _ _)
  rw [← cons_append] at hargs hcarried ⊢
  generalize Script.Tree.leaf .mark "(".toList :: inner = front at hargs hcarried hpos ⊢
  obtain ⟨hts, hclose⟩ := everyOf_append.mp hargs
  -- The last bracket is one byte long, so the edit stands where what is in front of it ends.
  have hend : (spot.after (textOf (front ++ [.leaf .mark ")".toList]))).offset =
      (spot.after (textOf front)).offset + 1 := by
    rw [textOf_append, Spot.after_append]
    rfl
  have hclosing : stop (spot, .node .arguments (front ++ [.leaf .mark ")".toList])) - 1 =
      (spot.after (textOf front)).offset := by
    rw [stop, Script.Tree.text, hend]
    rfl
  have hstart : (spot.after (textOf front)).offset = spot.offset + Utf8.width (textOf front) := rfl
  have htext : .ofList ("undefined, ".toList ++ (nested recordPath r).text) =
      "undefined, " ++ freshOptions (.ofList r.text) := by
    apply String.toList_injective
    simp [text_options]
  have hnew : textOf ((stampedAll record spot (front ++ [.leaf .mark ")".toList])).dropLast ++
        .leaf .undefined "undefined".toList :: mark "," :: blank :: nested recordPath r ::
          (stampedAll record spot (front ++ [.leaf .mark ")".toList])).getLast?.toList) =
      textOf (stampedAll record spot front) ++ ("undefined, ".toList ++ (nested recordPath r).text ++
        textOf (stampedAll record (spot.after (textOf front)) [.leaf .mark ")".toList])) := by
    simp [stampedAll_append, stampedAll, textOf_append, textOf, Script.Tree.text, mark, blank]
  have h := rewrites_insertion hts hclose spot
    ("undefined, ".toList ++ (nested recordPath r).text)
  rw [htext] at h
  rw [hclosing]
  refine hcarried.cons ?_ ⟨?_, ?_⟩
  · rw [hnew, textOf_append]
    exact h
  · show spot.offset < (spot.after (textOf front)).offset
    omega
  · show (spot.after (textOf front)).offset < _
    omega

/-- The options are inserted right behind a single argument. -/
theorem makes_single (hfirst : isArgument first = true) :
    MakesIn record spot (before ++ first :: after)
      (.insertion (stop (spot.after (textOf before), first)) (", " ++ freshOptions (.ofList r.text)))
      (stampedAll record spot before ++ (insertBehind [mark ",", blank, nested recordPath r] []
        (stamped record (spot.after (textOf before)) first)
        (stampedAll record ((spot.after (textOf before)).after first.text) after)).1) := by
  intro hlayout hargs
  have htext : .ofList (textOf [mark ",", blank, nested recordPath r] ++ []) =
      ", " ++ freshOptions (.ofList r.text) := by
    apply String.toList_injective
    simp [textOf, Script.Tree.text, mark, blank, text_options]
  have h := rewrites_behind hargs [mark ",", blank, nested recordPath r] [] spot
  rw [htext] at h
  obtain ⟨hbefore, hafter⟩ := width_around hlayout hfirst
  have hstart : ((spot.after (textOf before)).after first.text).offset =
      spot.offset + Utf8.width (textOf before) + Utf8.width first.text := rfl
  have hend : (spot.after (textOf (before ++ first :: after))).offset =
      ((spot.after (textOf before)).after first.text).offset + Utf8.width (textOf after) := by
    rw [textOf_append, textOf, Spot.after_append, Spot.after_append]
    rfl
  refine (carried_of_everyOf hargs spot).cons h ⟨?_, ?_⟩
  · show spot.offset < ((spot.after (textOf before)).after first.text).offset
    omega
  · show ((spot.after (textOf before)).after first.text).offset < _
    omega

/-- What an edit makes of the second argument. -/
theorem makes_second {t : Script.Tree} {e : Edit} (hsecond : isArgument second = true)
    (h : Makes record (((spot.after (textOf before)).after first.text).after (textOf between))
      second e t) :
    MakesIn record spot (before ++ first :: (between ++ second :: behind)) e
      (stampedAll record spot before ++ stamped record (spot.after (textOf before)) first ::
        (stampedAll record ((spot.after (textOf before)).after first.text) between ++ t ::
          stampedAll record ((((spot.after (textOf before)).after first.text).after
            (textOf between)).after second.text) behind)) := by
  intro hlayout hargs
  have hcarried := carried_of_everyOf hargs spot
  -- What is in front of the second argument counts as one list.
  have hconcat (u : Script.Tree) (us vs ws : List Script.Tree) (v : Script.Tree) :
      us ++ u :: (vs ++ v :: ws) = (us ++ u :: vs) ++ v :: ws := by simp
  have hspot : spot.after (textOf (before ++ first :: between)) =
      ((spot.after (textOf before)).after first.text).after (textOf between) := by
    rw [textOf_append, textOf, Spot.after_append, Spot.after_append]
  rw [hconcat] at hlayout hargs hcarried ⊢
  obtain ⟨hfront, hbehind⟩ := width_around hlayout hsecond
  obtain ⟨hts, hevery, hus⟩ := everyOf_append.mp hargs
  rw [← hspot] at h ⊢
  have hinside := h hevery
  have hbounds := hinside.bounds e mem_cons_self
  have hrewrites := rewrites_inside _ _ hts hus spot hinside
  rw [stampedAll_append, stampedAll] at hrewrites
  have hstart : (spot.after (textOf (before ++ first :: between))).offset =
      spot.offset + Utf8.width (textOf (before ++ first :: between)) := rfl
  have hend : (spot.after (textOf (before ++ first :: between ++ second :: behind))).offset =
      (spot.after (textOf (before ++ first :: between))).offset + Utf8.width second.text +
        Utf8.width (textOf behind) := by
    rw [textOf_append, textOf, Spot.after_append, Spot.after_append]
    rfl
  refine hcarried.cons ?_ ⟨by omega, by omega⟩
  rw [hconcat]
  exact hrewrites

/-- The name `undefined` gives way to the options. -/
theorem makes_undefined (h : second.isLeaf .undefined = true) : Makes record spot second
    ⟨spot.offset, stop (spot, second), freshOptions (.ofList r.text)⟩ (nested recordPath r) := by
  intro _
  cases second with
  | leaf kind s =>
    have htext : .ofList (nested recordPath r).text = freshOptions (.ofList r.text) := by
      rw [text_options, String.ofList_toList]
    rw [editsAt_leaf, ← htext]
    exact .edit _ _ _
  | node kind ts => contradiction

end Arguments

/-- What is planned for arguments agrees with what their trees become. -/
theorem agree_arguments (r : Script.Tree) (spot : Spot) (args : List Script.Tree) :
    Agree (argumentEdits? (.ofList r.text) (stop (spot, .node .arguments args) - 1)
        ((placed spot args).filter (isArgument ·.2)))
      (addArgument? r args) (addArgument? r (stampedAll record spot args))
      (MakesIn record spot args) := by
  have hargument (spot : Spot) (t : Script.Tree) :
      isArgument (stamped record spot t) = isArgument t := isArgument_stamped t
  cases hfirst : splitFirst? isArgument args with
  | none =>
    rw [filter_placed_eq_nil (splitFirst?_eq_none.mp hfirst)]
    exact .changes _ _ _ false rfl (addArgument?_none hfirst)
      (addArgument?_none (splitFirst?_stampedAll_none _ hargument hfirst))
      (fun h => absurd h (by decide)) makes_none
  | some parted =>
    obtain ⟨before, first, after⟩ := parted
    have hfirst' := splitFirst?_stampedAll spot hargument hfirst
    obtain ⟨rfl, hisFirst, -⟩ := splitFirst?_eq_some.mp hfirst
    rw [filter_placed_of_splitFirst? spot hfirst]
    cases hsecond : splitFirst? isArgument after with
    | none =>
      have hsecond' := splitFirst?_stampedAll_none ((spot.after (textOf before)).after first.text)
        hargument hsecond
      have hadded := addArgument?_single r hfirst' hsecond'
      rw [isLeaf_stamped] at hadded
      rw [filter_placed_eq_nil (splitFirst?_eq_none.mp hsecond)]
      exact .changes _ _ _ _ rfl (addArgument?_single r hfirst hsecond) hadded
        (fun _ => inserts_insertion (by decide) _) (makes_single hisFirst)
    | some parted =>
      obtain ⟨between, second, behind⟩ := parted
      have hsecond' := splitFirst?_stampedAll ((spot.after (textOf before)).after first.text)
        hargument hsecond
      obtain ⟨rfl, hisSecond, -⟩ := splitFirst?_eq_some.mp hsecond
      rw [filter_placed_of_splitFirst? _ hsecond, argumentEdits?]
      by_cases hundefined : second.isLeaf .undefined = true
      · exact .changes _ _ _ false (if_pos hundefined)
          (addArgument?_undefined hfirst hsecond hundefined)
          (addArgument?_undefined hfirst' hsecond' (by rw [isLeaf_stamped, hundefined]))
          (fun h => absurd h (by decide)) (makes_second hisSecond (makes_undefined hundefined))
      · have hother : second.isLeaf .undefined = false := Bool.eq_false_iff.mpr hundefined
        rw [if_neg hundefined, addArgument?_literal hfirst hsecond hother,
          addArgument?_literal hfirst' hsecond' (by rw [isLeaf_stamped, hother]), extend?_of_object]
        refine (agree_extend r key_recordPath _ second).map
          (fun t => before ++ first :: (between ++ t :: behind))
          (fun t => stampedAll record spot before ++
            stamped record (spot.after (textOf before)) first ::
              (stampedAll record ((spot.after (textOf before)).after first.text) between ++ t ::
                stampedAll record ((((spot.after (textOf before)).after first.text).after
                  (textOf between)).after second.text) behind)) ?_
        intro e t h
        exact makes_second hisSecond h

/-! ## Calls -/

/-- The arguments of a call are those of its last child. -/
theorem arguments?_eq {ts before after args : List Script.Tree}
    (h : splitLast? (!·.isFiller) ts = some (before, .node .arguments args, after)) (spot : Spot) :
    arguments? spot (.node .call ts) =
      some ((placed (spot.after (textOf before)) args).filter (isArgument ·.2),
        stop (spot.after (textOf before), .node .arguments args) - 1) := by
  have hlast := filter_placed_of_splitLast? spot h
  have hparts (spot : Spot) : (placedParts spot (.node .arguments args)).filter (!·.2.isLeaf .mark) =
      (placed spot args).filter (isArgument ·.2) := by
    rw [placedParts, filter_filter]
    refine filter_congr fun p _ => ?_
    rw [isArgument, Bool.and_comm]
  unfold arguments? placedParts
  simp only [Script.Tree.children, hlast, getLast?_append, getLast?_singleton, Option.some_or]
  have hkind : (Script.Tree.node .arguments args).hasKind .arguments = true := rfl
  rw [if_pos hkind, ← hparts]
  rfl

/-- A call that does not end with arguments has none. -/
theorem arguments?_other {ts : List Script.Tree} (spot : Spot)
    (h : ∀ before args after,
      splitLast? (!·.isFiller) ts ≠ some (before, .node .arguments args, after)) :
    arguments? spot (.node .call ts) = none := by
  unfold arguments? placedParts
  cases hlast : splitLast? (!·.isFiller) ts with
  | none =>
    have hnone : (placed spot ts).filter (!·.2.isFiller) = [] :=
      filter_placed_eq_nil (p := (!·.isFiller)) (splitLast?_eq_none.mp hlast)
    simp only [Script.Tree.children, hnone, getLast?_nil]
  | some parted =>
    obtain ⟨before, t, after⟩ := parted
    have hparts := filter_placed_of_splitLast? spot hlast
    simp only [Script.Tree.children, hparts, getLast?_append, getLast?_singleton, Option.some_or]
    split
    · next hkind =>
      cases t with
      | leaf kind s => contradiction
      | node kind args =>
        obtain rfl : kind = .arguments := (of_decide_eq_true hkind).symm
        exact absurd hlast (h _ _ _)
    · rfl

/-- What an edit makes of a call: it is carried out strictly inside of the call, together with the
edits inside of its children. -/
def MakesCall (record : UInt32 → Script.Tree) (spot : Spot) (ts : List Script.Tree) (e : Edit)
    (call : Script.Tree) : Prop :=
  EveryOf layout ts → EveryOf (carried record) ts →
    Carried spot (textOf ts) call.text (e :: editsIn record spot ts)

/-- What is planned for a call agrees with what its tree becomes. -/
theorem agree_call (record : UInt32 → Script.Tree) (r : Script.Tree) (spot : Spot)
    (ts : List Script.Tree) :
    Agree (edits? spot (.node .call ts) (.ofList r.text)) (addRecord? r (.node .call ts))
      (addRecord? r (.node .call (stampedAll record spot ts))) (MakesCall record spot ts) := by
  have hfiller (spot : Spot) (t : Script.Tree) :
      (!(stamped record spot t).isFiller) = !t.isFiller := by
    rw [isFiller_stamped]
  by_cases h : ∃ before args after,
      splitLast? (!·.isFiller) ts = some (before, .node .arguments args, after)
  · obtain ⟨before, args, after, hlast⟩ := h
    have hlast' := splitLast?_stampedAll spot hfiller hlast
    rw [stamped_node (by decide)] at hlast'
    rw [edits?_eq, arguments?_eq hlast, addRecord?_arguments hlast, addRecord?_arguments hlast']
    refine (agree_arguments r (spot.after (textOf before)) args).map
      (fun args => Script.Tree.node .call (before ++ .node .arguments args :: after))
      (fun args' => Script.Tree.node .call (stampedAll record spot before ++
        .node .arguments args' :: stampedAll record ((spot.after (textOf before)).after
          (Script.Tree.node .arguments args).text) after)) ?_
    intro e args' hmakes hlayout hevery
    obtain ⟨rfl, -, -⟩ := splitLast?_eq_some.mp hlast
    obtain ⟨-, hargsLayout, -⟩ := everyOf_append.mp hlayout
    obtain ⟨hbefore, hargs, hafter⟩ := everyOf_append.mp hevery
    have hcarried := hmakes hargsLayout.1 hargs.2
    rw [← editsAt_node record (show Kind.arguments ≠ .call by decide)] at hcarried
    exact carried_inside (.node .arguments args) (.node .arguments args') hbefore hafter spot
      hcarried
  · have hother : ∀ before args after,
        splitLast? (!·.isFiller) ts ≠ some (before, .node .arguments args, after) :=
      fun before args after hlast => h ⟨before, args, after, hlast⟩
    refine .stays (by rw [edits?_eq, arguments?_other spot hother]; rfl) (addRecord?_other hother)
      (addRecord?_other fun before' args' after' hlast' => ?_)
    -- The last child of the stamped call is of the same kind as the one of the call.
    cases hlast : splitLast? (!·.isFiller) ts with
    | none =>
      rw [splitLast?_stampedAll_none _ hfiller hlast] at hlast'
      contradiction
    | some parted =>
      obtain ⟨before, t, after⟩ := parted
      rw [splitLast?_stampedAll _ hfiller hlast] at hlast'
      have ht : stamped record (spot.after (textOf before)) t = .node .arguments args' :=
        (Prod.mk.inj (Prod.mk.inj (Option.some.inj hlast')).2).1
      have hkind := @hasKind_stamped record (spot.after (textOf before)) .arguments t
      rw [ht] at hkind
      cases t with
      | leaf kind s => contradiction
      | node kind args =>
        obtain rfl : kind = .arguments := (of_decide_eq_true hkind.symm).symm
        exact hother _ _ _ hlast

/-! ## Scripts -/

mutual

/-- The edits inside of a tree make the text of the stamped tree. -/
theorem every_carried (record : UInt32 → Script.Tree) {t : Script.Tree} (h : t.Every layout) :
    t.Every (carried record) := by
  cases t with
  | leaf kind s => trivial
  | node kind ts =>
    have hts := everyOf_carried record h.2
    refine ⟨fun spot => ?_, hts⟩
    have hinner := carried_of_everyOf hts spot
    by_cases hkind : kind = .call
    · subst hkind
      rw [editsAt_call, stamped]
      by_cases hremote : isRemoteCall (.node .call ts) = true
      · rw [if_pos hremote, if_pos hremote]
        cases agree_call record (record spot.lineNumber) spot ts with
        | stays hedits htree hstamped =>
          rw [hedits, hstamped]
          exact hinner
        | changes e call call' lost hedits htree hstamped hinserts hmakes =>
          rw [hedits, hstamped]
          exact hmakes h.2 hts
      · rw [if_neg hremote, if_neg hremote]
        exact hinner
    · rw [editsAt_node record hkind, stamped_node hkind]
      exact hinner

/-- The edits inside of several trees make the texts of the stamped trees. -/
theorem everyOf_carried (record : UInt32 → Script.Tree) {ts : List Script.Tree}
    (h : EveryOf layout ts) : EveryOf (carried record) ts := by
  cases ts with
  | nil => trivial
  | cons t ts => exact ⟨every_carried record h.1, everyOf_carried record h.2⟩

end

/-- The planned edits of a script rewrite its text to that of the stamped script. -/
theorem rewrites_plan (record : UInt32 → Script.Tree) {script : Script.Tree}
    (hlayout : script.Every layout) : Edit.Rewrites 0 script.text (stamped record .start script).text
      ((plan (fun line => .ofList (record line).text) script).flatMap (·.edits)) := by
  rw [flatMap_plan]
  exact (carried_of_every (every_carried record hlayout) .start).rewrites

/-- The planned edits of a script make the text of the stamped script. -/
theorem applyAll?_plan {source : String} {script : Script.Tree} (hlayout : script.Every layout)
    (htext : script.text = source.toList) :
    Edit.applyAll? source ((plan (fun line => .ofList (record line).text) script).flatMap (·.edits)) =
      some (.ofList (stamped record .start script).text) := by
  have h := rewrites_plan record hlayout
  rw [htext] at h
  exact Edit.applyAll?_of_rewrites h

end Crossing.Stamp
