import Crossing.Proofs.Stamp.Planned

/-!
# Stamping again

Whether a call takes a record does not depend on the record. A call that has got one takes no other,
unless the record was lost in a remark: then the place for it is where it was, and the call takes a
record again, as often as it is stamped (`addRecord?_again`).
-/

namespace Crossing.Stamp

open Script Script.Tree

variable {r r' : Script.Tree} {path : List String}

/-! ## The record does not count -/

/-- Whether a literal is extended, and the record lost there, does not depend on the record. -/
theorem extendTree?_record (r r' : Script.Tree) (path : List String) (t : Script.Tree) :
    (extendTree? r path t).map Prod.snd = (extendTree? r' path t).map Prod.snd := by
  induction path generalizing t with
  | nil => rfl
  | cons key path ih =>
    by_cases hobject : t.hasKind .object = true
    · cases t with
      | leaf kind s => contradiction
      | node kind ts =>
        obtain rfl : kind = .object := (of_decide_eq_true hobject).symm
        cases hseat : seat? ts with
        | none => rw [extendTree?_unseated hseat, extendTree?_unseated hseat]
        | some parted =>
          obtain ⟨before, last, after⟩ := parted
          cases hkey : splitLast? (isAt key) ts with
          | none =>
            rw [extendTree?_slot _ _ hseat hkey, extendTree?_slot _ _ hseat hkey, Option.map_some,
              Option.map_some, addSlot_snd, addSlot_snd]
          | some parted =>
            obtain ⟨us, member, behind⟩ := parted
            rw [extendTree?_inside _ _ hseat hkey, extendTree?_inside _ _ hseat hkey]
            cases pairParts? member with
            | none => rfl
            | some parts =>
              have hvalue := ih parts.2
              simp only [Option.bind_some, Option.map_map, Function.comp_def] at hvalue ⊢
              exact hvalue
    · have hother : t.hasKind .object = false := Bool.eq_false_iff.mpr hobject
      rw [extendTree?_other hother, extendTree?_other hother]

/-- Whether arguments take a record, and lose it, does not depend on the record. -/
theorem addArgument?_record (r r' : Script.Tree) (args : List Script.Tree) :
    (addArgument? r args).map Prod.snd = (addArgument? r' args).map Prod.snd := by
  cases hfirst : splitFirst? isArgument args with
  | none => rw [addArgument?_none hfirst, addArgument?_none hfirst]; rfl
  | some parted =>
    obtain ⟨before, first, after⟩ := parted
    cases hsecond : splitFirst? isArgument after with
    | none => rw [addArgument?_single _ hfirst hsecond, addArgument?_single _ hfirst hsecond]; rfl
    | some parted =>
      obtain ⟨between, second, behind⟩ := parted
      cases hundefined : second.isLeaf .undefined with
      | true =>
        rw [addArgument?_undefined hfirst hsecond hundefined,
          addArgument?_undefined hfirst hsecond hundefined]
        rfl
      | false =>
        have h := extendTree?_record r r' recordPath second
        rw [addArgument?_literal hfirst hsecond hundefined,
          addArgument?_literal hfirst hsecond hundefined]
        simp only [Option.map_map, Function.comp_def] at h ⊢
        exact h

/-- Whether a call takes a record, and loses it, does not depend on the record. -/
theorem addRecord?_record (r r' : Script.Tree) (ts : List Script.Tree) :
    (addRecord? r (.node .call ts)).map Prod.snd =
      (addRecord? r' (.node .call ts)).map Prod.snd := by
  by_cases h : ∃ before args after,
      splitLast? (!·.isFiller) ts = some (before, .node .arguments args, after)
  · obtain ⟨before, args, after, hlast⟩ := h
    have h := addArgument?_record r r' args
    rw [addRecord?_arguments hlast, addRecord?_arguments hlast]
    simp only [Option.map_map, Function.comp_def] at h ⊢
    exact h
  · have hother : ∀ before args after,
        splitLast? (!·.isFiller) ts ≠ some (before, .node .arguments args, after) :=
      fun before args after hlast => h ⟨before, args, after, hlast⟩
    rw [addRecord?_other hother, addRecord?_other hother]

/-! ## Literals with a record -/

/-- Options that hold a record take none. -/
theorem extendTree?_nested (r r' : Script.Tree) (path : List String) :
    extendTree? r' path (nested path r) = none := by
  induction path with
  | nil => rfl
  | cons key path ih =>
    -- The one slot of the literal is the last one of its key, so what counts is its value.
    have hkey : splitLast? (isAt key) [mark "\x7b", blank, slotTree key (nested path r), blank,
        mark "\x7d"] = some ([mark "\x7b", blank], slotTree key (nested path r),
          [blank, mark "\x7d"]) := by
      refine splitLast?_eq_some.mpr ⟨rfl, ?_, ?_⟩
      · simp [isAt, slotTree, pairKey?, key?, isTrivia]
      · simp [isAt, blank, mark]
    have hvalue : pairParts? (slotTree key (nested path r)) =
        some ([.leaf .property key.toList, mark ":", blank], nested path r) :=
      pairParts?_eq_some.mpr rfl
    cases hseat : seat? [mark "\x7b", blank, slotTree key (nested path r), blank, mark "\x7d"] with
    | none => exact extendTree?_unseated hseat
    | some parted =>
      have h := extendTree?_inside r' path hseat hkey
      rw [hvalue] at h
      dsimp only [Option.bind_some] at h
      rw [ih] at h
      exact h

/-- No tree gains a property by a gap in front of it that blanks do not have. -/
theorem forall_glue {p : Script.Tree → Bool} (hp : ∀ s, p (.leaf .trivia s) = false)
    {ts : List Script.Tree} (h : ∀ u ∈ ts, p u = false) (s : List Char) :
    ∀ u ∈ glue s ts, p u = false := by
  unfold glue
  intro u hu
  split at hu
  · exact h u hu
  · rcases List.mem_cons.mp hu with rfl | hu
    · exact hp _
    · exact h u (List.mem_cons_of_mem _ hu)
  · rcases List.mem_cons.mp hu with rfl | hu
    · exact hp _
    · exact h u hu

/-- Whether two trees count alike where the seat of a literal is sought. -/
def SeatAlike (t u : Script.Tree) : Prop :=
  t.isFiller = u.isFiller ∧ t.isMark "\x7d" = u.isMark "\x7d" ∧
    t.isLeaf .remark = u.isLeaf .remark

/-- A list of which one tree is changed has a seat if it had one, and behind a remark if it was
there. -/
theorem exists_seat? {before after us behind : List Script.Tree} {t u last : Script.Tree}
    (h : SeatAlike t u) (hseat : seat? (before ++ t :: after) = some (us, last, behind)) :
    ∃ us' last' behind', seat? (before ++ u :: after) = some (us', last', behind') ∧
      last'.isLeaf .remark = last.isLeaf .remark := by
  have hself (ts : List Script.Tree) : List.Forall₂ SeatAlike ts ts :=
    List.forall₂_same.mpr fun _ _ => ⟨rfl, rfl, rfl⟩
  have hsame : List.Forall₂ SeatAlike (before ++ t :: after) (before ++ u :: after) :=
    List.rel_append (hself before) (.cons h (hself after))
  have hrel := seat?_rel (fun _ _ h => ⟨h.1, h.2.1⟩) hsame
  rw [hseat] at hrel
  generalize seat? (before ++ u :: after) = y at hrel
  cases hrel with
  | @some _ y hy => exact ⟨y.1, y.2.1, y.2.2, rfl, hy.2.1.2.2.symm⟩

/-- The key of a pair does not depend on its value. -/
theorem pairKey?_concat (front : List Script.Tree) (value value' : Script.Tree) :
    pairKey? (front ++ [value]) = pairKey? (front ++ [value']) := by
  induction front with
  | nil => rfl
  | cons t front ih =>
    cases front with
    | nil => rfl
    | cons u front =>
      show (if t.isTrivia then pairKey? (u :: front ++ [value]) else key? t) =
        if t.isTrivia then pairKey? (u :: front ++ [value']) else key? t
      rw [ih]

/-- A slot in a remark leaves a literal without the slot. -/
theorem extendTree?_lost {key : String} {ts before after : List Script.Tree} {s : List Char}
    (hseat : seat? ts = some (before, .leaf .remark s, after))
    (hkey : splitLast? (isAt key) ts = none) (slot : Script.Tree) :
    (extendTree? r' (key :: path)
      (.node .object (addSlot slot before (.leaf .remark s) after).1)).map Prod.snd = some true := by
  obtain rfl := eq_of_seat? hseat
  have hnone := splitLast?_eq_none.mp hkey
  rw [addSlot_fst]
  generalize (layoutOf before (.leaf .remark s)).written slot = written
  -- The remark is longer, and nothing else has changed.
  have halike : SeatAlike (.leaf .remark s) (.leaf .remark (s ++ textOf written.1 ++ written.2)) :=
    ⟨rfl, rfl, rfl⟩
  obtain ⟨before', last', after', hseat', hlast'⟩ := exists_seat? halike hseat
  have hkey' : splitLast? (isAt key)
      (before ++ .leaf .remark (s ++ textOf written.1 ++ written.2) :: after) = none := by
    refine splitLast?_eq_none.mpr fun u hu => ?_
    rcases List.mem_append.mp hu with hu | hu
    · exact hnone u (List.mem_append_left _ hu)
    · rcases List.mem_cons.mp hu with rfl | hu
      · rfl
      · exact hnone u (List.mem_append_right _ (List.mem_cons_of_mem _ hu))
  have h := extendTree?_slot r' path hseat' hkey'
  rw [addSlot_snd, hlast'] at h
  exact congrArg (Option.map Prod.snd) h

/-- A slot that is not lost is found, and what it holds takes no record. -/
theorem extendTree?_found {key : String} {ts before after : List Script.Tree} {last : Script.Tree}
    (hseat : seat? ts = some (before, last, after)) (hkey : splitLast? (isAt key) ts = none)
    (hlast : last.isLeaf .remark = false) :
    extendTree? r' (key :: path)
      (.node .object (addSlot (slotTree key (nested path r)) before last after).1) = none := by
  obtain rfl := eq_of_seat? hseat
  have hnone := splitLast?_eq_none.mp hkey
  have hafter (u : Script.Tree) (hu : u ∈ after) : isAt key u = false :=
    hnone u (List.mem_append_right _ (List.mem_cons_of_mem _ hu))
  have hslot : isAt key (slotTree key (nested path r)) = true := by
    simp [isAt, slotTree, pairKey?, key?, isTrivia]
  -- Behind the slot there are at most a comma, a gap, and what stood there before.
  obtain ⟨us, behind, hsplit⟩ : ∃ us behind, splitLast? (isAt key)
      (addSlot (slotTree key (nested path r)) before last after).1 =
        some (us, slotTree key (nested path r), behind) := by
    rw [addSlot_fst, insertBehind_fst hlast]
    cases layoutOf before last with
    | empty =>
      exact ⟨before ++ [last, blank], glue [' '] after, splitLast?_eq_some.mpr
        ⟨by simp [Layout.written], hslot, forall_glue (fun _ => rfl) hafter _⟩⟩
    | trailingComma =>
      refine ⟨before ++ [last, blank], mark "," :: after, splitLast?_eq_some.mpr
        ⟨by simp [Layout.written, glue], hslot, fun u hu => ?_⟩⟩
      rcases List.mem_cons.mp hu with rfl | hu
      · rfl
      · exact hafter u hu
    | afterLast =>
      exact ⟨before ++ [last, mark ",", blank], after, splitLast?_eq_some.mpr
        ⟨by simp [Layout.written, glue], hslot, hafter⟩⟩
  cases hseat' : seat? (addSlot (slotTree key (nested path r)) before last after).1 with
  | none => exact extendTree?_unseated hseat'
  | some parted =>
    have h := extendTree?_inside r' path hseat' hsplit
    have hvalue : pairParts? (slotTree key (nested path r)) =
        some ([.leaf .property key.toList, mark ":", blank], nested path r) :=
      pairParts?_eq_some.mpr rfl
    rw [hvalue] at h
    dsimp only [Option.bind_some] at h
    rw [extendTree?_nested] at h
    exact h

/-- What becomes of another record in a call that has got one: the call takes it only if the first
one was lost, and then this one is lost, too. -/
def again (lost : Bool) : Option Bool :=
  if lost then some true else none

/-- A literal that has got a record takes no other, unless the record was lost. -/
theorem extendTree?_again (r' : Script.Tree) {t t' : Script.Tree} {lost : Bool}
    (h : extendTree? r path t = some (t', lost)) :
    (extendTree? r' path t').map Prod.snd = again lost := by
  induction path generalizing t t' with
  | nil => contradiction
  | cons key path ih =>
    obtain ⟨_, _, ts, before, last, after, hpath, rfl, hseat, ⟨hkey, rfl, rfl⟩ |
      ⟨us, front, value, value', behind, hkey, hvalue, rfl⟩⟩ := exists_of_extendTree? h
    · -- The literal got the slot.
      cases hpath
      cases hlast : last.isLeaf .remark with
      | false => rw [extendTree?_found hseat hkey hlast]; rfl
      | true =>
        cases last with
        | leaf kind s =>
          obtain rfl : kind = .remark := (of_decide_eq_true hlast).symm
          exact extendTree?_lost hseat hkey _
        | node kind us => contradiction
    · -- The value of a slot got it: the slot is at its place still, and is the last one of its key.
      cases hpath
      obtain ⟨rfl, hat, hbehind⟩ := splitLast?_eq_some.mp hkey
      have halike : SeatAlike (.node .pair (front ++ [value]))
          (.node .pair (front ++ [value'])) := ⟨rfl, rfl, rfl⟩
      obtain ⟨before', last', after', hseat', -⟩ := exists_seat? halike hseat
      have hkey' : splitLast? (isAt key) (us ++ .node .pair (front ++ [value']) :: behind) =
          some (us, .node .pair (front ++ [value']), behind) := by
        refine splitLast?_eq_some.mpr ⟨rfl, ?_, hbehind⟩
        rw [isAt] at hat ⊢
        rwa [pairKey?_concat front value' value]
      have hinner := ih hvalue
      rw [extendTree?_inside _ _ hseat' hkey', pairParts?_eq_some.mpr rfl]
      simp only [Option.bind_some, Option.map_map, Function.comp_def] at hinner ⊢
      exact hinner

/-! ## Calls with a record -/

/-- An extended literal is a literal. -/
theorem hasKind_of_extendTree? {t t' : Script.Tree} {lost : Bool}
    (h : extendTree? r path t = some (t', lost)) : t'.hasKind .object = true := by
  obtain ⟨_, _, _, _, _, _, -, -, -, ⟨-, -, rfl⟩ | ⟨_, _, _, _, _, -, -, rfl⟩⟩ :=
    exists_of_extendTree? h <;> rfl

/-- Arguments whose second one are options with the record take no other. -/
theorem addArgument?_options {ts before between behind : List Script.Tree} {first : Script.Tree}
    (hfirst : splitFirst? isArgument ts =
      some (before, first, between ++ nested recordPath r :: behind))
    (hbetween : ∀ u ∈ between, isArgument u = false) : addArgument? r' ts = none := by
  have hsecond : splitFirst? isArgument (between ++ nested recordPath r :: behind) =
      some (between, nested recordPath r, behind) :=
    splitFirst?_eq_some.mpr ⟨rfl, rfl, hbetween⟩
  rw [addArgument?_literal hfirst hsecond rfl, extendTree?_nested]
  rfl

/-- What separates two arguments is no argument. -/
theorem isArgument_separator : ∀ u ∈ [mark ",", blank], isArgument u = false := by
  simp [isArgument, mark, blank, isFiller, isLeaf]

/-- Options behind a single argument are found there. -/
theorem addArgument?_behind {ts before after : List Script.Tree} {first : Script.Tree}
    (hfirst : splitFirst? isArgument ts = some (before, first, after))
    (hlast : first.isLeaf .remark = false) : addArgument? r'
      (before ++ (insertBehind [mark ",", blank, nested recordPath r] [] first after).1) = none := by
  obtain ⟨-, hisFirst, hbefore⟩ := splitFirst?_eq_some.mp hfirst
  have hfirst' : splitFirst? isArgument (before ++ (insertBehind
      [mark ",", blank, nested recordPath r] [] first after).1) =
        some (before, first, [mark ",", blank] ++ nested recordPath r :: after) := by
    rw [insertBehind_fst hlast]
    exact splitFirst?_eq_some.mpr ⟨rfl, hisFirst, hbefore⟩
  exact addArgument?_options hfirst' isArgument_separator

/-- Options behind a remark that counts as an argument leave it the only argument. -/
theorem addArgument?_lost {ts before after : List Script.Tree} {s : List Char}
    (hfirst : splitFirst? isArgument ts = some (before, .leaf .remark s, after))
    (hsecond : splitFirst? isArgument after = none) : (addArgument? r' (before ++ (insertBehind
      [mark ",", blank, nested recordPath r] [] (.leaf .remark s) after).1)).map Prod.snd =
        some true := by
  obtain ⟨-, -, hbefore⟩ := splitFirst?_eq_some.mp hfirst
  have hfirst' : splitFirst? isArgument (before ++ (insertBehind
      [mark ",", blank, nested recordPath r] [] (.leaf .remark s) after).1) =
        some (before, .leaf .remark
          (s ++ textOf [mark ",", blank, nested recordPath r] ++ []), after) :=
    splitFirst?_eq_some.mpr ⟨rfl, rfl, hbefore⟩
  rw [addArgument?_single _ hfirst' hsecond]
  rfl

/-- Arguments that have got a record take no other, unless the record was lost. -/
theorem addArgument?_again (r' : Script.Tree) {ts ts' : List Script.Tree} {lost : Bool}
    (h : addArgument? r ts = some (ts', lost)) :
    (addArgument? r' ts').map Prod.snd = again lost := by
  cases argued_of_addArgument? h with
  | none hfirst =>
    -- The name `undefined` is the first argument now, and the options are the second one.
    have hnone := splitFirst?_eq_none.mp hfirst
    have hfirst' : splitFirst? isArgument (ts.dropLast ++ .leaf .undefined "undefined".toList ::
        mark "," :: blank :: nested recordPath r :: ts.getLast?.toList) =
          some (ts.dropLast, .leaf .undefined "undefined".toList,
            [mark ",", blank] ++ nested recordPath r :: ts.getLast?.toList) :=
      splitFirst?_eq_some.mpr ⟨rfl, rfl, fun u hu => hnone u ((List.dropLast_subset ts) hu)⟩
    rw [addArgument?_options hfirst' isArgument_separator]
    rfl
  | @single _ _ first hfirst hsecond =>
    cases hlast : first.isLeaf .remark with
    | false =>
      rw [addArgument?_behind hfirst hlast]
      rfl
    | true =>
      cases first with
      | leaf kind s =>
        obtain rfl : kind = .remark := (of_decide_eq_true hlast).symm
        exact addArgument?_lost hfirst hsecond
      | node kind us => contradiction
  | undefined hfirst hsecond hundefined =>
    obtain ⟨-, hisFirst, hbefore⟩ := splitFirst?_eq_some.mp hfirst
    obtain ⟨-, -, hbetween⟩ := splitFirst?_eq_some.mp hsecond
    rw [addArgument?_options (splitFirst?_eq_some.mpr ⟨rfl, hisFirst, hbefore⟩) hbetween]
    rfl
  | @literal before between behind first _ second' _ hfirst hsecond hextend =>
    -- The second argument is a literal still, so the question is one about the literal.
    obtain ⟨-, hisFirst, hbefore⟩ := splitFirst?_eq_some.mp hfirst
    obtain ⟨-, -, hbetween⟩ := splitFirst?_eq_some.mp hsecond
    have hobject := hasKind_of_extendTree? hextend
    cases second' with
    | leaf kind s => contradiction
    | node kind us =>
      have hfirst' : splitFirst? isArgument
          (before ++ first :: (between ++ .node kind us :: behind)) =
          some (before, first, between ++ .node kind us :: behind) :=
        splitFirst?_eq_some.mpr ⟨rfl, hisFirst, hbefore⟩
      have hsecond' : splitFirst? isArgument (between ++ .node kind us :: behind) =
          some (between, .node kind us, behind) :=
        splitFirst?_eq_some.mpr ⟨rfl, rfl, hbetween⟩
      have hinner := extendTree?_again r' hextend
      rw [addArgument?_literal hfirst' hsecond' rfl]
      simp only [Option.map_map, Function.comp_def] at hinner ⊢
      exact hinner

/-- A call that has got a record is a call that takes no other, unless the record was lost. -/
theorem addRecord?_again (r' : Script.Tree) {call call' : Script.Tree} {lost : Bool}
    (h : addRecord? r call = some (call', lost)) :
    (addRecord? r' call').map Prod.snd = again lost := by
  obtain ⟨ts, before, args, args', after, rfl, hlast, hargs, rfl⟩ := exists_of_addRecord? h
  obtain ⟨-, -, hafter⟩ := splitLast?_eq_some.mp hlast
  have hlast' : splitLast? (!·.isFiller) (before ++ .node .arguments args' :: after) =
      some (before, .node .arguments args', after) :=
    splitLast?_eq_some.mpr ⟨rfl, rfl, hafter⟩
  have hinner := addArgument?_again r' hargs
  rw [addRecord?_arguments hlast']
  simp only [Option.map_map, Function.comp_def] at hinner ⊢
  exact hinner

end Crossing.Stamp
