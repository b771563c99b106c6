import Crossing.Proofs.Script.Exchange
import Crossing.Proofs.Stamp.Relift
import Crossing.Proofs.Stamp.Settled

/-!
# Options in the text and in the tree

The options of a call are a literal, which is looked at twice: as a tree that a record is put into
(`ensure`), and as a text that is edited so that the record stands there. The two agree
(`reread_extended`): there is an edit exactly if the tree takes the record, and the edited text is
read as the tree that took it. The one exception is a literal whose place for the record is in a
remark (`Buried`): what is written there is a part of the remark.
-/

namespace Crossing.Stamp

open Text Script Script.Tree Options List

/-! ## One edit -/

/-- Whether an edit makes a new text of an old one that starts at a position by an insertion. -/
def InsertsInto (spot : Spot) (old new : List Char) (e : Edit) : Prop :=
  ∃ before written after, old = before ++ after ∧ new = before ++ (written ++ after) ∧
    e = .insertion (spot.after before).offset (.ofList written)

variable {spot : Spot} {old new : List Char} {e : Edit}

/-- What is inserted into a part of a text is inserted into the text. -/
theorem InsertsInto.inside {front : List Char} (h : InsertsInto (spot.after front) old new e)
    (behind : List Char) :
    InsertsInto spot (front ++ (old ++ behind)) (front ++ (new ++ behind)) e := by
  obtain ⟨before, written, after, rfl, rfl, rfl⟩ := h
  exact ⟨front ++ before, written, after ++ behind, by simp, by simp, by rw [Spot.after_append]⟩

/-- An insertion is carried out. -/
theorem applyAll?_of_insertsInto {source : String}
    (h : InsertsInto .start source.toList new e) :
    Edit.applyAll? source [e] = some (.ofList new) := by
  obtain ⟨before, written, after, hold, rfl, rfl⟩ := h
  have hstart : (Spot.start.after before).offset = 0 + Utf8.width before := rfl
  have hafter : Edit.Rewrites (0 + Utf8.width before) after (written ++ after)
      [⟨(Spot.start.after before).offset, (Spot.start.after before).offset, .ofList written⟩] := by
    have h := Edit.Rewrites.append (.edit (0 + Utf8.width before) [] written)
      (.keep _ after) (by simp)
    exact h
  have h := Edit.Rewrites.append (.keep 0 before) hafter (by simp)
  rw [← hold] at h
  exact Edit.applyAll?_of_rewrites h

/-- The edit of a literal that is extended inserts what makes it the extended literal. -/
theorem insertsInto_extendTree? (r : Script.Tree) {path : List String}
    (hpath : ∀ key ∈ path, Quoted.key key = key) {t t' : Script.Tree} {lost : Bool}
    (h : extendTree? r path t = some (t', lost)) (spot : Spot) :
    ∃ e, extendEdits? (.ofList r.text) path spot t = some [e] ∧
      InsertsInto spot t.text t'.text e := by
  induction path generalizing spot t t' with
  | nil => contradiction
  | cons key path ih =>
    have hrest : ∀ k ∈ path, Quoted.key k = k := fun k hk => hpath k (mem_cons_of_mem _ hk)
    obtain ⟨_, _, ts, before, last, after, heq, rfl, hseat, ⟨hkey, rfl, rfl⟩ |
      ⟨us, front, value, value', behind, hkey, hvalue, rfl⟩⟩ := exists_of_extendTree? h
    · obtain ⟨rfl, rfl⟩ := List.cons.inj heq
      have htext : (slotTree key (nested path r)).text =
          (Quoted.key key ++ ": " ++ nestedText path (.ofList r.text)).toList := by
        rw [text_slotTree (hpath key mem_cons_self), text_nested hrest]
        simp
      refine ⟨_, extendEdits?_slot _ _ _ hseat hkey, ?_⟩
      obtain rfl := eq_of_seat? hseat
      rw [edit_eq _ _ htext, addSlot_fst]
      refine ⟨textOf before ++ last.text, _, textOf after, ?_, ?_, by rw [Spot.after_append]; rfl⟩
      · simp [Script.Tree.text, textOf_append, textOf]
      · simp [Script.Tree.text, textOf_append, textOf_insertBehind]
    · obtain ⟨rfl, rfl⟩ := List.cons.inj heq
      obtain ⟨e, hedits, hinserts⟩ := ih hrest hvalue ((spot.after (textOf us)).after (textOf front))
      refine ⟨e, (extendEdits?_inside _ _ _ hseat hkey).trans hedits, ?_⟩
      obtain ⟨rfl, -, -⟩ := splitLast?_eq_some.mp hkey
      have h := (hinserts.inside []).inside (textOf behind)
      simpa [Script.Tree.text, textOf_append, textOf] using h

/-! ## The second argument of a call -/

/-- What stands around the second argument of a call. -/
structure Around where
  /-- What is called, and what else stands in front of the arguments. -/
  before : List Script.Tree
  /-- What stands in front of the first argument. -/
  front : List Script.Tree
  first : Script.Tree
  between : List Script.Tree
  behind : List Script.Tree
  after : List Script.Tree
  front_other : ∀ t ∈ front, isArgument t = false
  first_argument : isArgument first = true
  between_other : ∀ t ∈ between, isArgument t = false
  after_filler : ∀ t ∈ after, (!t.isFiller) = false

namespace Around

variable (a : Around) (second : Script.Tree)

/-- The arguments with the second one. -/
def args : List Script.Tree :=
  a.front ++ a.first :: (a.between ++ second :: a.behind)

/-- The call with the second argument. -/
def call : Script.Tree :=
  .node .call (a.before ++ .node .arguments (a.args second) :: a.after)

/-- Where the first argument of a call stands. -/
def firstSpot (spot : Spot) : Spot :=
  (spot.after (textOf a.before)).after (textOf a.front)

/-- Where the second argument of a call stands. -/
def secondSpot (spot : Spot) : Spot :=
  ((a.firstSpot spot).after a.first.text).after (textOf a.between)

/-- The parts of the children of the call. -/
theorem splitLast?_call : splitLast? (!·.isFiller)
    (a.before ++ .node .arguments (a.args second) :: a.after) =
      some (a.before, .node .arguments (a.args second), a.after) :=
  splitLast?_eq_some.mpr ⟨rfl, rfl, a.after_filler⟩

/-- The first argument and what follows it. -/
theorem splitFirst?_args : splitFirst? isArgument (a.args second) =
    some (a.front, a.first, a.between ++ second :: a.behind) :=
  splitFirst?_eq_some.mpr ⟨rfl, a.first_argument, a.front_other⟩

variable {second}

/-- The second argument and what follows it. -/
theorem splitFirst?_second (h : isArgument second = true) :
    splitFirst? isArgument (a.between ++ second :: a.behind) =
      some (a.between, second, a.behind) :=
  splitFirst?_eq_some.mpr ⟨rfl, h, a.between_other⟩

/-- The arguments of the call. -/
theorem arguments?_call (h : isArgument second = true) (spot : Spot) : ∃ closing,
    arguments? spot (a.call second) = some ((a.firstSpot spot, a.first) ::
      (a.secondSpot spot, second) ::
        (placed ((a.secondSpot spot).after second.text) a.behind).filter (isArgument ·.2),
      closing) := by
  refine ⟨stop (spot.after (textOf a.before), .node .arguments (a.args second)) - 1, ?_⟩
  rw [call, arguments?_eq (a.splitLast?_call second),
    filter_placed_of_splitFirst? _ (a.splitFirst?_args second),
    filter_placed_of_splitFirst? _ (a.splitFirst?_second h)]
  rfl

/-- A call with two arguments is what stands around the second one, and the second one. -/
theorem exists_call {ts : List Script.Tree} {first second : Spot × Script.Tree}
    {rest : List (Spot × Script.Tree)} {closing : Nat}
    (h : arguments? spot (.node .call ts) = some (first :: second :: rest, closing)) :
    ∃ a : Around, .node .call ts = a.call second.2 ∧ isArgument second.2 = true ∧
      first = (a.firstSpot spot, a.first) ∧ second.1 = a.secondSpot spot ∧ rest =
        (placed ((a.secondSpot spot).after second.2.text) a.behind).filter (isArgument ·.2) := by
  by_cases hlast : ∃ before args after,
      splitLast? (!·.isFiller) ts = some (before, .node .arguments args, after)
  · obtain ⟨before, args, after, hlast⟩ := hlast
    rw [arguments?_eq hlast] at h
    obtain ⟨hargs, -⟩ := Prod.mk.inj (Option.some.inj h)
    obtain ⟨rfl, -, hafter⟩ := splitLast?_eq_some.mp hlast
    cases hfirst : splitFirst? isArgument args with
    | none =>
      rw [filter_placed_eq_nil (splitFirst?_eq_none.mp hfirst)] at hargs
      contradiction
    | some parted =>
      obtain ⟨front, t, behind⟩ := parted
      rw [filter_placed_of_splitFirst? _ hfirst] at hargs
      obtain ⟨rfl, hrest⟩ := List.cons.inj hargs
      obtain ⟨rfl, ht, hfront⟩ := splitFirst?_eq_some.mp hfirst
      cases hsecond : splitFirst? isArgument behind with
      | none =>
        rw [filter_placed_eq_nil (splitFirst?_eq_none.mp hsecond)] at hrest
        contradiction
      | some parted =>
        obtain ⟨between, u, behind⟩ := parted
        rw [filter_placed_of_splitFirst? _ hsecond] at hrest
        obtain ⟨rfl, rfl⟩ := List.cons.inj hrest
        obtain ⟨rfl, hu, hbetween⟩ := splitFirst?_eq_some.mp hsecond
        exact ⟨⟨before, front, t, between, behind, after, hfront, ht, hbetween, hafter⟩,
          rfl, hu, rfl, rfl, rfl⟩
  · have hother : ∀ before args after,
        splitLast? (!·.isFiller) ts ≠ some (before, .node .arguments args, after) :=
      fun before args after h => hlast ⟨before, args, after, h⟩
    rw [arguments?_other spot hother] at h
    contradiction

/-- A call takes a record if the options that are its second argument do. -/
theorem addRecord?_call (r : Script.Tree) (h : second.hasKind .object = true) :
    addRecord? r (a.call second) =
      (extendTree? r recordPath second).map fun p => (a.call p.1, p.2) := by
  cases second with
  | leaf kind s => contradiction
  | node kind ts =>
    rw [call, addRecord?_arguments (a.splitLast?_call _),
      addArgument?_literal (a.splitFirst?_args _) (a.splitFirst?_second rfl) rfl, Option.map_map]
    rfl

/-- What is inserted into the second argument is inserted into the call. -/
theorem insertsInto_call {second' : Script.Tree}
    (h : InsertsInto (a.secondSpot spot) second.text second'.text e) :
    InsertsInto spot (a.call second).text (a.call second').text e := by
  have hspot : a.secondSpot spot = spot.after
      (textOf a.before ++ textOf a.front ++ a.first.text ++ textOf a.between) := by
    simp only [secondSpot, firstSpot, Spot.after_append]
  rw [hspot] at h
  have h := h.inside (textOf a.behind ++ textOf a.after)
  simpa [call, args, Script.Tree.text, textOf_append, textOf] using h

end Around

/-! ## Options with a record -/

/-- Whether the place for a record in a literal is in a remark. -/
def isBuried (object : Script.Tree) : Bool :=
  (extendTree? blank recordPath object).map Prod.snd == some true

/-- Whether a script with a record in its call of a number is read as this script, if its text is one
of a script. -/
def ReadsExtended (read : Script.Reader) (d : Dialect) (script : Script.Tree) (n : Nat)
    (r : Script.Tree) : Prop :=
  ∀ p ∈ (calls script)[n]?, ∀ q ∈ addRecord? r p.2,
    ∀ again ∈ read d (exchange q.1 n script).text, again = exchange q.1 n script

/-- Whether a script has a call at a position with the given arguments, of which the second one is a
literal that stands for the given slots. -/
def HasOptions (script : Script.Tree) (spot : Spot) (first : Spot × Script.Tree) (place : Spot)
    (rest : List Script.Tree) (denotes : Value Unit) (slots : Slots Unit) : Prop :=
  ∃ call options others closing literal, (spot, call) ∈ calls script ∧
    arguments? spot call = some (first :: (place, options) :: others, closing) ∧
    others.map (·.2) = rest ∧ lift? place options = some literal ∧ literal.plain denotes = slots

/-- The arguments among trees do not depend on where the trees stand. -/
theorem map_filter_placed (p : Script.Tree → Bool) (spot : Spot) (ts : List Script.Tree) :
    ((placed spot ts).filter (p ·.2)).map (·.2) = ts.filter p := by
  induction ts generalizing spot with
  | nil => rfl
  | cons t ts ih =>
    rw [placed, filter_cons, filter_cons]
    cases p t with
    | true => exact congrArg (t :: ·) (ih _)
    | false => exact ih _

/-- A literal is an argument. -/
theorem isArgument_of_hasKind {t : Script.Tree} (h : t.hasKind .object = true) :
    isArgument t = true := by
  cases t with
  | leaf kind s => contradiction
  | node kind ts => rfl

section Options

variable {call object : Script.Tree} {first second : Spot × Script.Tree}
  {rest : List (Spot × Script.Tree)} {closing : Nat}

/-- Only the options count for the edits of a call that has some. -/
theorem edits?_of_object (hargs : arguments? spot call = some (first :: second :: rest, closing))
    (hobject : second.2.hasKind .object = true) (record : String) :
    edits? spot call record = extend? second.1 second.2 record := by
  have hother : second.2.isLeaf .undefined = false := by
    cases hsecond : second.2 with
    | node kind ts => rfl
    | leaf kind s =>
      rw [hsecond] at hobject
      contradiction
  rw [edits?, hargs]
  simp only [Option.bind_eq_bind, Option.bind_some, hother, hobject, Bool.false_eq_true, if_false,
    if_true]

/-- Options are extended exactly if their tree takes the record. -/
theorem extend?_isSome_iff (record : String) : (extend? spot object record).isSome = true ↔
    ∃ literal, lift? spot object = some literal ∧
      (literal.ensure contextPath recordKey record).1 = .inserted := by
  unfold extend?
  cases lift? spot object with
  | none => simp
  | some literal =>
    cases hensure : literal.ensure contextPath recordKey record with
    | mk outcome extended =>
      simp only [Option.bind_eq_bind, Option.bind_some, hensure]
      cases outcome <;> simp [hensure]

/-- An edit of options is one that their tree has, too. -/
theorem exists_extendTree? (r : Script.Tree) {edits : List Edit}
    (h : extend? spot object (.ofList r.text) = some edits) :
    ∃ object' e, extendTree? r recordPath object = some (object', isBuried object) ∧
      edits = [e] ∧ InsertsInto spot object.text object'.text e := by
  rw [show extend? spot object (.ofList r.text) =
    extendEdits? (.ofList r.text) recordPath spot object from extend?_eq _ _ _] at h
  have hagree : Agree (extendEdits? (.ofList r.text) recordPath spot object)
      (extendTree? r recordPath object) (extendTree? r recordPath (stamped (fun _ => r) spot object))
      (Makes (fun _ => r) spot object) := agree_extend r key_recordPath spot object
  cases hagree with
  | stays hedits htree hstamped =>
    rw [h] at hedits
    contradiction
  | changes _ object' _ lost hedits htree hstamped hinserts hmakes =>
    obtain ⟨e, hextend, hinsert⟩ := insertsInto_extendTree? r key_recordPath htree spot
    have hlost : isBuried object = lost := by
      rw [isBuried, extendTree?_record blank r, htree]
      cases lost <;> rfl
    rw [hlost]
    exact ⟨object', e, htree, Option.some.inj (h.symm.trans hextend), hinsert⟩

end Options

/-- What is inserted into a call of a script is inserted into the script, which then has the new call
where the old one stood. -/
theorem applyAll?_exchange {read : Script.Reader} (hread : read.Spec) {d : Dialect} {source : String}
    {script : Script.Tree} (hreads : read d source.toList = some script) {n : Nat}
    {call call' : Script.Tree} (hcall : (calls script)[n]? = some (spot, call))
    (hkind : call'.hasKind .call = true) (h : InsertsInto spot call.text call'.text e) :
    Edit.applyAll? source [e] = some (.ofList (exchange call' n script).text) ∧
      (spot, call') ∈ calls (exchange call' n script) := by
  obtain ⟨⟨before, after, hold, hnew, hspot⟩, hfound⟩ := exchanged_calls hkind hcall
  dsimp only at hold hspot hfound
  subst hspot
  have hsource : source.toList = before ++ (call.text ++ after) := by
    rw [← hread.text hreads, hold, List.append_assoc]
  have hwritten := h.inside after
  rw [← hsource, ← List.append_assoc, ← hnew] at hwritten
  exact ⟨applyAll?_of_insertsInto hwritten, hfound⟩

/-- The options of a call are edited exactly if their tree takes the record. The edited text is read
as a script in which the call has the options that took it, and all other arguments as they were; but
a record whose place is in a remark is not found there, and the options are as they were. -/
theorem reread_extended {read : Script.Reader} (hread : read.Spec) {d : Dialect} {source : String}
    {script : Script.Tree} (hreads : read d source.toList = some script) {n : Nat}
    {call : Script.Tree} (hcall : (calls script)[n]? = some (spot, call))
    {first second : Spot × Script.Tree} {rest : List (Spot × Script.Tree)} {closing : Nat}
    (hargs : arguments? spot call = some (first :: second :: rest, closing))
    (hobject : second.2.hasKind .object = true) (r : Script.Tree)
    (hback : ReadsExtended read d script n r) :
    ((edits? spot call (.ofList r.text)).isSome = true ↔
      ∃ literal, lift? second.1 second.2 = some literal ∧
        (literal.ensure contextPath recordKey (.ofList r.text)).1 = .inserted) ∧
    ∀ edits, edits? spot call (.ofList r.text) = some edits → ∃ literal code,
      lift? second.1 second.2 = some literal ∧
      (literal.ensure contextPath recordKey (.ofList r.text)).2.plain (denoted r) ≠
        literal.plain (denoted r) ∧
      Edit.applyAll? source edits = some code ∧ ∀ again, read d code.toList = some again →
        HasOptions again spot first second.1 (rest.map (·.2)) (denoted r)
          ((if isBuried second.2 then literal
            else (literal.ensure contextPath recordKey (.ofList r.text)).2).plain (denoted r)) := by
  have hoptions := edits?_of_object hargs hobject (.ofList r.text)
  refine ⟨by rw [hoptions, extend?_isSome_iff], fun edits hedits => ?_⟩
  obtain ⟨⟨ts, hts⟩, -, -⟩ :=
    call_of_mem_callsAt (L := layout) (List.mem_of_getElem? hcall)
  dsimp only at hts
  subst hts
  obtain ⟨a, hcallee, hargument, rfl, hplace, rfl⟩ := Around.exists_call hargs
  rw [hcallee] at hcall hoptions
  obtain ⟨place, second⟩ := second
  dsimp only at hplace hobject hoptions hcall ⊢
  subst hplace
  obtain ⟨object', e, hextend, rfl, hinserts⟩ :=
    exists_extendTree? r (hoptions.symm.trans (hcallee ▸ hedits))
  obtain ⟨_, slots, _, slots', hlift, hlift', hinserted, hplain⟩ := lift_extendTree? r
    (show extendTree? r (contextPath ++ [recordKey]) second = _ from hextend)
    (a.secondSpot spot) (a.secondSpot spot) (.ofList r.text)
  -- The script with the extended options is the one that is read.
  have hadded : addRecord? r (a.call second) = some (a.call object', isBuried second) := by
    rw [a.addRecord?_call r hobject, hextend]
    rfl
  obtain ⟨happlied, hfound⟩ := applyAll?_exchange hread hreads hcall
    (show (a.call object').hasKind .call = true from rfl) (a.insertsInto_call hinserts)
  refine ⟨⟨_, slots⟩, _, by rw [lift?, hlift], plain_ensure_ne _ _ _ _ hinserted, happlied,
    fun again hagain => ?_⟩
  rw [String.toList_ofList] at hagain
  obtain rfl := hback _ hcall _ hadded again hagain
  obtain ⟨closing', hargs'⟩ := a.arguments?_call
    (isArgument_of_hasKind (hasKind_of_extendTree? hextend)) spot
  refine ⟨a.call object', object', _, closing', ⟨_, slots'⟩, hfound, hargs', ?_,
    by rw [lift?, hlift'], ?_⟩
  · rw [map_filter_placed, map_filter_placed]
  · rw [Literal.plain, hplain]
    cases isBuried second <;> rfl

/-- Options that hold nothing but a remark are read as they were, as the record is in the remark. -/
theorem reread_remark : ∃ script call first second closing edits literal code again,
    parse? .plain "a.b.query(1, \x7b<!-- c\n\x7d);".toList = some script ∧
    (calls script)[0]? = some (.start, call) ∧
    arguments? .start call = some ([first, second], closing) ∧
    second.2.hasKind .object = true ∧ isBuried second.2 = true ∧
    ReadsExtended parse? .plain script 0 (recordTree "./a.ts" .server 1) ∧
    edits? .start call (.ofList (recordTree "./a.ts" .server 1).text) = some edits ∧
    lift? second.1 second.2 = some literal ∧
    (literal.ensure contextPath recordKey (.ofList (recordTree "./a.ts" .server 1).text)).2.plain
        (denoted (recordTree "./a.ts" .server 1)) ≠
      literal.plain (denoted (recordTree "./a.ts" .server 1)) ∧
    Edit.applyAll? "a.b.query(1, \x7b<!-- c\n\x7d);" edits = some code ∧
    parse? .plain code.toList = some again ∧
    HasOptions again .start first second.1 [] (denoted (recordTree "./a.ts" .server 1))
      (literal.plain (denoted (recordTree "./a.ts" .server 1))) := by
  obtain ⟨script, hscript⟩ := Option.isSome_iff_exists.mp
    (by decide +kernel : (parse? .plain "a.b.query(1, \x7b<!-- c\n\x7d);".toList).isSome = true)
  have hcheck : ∀ script ∈ parse? .plain "a.b.query(1, \x7b<!-- c\n\x7d);".toList,
      ReadsExtended parse? .plain script 0 (recordTree "./a.ts" .server 1) ∧
      (calls script)[0]?.isSome = true ∧ ∀ p ∈ (calls script)[0]?, p.1 = .start ∧
      (arguments? .start p.2).isSome = true ∧ ∀ args ∈ arguments? .start p.2, args.1.length = 2 ∧
      ∀ second ∈ args.1[1]?, second.2.hasKind .object = true ∧ isBuried second.2 = true ∧
      (edits? .start p.2 (.ofList (recordTree "./a.ts" .server 1).text)).isSome = true ∧
      ∀ edits ∈ edits? .start p.2 (.ofList (recordTree "./a.ts" .server 1).text),
      ∀ code ∈ Edit.applyAll? "a.b.query(1, \x7b<!-- c\n\x7d);" edits,
        (parse? .plain code.toList).isSome = true := by
    unfold ReadsExtended
    decide +kernel
  obtain ⟨hback, hcall, hcheck⟩ := hcheck script hscript
  obtain ⟨⟨spot, call⟩, hcall⟩ := Option.isSome_iff_exists.mp hcall
  obtain ⟨rfl, hargs, hcheck⟩ := hcheck _ hcall
  obtain ⟨⟨args, closing⟩, hargs⟩ := Option.isSome_iff_exists.mp hargs
  obtain ⟨htwo, hcheck⟩ := hcheck _ hargs
  obtain ⟨first, second, rfl⟩ := List.length_eq_two.mp htwo
  obtain ⟨hobject, hburied, hedits, hcheck⟩ := hcheck second rfl
  obtain ⟨edits, hedits⟩ := Option.isSome_iff_exists.mp hedits
  obtain ⟨-, hreread⟩ := reread_extended spec_parse? hscript hcall hargs hobject _ hback
  obtain ⟨literal, code, hlift, htaken, hcode, hoptions⟩ := hreread edits hedits
  obtain ⟨again, hagain⟩ := Option.isSome_iff_exists.mp (hcheck edits hedits code hcode)
  have hsame := hoptions again hagain
  rw [if_pos hburied] at hsame
  exact ⟨script, call, first, second, closing, edits, literal, code, again, hscript, hcall, hargs,
    hobject, hburied, hback, hedits, hlift, htaken, hcode, hagain, hsame⟩

end Crossing.Stamp
