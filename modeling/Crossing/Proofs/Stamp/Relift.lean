import Crossing.Proofs.Options.Plain
import Crossing.Proofs.Stamp.Again

/-!
# Extended literals as options trees

The options tree of a literal that was extended by a record is the one in which the record was put at
the end of its path (`lift_extendTree?`): the slot that is written behind the last member is the slot
that `ensure` adds, at the same depth. If the record was lost in a remark, the options tree stays.
-/

namespace Crossing.Stamp

open Text Script Script.Tree Options

/-- The value that a tree stands for, wherever it stands. -/
def denoted (t : Script.Tree) : Value Unit :=
  (liftValue .start t).plain .other

/-- The slots of trees are those of the first and then those of the others. -/
theorem liftSlots_cons (spot : Spot) (t : Script.Tree) (ts : List Script.Tree) :
    liftSlots spot (t :: ts) = liftSlots spot [t] ++ liftSlots (spot.after t.text) ts := by
  cases t with
  | leaf kind s => cases kind <;> simp [liftSlots]
  | node kind us => cases kind <;> simp [liftSlots]

mutual

/-- What a tree stands for does not depend on where it stands. -/
theorem plain_liftValue (spot spot' : Spot) (denotes denotes' : Value Unit) (t : Script.Tree) :
    (liftValue spot t).plain denotes = (liftValue spot' t).plain denotes' := by
  cases t with
  | leaf kind s => rfl
  | node kind ts =>
    have hslots := plain_liftSlots spot spot' denotes denotes' ts
    by_cases hkind : kind = .object
    · subst hkind
      rw [liftValue, liftValue, anchor?_eq, anchor?_eq]
      cases seat? ts with
      | none => rfl
      | some parted => exact congrArg (Value.object none) hslots
    · have hother : (Script.Tree.node kind ts).hasKind .object = false :=
        decide_eq_false (Ne.symm hkind)
      rw [liftValue_other hother, liftValue_other hother]
      rfl

/-- The slots of a literal do not depend on where it stands. -/
theorem plain_liftSlots (spot spot' : Spot) (denotes denotes' : Value Unit)
    (ts : List Script.Tree) :
    plainSlots (liftSlots spot ts) denotes = plainSlots (liftSlots spot' ts) denotes' := by
  cases ts with
  | nil => rfl
  | cons t ts =>
    have hrest := plain_liftSlots (spot.after t.text) (spot'.after t.text) denotes denotes' ts
    rw [liftSlots_cons, liftSlots_cons spot', plainSlots_append, plainSlots_append, hrest]
    congr 1
    cases t with
    | leaf kind s => cases kind <;> rfl
    | node kind members =>
      by_cases hkind : kind = .pair
      · subst hkind
        have hkey : (liftPair spot none members).key = (liftPair spot' none members).key := by
          rw [key_liftPair, key_liftPair]
        have hvalue := plain_liftPair spot spot' denotes denotes' none members
        rw [liftSlots, liftSlots, liftSlots, liftSlots, List.append_nil, List.append_nil,
          plainSlots, plainSlots, hkey, hvalue]
        rfl
      · cases kind <;> first | exact absurd rfl hkind | rfl

/-- The value of a pair does not depend on where it stands. -/
theorem plain_liftPair (spot spot' : Spot) (denotes denotes' : Value Unit)
    (key : Option Script.Tree) (ts : List Script.Tree) :
    (liftPair spot key ts).value.plain denotes = (liftPair spot' key ts).value.plain denotes' := by
  match ts with
  | [] => rfl
  | [t] => exact plain_liftValue spot spot' denotes denotes' t
  | t :: u :: ts =>
    rw [liftPair, liftPair]
    exact plain_liftPair _ _ denotes denotes' _ (u :: ts)

end

variable {spot spot' : Spot} {denotes : Value Unit}

/-! ## Slots -/

/-- The slots of joined lists. -/
theorem liftSlots_append (spot : Spot) (ts us : List Script.Tree) : liftSlots spot (ts ++ us) =
    liftSlots spot ts ++ liftSlots (spot.after (textOf ts)) us := by
  induction ts generalizing spot with
  | nil => rfl
  | cons t ts ih =>
    rw [List.cons_append, liftSlots_cons, liftSlots_cons spot t ts, ih, textOf, Spot.after_append,
      List.append_assoc]

/-- Blanks and signs are no slots. -/
theorem liftSlots_eq_nil {ts : List Script.Tree} (h : ∀ t ∈ ts, isArgument t = false) (spot : Spot) :
    liftSlots spot ts = [] := by
  induction ts generalizing spot with
  | nil => rfl
  | cons t ts ih =>
    have hhead := h t List.mem_cons_self
    rw [liftSlots_cons, ih fun u hu => h u (List.mem_cons_of_mem t hu)]
    cases t with
    | node kind us => contradiction
    | leaf kind s => cases kind <;> first | rfl | contradiction

/-- The slot of a key that is written. -/
theorem plain_slotTree (key : String) (value : Script.Tree) :
    plainSlots (liftSlots spot [slotTree key value]) denotes =
      [⟨some key, (liftValue .start value).plain denotes, false⟩] := by
  have hkey : (liftPair spot none [.leaf .property key.toList, mark ":", blank, value]).key =
      some key := by
    rw [key_liftPair]
    simp [pairKey?, key?, isTrivia]
  have hparts : pairParts? (.node .pair [.leaf .property key.toList, mark ":", blank, value]) =
      some ([.leaf .property key.toList, mark ":", blank], value) := pairParts?_eq_some.mpr rfl
  rw [slotTree, liftSlots]
  simp only [liftSlots, List.append_nil, plainSlots, hkey]
  rw [← memberValue_pair, memberValue, hparts]
  exact congrArg (fun value => [Slot.mk (some key) value false])
    (plain_liftValue _ .start denotes denotes value)

/-- What is written for a slot is this slot, with blanks and a comma. -/
theorem plain_written (layout : Layout) (key : String) (value : Script.Tree) :
    plainSlots (liftSlots spot (layout.written (slotTree key value)).1) denotes =
      [⟨some key, (liftValue .start value).plain denotes, false⟩] := by
  have hblank : ∀ t ∈ [blank], isArgument t = false := by simp [isArgument, blank, isFiller]
  have hcomma : ∀ t ∈ [mark ","], isArgument t = false := by simp [isArgument, mark, isLeaf]
  cases layout with
  | empty =>
    show plainSlots (liftSlots spot ([blank] ++ [slotTree key value])) denotes = _
    rw [liftSlots_append, liftSlots_eq_nil hblank, List.nil_append, plain_slotTree]
  | trailingComma =>
    show plainSlots (liftSlots spot ([blank] ++ ([slotTree key value] ++ [mark ","]))) denotes = _
    rw [liftSlots_append, liftSlots_append, liftSlots_eq_nil hblank, liftSlots_eq_nil hcomma,
      List.nil_append, List.append_nil, plain_slotTree]
  | afterLast =>
    show plainSlots (liftSlots spot ([mark ",", blank] ++ [slotTree key value])) denotes = _
    rw [liftSlots_append, liftSlots_eq_nil isArgument_separator, List.nil_append, plain_slotTree]

/-! ## A literal with a slot more -/

section Literal

variable {ts before after : List Script.Tree} {last : Script.Tree}

/-- Behind the last member of a literal there are only blanks and the brace that closes it. -/
theorem isArgument_of_seat? (h : seat? ts = some (before, last, after)) :
    ∀ t ∈ after, isArgument t = false := by
  obtain ⟨members, closing, gap, behind, hclosing, hmark, hlast, rfl⟩ := seat?_eq_some.mp h
  obtain ⟨-, -, hbehind⟩ := splitLast?_eq_some.mp hclosing
  obtain ⟨-, -, hgap⟩ := splitLast?_eq_some.mp hlast
  have hfiller (t : Script.Tree) (ht : (!t.isFiller) = false) : isArgument t = false := by
    rw [isArgument, ht, Bool.false_and]
  intro t ht
  rcases List.mem_append.mp ht with ht | ht
  · exact hfiller t (hgap t ht)
  · rcases List.mem_cons.mp ht with rfl | ht
    · cases t with
      | node kind us => contradiction
      | leaf kind s => cases kind <;> first | rfl | contradiction
    · exact hfiller t (hbehind t ht)

/-- A list of trees that ends with a brace behind a member has a seat. -/
theorem exists_seat?_of_closed (members : List Script.Tree) {behind : List Script.Tree}
    {closing : Script.Tree} (hclosing : closing.isMark "\x7d" = true)
    (hbehind : ∀ t ∈ behind, (!t.isFiller) = false)
    (hmember : ∃ t ∈ members, (!t.isFiller) = true) :
    ∃ parted, seat? (members ++ closing :: behind) = some parted := by
  have hother : (!closing.isFiller) = true := by
    cases closing with
    | node kind us => contradiction
    | leaf kind s => cases kind <;> first | rfl | contradiction
  have hlast : splitLast? (!·.isFiller) (members ++ closing :: behind) =
      some (members, closing, behind) := splitLast?_eq_some.mpr ⟨rfl, hother, hbehind⟩
  cases hseat : splitLast? (!·.isFiller) members with
  | none =>
    obtain ⟨t, ht, hmember⟩ := hmember
    rw [splitLast?_eq_none.mp hseat t ht] at hmember
    contradiction
  | some parted =>
    obtain ⟨before, last, gap⟩ := parted
    exact ⟨_, seat?_eq_some.mpr ⟨members, closing, gap, behind, hlast, hclosing, hseat, rfl⟩⟩

/-- A gap in front of what closes a literal leaves it closed. -/
theorem exists_glue {closing : Script.Tree} (hclosing : closing.isMark "\x7d" = true)
    (gap behind : List Script.Tree) (s : List Char) :
    ∃ gap', glue s (gap ++ closing :: behind) = gap' ++ closing :: behind := by
  cases s with
  | nil => exact ⟨gap, rfl⟩
  | cons c s =>
    cases gap with
    | nil =>
      cases closing with
      | node kind us => contradiction
      | leaf kind text =>
        cases kind with
        | mark => exact ⟨[.leaf .trivia (c :: s)], rfl⟩
        | _ => contradiction
    | cons u gap =>
      by_cases hfiller : u.isFiller = true
      · cases u with
        | node kind us => contradiction
        | leaf kind text =>
          cases kind with
          | trivia => exact ⟨.leaf .trivia (c :: s ++ text) :: gap, rfl⟩
          | _ => contradiction
      · refine ⟨.leaf .trivia (c :: s) :: u :: gap, ?_⟩
        rw [List.cons_append, glue]
        · rfl
        · intro h
          contradiction
        · intro text ts heq
          obtain ⟨rfl, -⟩ := List.cons.inj heq
          exact hfiller rfl

/-- A literal with a slot more has a seat still. -/
theorem exists_seat?_addSlot (h : seat? ts = some (before, last, after)) (slot : Script.Tree) :
    ∃ parted, seat? (addSlot slot before last after).1 = some parted := by
  cases hlast : last.isLeaf .remark with
  | true =>
    cases last with
    | node kind us => contradiction
    | leaf kind s =>
      obtain rfl : kind = .remark := (of_decide_eq_true hlast).symm
      obtain rfl := eq_of_seat? h
      rw [addSlot_fst]
      generalize (layoutOf before (.leaf .remark s)).written slot = written
      -- The remark gets longer, and nothing else changes.
      have halike : SeatAlike (.leaf .remark s)
          (.leaf .remark (s ++ textOf written.1 ++ written.2)) := ⟨rfl, rfl, rfl⟩
      obtain ⟨_, _, _, hseat, -⟩ := exists_seat? halike h
      exact ⟨_, hseat⟩
  | false =>
    obtain ⟨members, closing, gap, behind, hclosing, hmark, hseat, rfl⟩ := seat?_eq_some.mp h
    obtain ⟨-, hmember, -⟩ := splitLast?_eq_some.mp hseat
    obtain ⟨-, -, hbehind⟩ := splitLast?_eq_some.mp hclosing
    rw [addSlot_fst, insertBehind_fst hlast]
    generalize (layoutOf before last).written slot = written
    obtain ⟨gap', hgap⟩ := exists_glue hmark gap behind written.2
    have hsplit : before ++ last :: (written.1 ++ glue written.2 (gap ++ closing :: behind)) =
        (before ++ last :: (written.1 ++ gap')) ++ closing :: behind := by
      rw [hgap]
      simp
    rw [hsplit]
    exact exists_seat?_of_closed _ hmark hbehind ⟨last, by simp, hmember⟩

/-- A slot that is written behind the last member is the last slot. -/
theorem plain_addSlot (h : seat? ts = some (before, last, after))
    (hlast : last.isLeaf .remark = false) (key : String) (value : Script.Tree) :
    plainSlots (liftSlots spot (addSlot (slotTree key value) before last after).1) denotes =
      plainSlots (liftSlots spot' ts) denotes ++
        [⟨some key, (liftValue .start value).plain denotes, false⟩] := by
  obtain rfl := eq_of_seat? h
  have hafter := isArgument_of_seat? h
  rw [addSlot_fst, insertBehind_fst hlast]
  -- What is in front of the slot stays, and there is nothing but blanks and signs behind it.
  have hnew (us vs : List Script.Tree) (hvs : ∀ t ∈ vs, isArgument t = false) :
      plainSlots (liftSlots spot (before ++ last :: (us ++ vs))) denotes =
        plainSlots (liftSlots spot' (before ++ [last])) denotes ++
          plainSlots (liftSlots (spot.after (textOf (before ++ [last]))) us) denotes := by
    rw [List.append_cons, ← List.append_assoc, liftSlots_append _ _ vs, liftSlots_eq_nil hvs,
      List.append_nil, liftSlots_append _ (before ++ [last]), plainSlots_append,
      plain_liftSlots spot spot' denotes denotes (before ++ [last])]
  have hold := hnew [] after hafter
  rw [List.nil_append, liftSlots, plainSlots, List.append_nil] at hold
  rw [hnew _ _ (forall_glue (fun _ => rfl) hafter _), plain_written, ← hold,
    plain_liftSlots spot spot' denotes denotes]

/-- A slot that is written behind a remark is no slot. -/
theorem plain_addSlot_remark {s : List Char} (h : seat? ts = some (before, .leaf .remark s, after))
    (slot : Script.Tree) :
    plainSlots (liftSlots spot (addSlot slot before (.leaf .remark s) after).1) denotes =
      plainSlots (liftSlots spot' ts) denotes := by
  obtain rfl := eq_of_seat? h
  rw [addSlot_fst]
  generalize (layoutOf before (.leaf .remark s)).written slot = written
  rw [insertBehind, liftSlots_append, liftSlots_append, plainSlots_append, plainSlots_append,
    plain_liftSlots spot spot' denotes denotes before]
  congr 1
  rw [liftSlots_cons, liftSlots_cons _ (.leaf .remark s), plainSlots_append, plainSlots_append]
  congr 1
  exact plain_liftSlots _ _ denotes denotes after

end Literal

/-! ## A record at the end of a path -/

/-- What `ensure` adds where the first key is missing. -/
theorem ensure_of_lookup {path : List String} {leaf key : String} {rest : List String}
    (hpath : path ++ [leaf] = key :: rest) {slots : Slots Anchor} (h : lookup key slots = none)
    (text : String) : ensure path leaf text slots = (.inserted, slots ++ missing path leaf text) := by
  cases path with
  | nil =>
    obtain ⟨rfl, rfl⟩ := List.cons.inj hpath
    rw [ensure, hasKey, h]
    rfl
  | cons key' path =>
    obtain ⟨rfl, rfl⟩ := List.cons.inj hpath
    rw [ensure, h]
    dsimp only
    rw [ensure_nil]
    rfl

/-- A literal with one slot as an options tree. -/
theorem plain_literalTree (key : String) (value : Script.Tree) :
    (liftValue spot (literalTree [slotTree key value])).plain denotes =
      .object none [⟨some key, (liftValue .start value).plain denotes, false⟩] := by
  have hopen : ∀ t ∈ [mark "\x7b", blank], isArgument t = false := by
    simp [isArgument, mark, blank, isFiller, isLeaf]
  have hclose : ∀ t ∈ [blank, mark "\x7d"], isArgument t = false := by
    simp [isArgument, mark, blank, isFiller, isLeaf]
  have hparts : literalTree [slotTree key value] = .node .object ([mark "\x7b", blank] ++
      ([slotTree key value] ++ [blank, mark "\x7d"])) := rfl
  obtain ⟨⟨before, last, after⟩, hseat⟩ : ∃ parted, seat? ([mark "\x7b", blank] ++
      ([slotTree key value] ++ [blank, mark "\x7d"])) = some parted :=
    exists_seat?_of_closed [mark "\x7b", blank, slotTree key value, blank] rfl (by simp)
      ⟨mark "\x7b", by simp, rfl⟩
  rw [hparts, liftValue_object hseat, Value.plain]
  rw [liftSlots_append, liftSlots_append, liftSlots_eq_nil hopen, liftSlots_eq_nil hclose,
    List.nil_append, List.append_nil, plain_slotTree]

/-- The slots that stand for a missing path are those of what is written for it. -/
theorem plain_missing (r : Script.Tree) {path : List String} {leaf key : String}
    {rest : List String} (hpath : path ++ [leaf] = key :: rest) (text : String) :
    plainSlots (missing path leaf text : Slots Anchor) (denoted r) =
      [⟨some key, (liftValue .start (nested rest r)).plain (denoted r), false⟩] := by
  induction path generalizing key rest with
  | nil =>
    obtain ⟨rfl, rfl⟩ := List.cons.inj hpath
    simp only [missing, plainSlots, Value.plain, nested]
    rw [plain_liftValue .start .start _ .other]
    rfl
  | cons key' path ih =>
    obtain ⟨rfl, rfl⟩ := List.cons.inj hpath
    obtain ⟨next, rest, hnext⟩ : ∃ next rest, path ++ [leaf] = next :: rest := by
      cases path with
      | nil => exact ⟨_, _, rfl⟩
      | cons next path => exact ⟨_, _, rfl⟩
    show plainSlots (missing (key' :: path) leaf text : Slots Anchor) (denoted r) =
      [⟨some key', (liftValue .start (nested (path ++ [leaf]) r)).plain (denoted r), false⟩]
    rw [hnext, nested, plain_literalTree, missing, plainSlots, Value.plain, ih hnext]
    rfl

/-- Whether one options tree is another one with a record put in at the end of a path. A record that
is lost is not put in. -/
def TakesIn (path : List String) (leaf text : String) (record : Value Unit) (lost : Bool)
    (value value' : Value Anchor) : Prop :=
  ∃ place slots place' slots', value = .object (some place) slots ∧
    value' = .object (some place') slots' ∧ (ensure path leaf text slots).1 = .inserted ∧
    plainSlots slots' record =
      plainSlots (if lost then slots else (ensure path leaf text slots).2) record

/-- A literal without the first key of a path gains the slot that is written, and its options tree
the one that `ensure` adds. -/
theorem takesIn_slot (r : Script.Tree) {ts before after : List Script.Tree} {last : Script.Tree}
    {path : List String} {leaf key : String} {rest : List String}
    (hseat : seat? ts = some (before, last, after)) (hkey : splitLast? (isAt key) ts = none)
    (hpath : path ++ [leaf] = key :: rest) (spot spot' : Spot) (text : String) :
    TakesIn path leaf text (denoted r) (last.isLeaf .remark) (liftValue spot (.node .object ts))
      (liftValue spot'
        (.node .object (addSlot (slotTree key (nested rest r)) before last after).1)) := by
  have hlookup : lookup key (liftSlots spot ts) = none := by rw [lookup_liftSlots, hkey]; rfl
  have hensure := ensure_of_lookup hpath hlookup text
  obtain ⟨⟨before', last', after'⟩, hseat'⟩ := exists_seat?_addSlot hseat
    (slotTree key (nested rest r))
  refine ⟨_, _, _, _, liftValue_object hseat spot, liftValue_object hseat' spot', by rw [hensure], ?_⟩
  cases hlast : last.isLeaf .remark with
  | true =>
    cases last with
    | node kind us => contradiction
    | leaf kind s =>
      obtain rfl : kind = .remark := (of_decide_eq_true hlast).symm
      exact plain_addSlot_remark hseat _
  | false =>
    rw [hensure, plain_addSlot hseat hlast, if_neg Bool.false_ne_true, plainSlots_append,
      plain_missing r hpath]

/-- The slots of a literal with a pair of a key. -/
theorem liftSlots_member {key : String} {front : List Script.Tree} {value : Script.Tree}
    (hat : isAt key (.node .pair (front ++ [value])) = true) (spot : Spot)
    (before after : List Script.Tree) :
    liftSlots spot (before ++ .node .pair (front ++ [value]) :: after) =
      liftSlots spot before ++
        ⟨some key, liftValue ((spot.after (textOf before)).after (textOf front)) value, false⟩ ::
          liftSlots ((spot.after (textOf before)).after
            (Script.Tree.node .pair (front ++ [value])).text) after := by
  have hkey : (liftPair (spot.after (textOf before)) none (front ++ [value])).key = some key := by
    rw [key_liftPair]
    exact of_decide_eq_true hat
  have hvalue := value_liftPair (spot.after (textOf before)) none front value
  have hmarked := (original_liftPair (spot.after (textOf before)) none (front ++ [value])).1
  rw [liftSlots_append, liftSlots_cons, liftSlots, liftSlots, List.append_nil]
  congr 1
  rw [← hkey, ← hvalue, ← hmarked]
  rfl

/-- What is put into the value of the last pair of a key is put into the literal. -/
theorem takesIn_member {key : String} {path : List String} {leaf text : String}
    {record : Value Unit} {lost : Bool} {us front behind before after : List Script.Tree}
    {value value' last : Script.Tree}
    (hseat : seat? (us ++ .node .pair (front ++ [value]) :: behind) = some (before, last, after))
    (hkey : splitLast? (isAt key) (us ++ .node .pair (front ++ [value]) :: behind) =
      some (us, .node .pair (front ++ [value]), behind)) (spot spot' : Spot)
    (h : TakesIn path leaf text record lost
      (liftValue ((spot.after (textOf us)).after (textOf front)) value)
      (liftValue ((spot'.after (textOf us)).after (textOf front)) value')) :
    TakesIn (key :: path) leaf text record lost
      (liftValue spot (.node .object (us ++ .node .pair (front ++ [value]) :: behind)))
      (liftValue spot' (.node .object (us ++ .node .pair (front ++ [value']) :: behind))) := by
  obtain ⟨place, slots, place', slots', hlift, hlift', hinserted, hplain⟩ := h
  obtain ⟨-, hat, hbehind⟩ := splitLast?_eq_some.mp hkey
  have hat' : isAt key (.node .pair (front ++ [value'])) = true := by
    rw [isAt] at hat ⊢
    rwa [pairKey?_concat front value' value]
  have halike : SeatAlike (.node .pair (front ++ [value])) (.node .pair (front ++ [value'])) :=
    ⟨rfl, rfl, rfl⟩
  obtain ⟨before', last', after', hseat', -⟩ := exists_seat? halike hseat
  have hold := liftSlots_member hat spot us behind
  have hnew := liftSlots_member hat' spot' us behind
  rw [hlift] at hold
  rw [hlift'] at hnew
  have hlookup : lookup key (liftSlots spot (us ++ .node .pair (front ++ [value]) :: behind)) =
      some (.object (some place) slots) := by
    rw [lookup_liftSlots, hkey, Option.map_some]
    dsimp only
    rw [memberValue, pairParts?_eq_some.mpr rfl]
    exact congrArg some hlift
  have hnone (spot : Spot) : hasKey key (liftSlots spot behind) = false := by
    rw [hasKey, lookup_liftSlots, splitLast?_eq_none.mpr hbehind]
    rfl
  refine ⟨_, _, _, _, liftValue_object hseat spot, liftValue_object hseat' spot', ?_, ?_⟩
  · rw [ensure, hlookup]
    exact hinserted
  · -- Around the value nothing changes, and in it what was to be shown is known.
    have haround (slots : Slots Anchor) :
        plainSlots (liftSlots spot us ++ ⟨some key, .object (some place) slots, false⟩ ::
          liftSlots ((spot.after (textOf us)).after
            (Script.Tree.node .pair (front ++ [value])).text) behind) record =
        plainSlots (liftSlots spot' us) record ++
          ⟨some key, .object none (plainSlots slots record), false⟩ ::
            plainSlots (liftSlots ((spot'.after (textOf us)).after
              (Script.Tree.node .pair (front ++ [value'])).text) behind) record := by
      rw [plainSlots_append, plainSlots, Value.plain, plain_liftSlots spot spot' _ record,
        plain_liftSlots _ _ _ record behind]
    rw [hnew, ensure, hlookup]
    dsimp only
    rw [hold, replace_append (hnone _), plainSlots_append, plainSlots, Value.plain, hplain]
    cases lost with
    | true => exact (haround slots).symm
    | false => exact (haround (ensure path leaf text slots).2).symm

/-- The options tree of a literal that is extended is the one that the record is put into; if the
record is lost, the options tree stays. -/
theorem lift_extendTree? (r : Script.Tree) {path : List String} {leaf : String} {t t' : Script.Tree}
    {lost : Bool} (h : extendTree? r (path ++ [leaf]) t = some (t', lost)) (spot spot' : Spot)
    (text : String) :
    TakesIn path leaf text (denoted r) lost (liftValue spot t) (liftValue spot' t') := by
  induction path generalizing spot spot' t t' with
  | nil =>
    obtain ⟨key, rest, ts, before, last, after, hpath, rfl, hseat, ⟨hkey, rfl, rfl⟩ |
      ⟨us, front, value, value', behind, hkey, hvalue, rfl⟩⟩ := exists_of_extendTree? h
    · exact takesIn_slot r hseat hkey hpath spot spot' text
    · -- The path ends with the key, so nothing is put into its value.
      obtain ⟨rfl, rfl⟩ := List.cons.inj hpath
      contradiction
  | cons key' path ih =>
    obtain ⟨key, rest, ts, before, last, after, hpath, rfl, hseat, ⟨hkey, rfl, rfl⟩ |
      ⟨us, front, value, value', behind, hkey, hvalue, rfl⟩⟩ := exists_of_extendTree? h
    · exact takesIn_slot r hseat hkey hpath spot spot' text
    · obtain ⟨rfl, rfl⟩ := List.cons.inj hpath
      obtain ⟨rfl, -, -⟩ := splitLast?_eq_some.mp hkey
      exact takesIn_member hseat hkey spot spot' (ih hvalue _ _)

end Crossing.Stamp
