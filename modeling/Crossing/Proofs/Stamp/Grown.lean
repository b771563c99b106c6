import Crossing.Proofs.Stamp.Reread
import Mathlib.Logic.Relation

/-!
# How scripts grow

Stamping changes a script only in ways that the grammar of scripts allows: a list of arguments, or a
literal that is an argument, gains an item with its comma, the name `undefined` gives way to another
value, and a remark gets longer within its line. `Grows` is one such change, with its commas and
blanks, and `Grown` any number of them. A stamped script has grown out of the script
(`grown_stamped`), and so has a script in which one call takes a record (`grown_exchange`).

Whoever reads scripts by their grammar reads what has grown out of a script as it is (`Rereads`). So
a stamped script is read back (`readsBack_of_rereads`), and so is one with a record in one of its
calls (`readsExtended_of_rereads`), unless the name of the file ends the remark that a record is lost
in. This is a property of the whole grammar, and it is asked of a reader, not proved of one.
-/

namespace Crossing

open Text

/-! ## Texts within a line -/

namespace Script

/-- Whether a text may stand in a remark without ending it. -/
def WithinRemark (s : List Char) : Prop :=
  ∀ c ∈ s, endsRemark c = false

instance (s : List Char) : Decidable (WithinRemark s) :=
  decidable_of_iff (s.all (!endsRemark ·) = true) (by simp [WithinRemark])

namespace WithinRemark

variable {s t : List Char}

/-- Texts stand in a remark one after the other. -/
theorem append (hs : WithinRemark s) (ht : WithinRemark t) : WithinRemark (s ++ t) := fun c hc =>
  (List.mem_append.mp hc).elim (hs c) (ht c)

/-- A digit ends no remark. -/
theorem ofNat (n : Nat) : WithinRemark (Decimal.ofNat n) := by
  have hdigit : ∀ c : Char, '0' ≤ c ∧ c ≤ '9' → endsRemark c = false := by
    intro c hc
    by_contra hends
    simp only [endsRemark, Bool.not_eq_false, Bool.or_eq_true, beq_iff_eq] at hends
    obtain ((rfl | rfl) | rfl) | rfl := hends <;> revert hc <;> decide
  exact fun c hc => hdigit c ((Decimal.ofNat_spec n).2 c hc)

end WithinRemark

/-- Whether a text has no character that separates lines or paragraphs. -/
def Unseparated (text : String) : Prop :=
  ∀ c ∈ text.toList, c ≠ '\u2028' ∧ c ≠ '\u2029'

/-- A digit of an escape ends no remark. -/
theorem endsRemark_hexDigit {n : Nat} (h : n < 16) : endsRemark (Json.hexDigit n) = false := by
  revert n
  decide

/-- A character of a string literal ends no remark unless it is a separator. -/
theorem withinRemark_escape {c : Char} (h : c ≠ '\u2028' ∧ c ≠ '\u2029') :
    WithinRemark (Json.escape c) := by
  unfold Json.escape
  split
  -- Escapes are made of other characters, so a separator is only there if it is written as it is.
  case h_8 hnewline _ _ =>
    split
    · next hcontrol =>
      have hhigh := endsRemark_hexDigit (show c.toNat / 16 < 16 by omega)
      have hlow := endsRemark_hexDigit (Nat.mod_lt c.toNat (by decide : 16 > 0))
      have hletters : WithinRemark ['\\', 'u', '0', '0'] := by decide
      exact hletters.append (t := [_, _]) (by simp [WithinRemark, hhigh, hlow])
    · next hvisible =>
      have hnull : c ≠ '\x00' := by
        rintro rfl
        exact hvisible (by decide)
      have hfeed : c ≠ '\n' := hnewline
      simp [WithinRemark, endsRemark, h, hnull, hfeed]
  all_goals decide

/-- The literal of a text without separators ends no remark. -/
theorem withinRemark_quote {text : String} (h : Unseparated text) :
    WithinRemark (Json.quote text).toList := by
  have hquote : WithinRemark ['"'] := by decide
  have hescaped : WithinRemark (text.toList.flatMap Json.escape) := fun d hd => by
    obtain ⟨c, hc, hd⟩ := List.mem_flatMap.mp hd
    exact withinRemark_escape (h c hc) d hd
  rw [Json.quote, String.toList_ofList]
  exact (hquote.append hescaped).append hquote

end Script

namespace Stamp

open Script Script.Tree Relation

/-! ## What is written -/

/-- The values that may be written into a script. -/
inductive Written : Script.Tree → Prop
  | undefined : Written (.leaf .undefined "undefined".toList)
  | string (s : String) : Written (.leaf .string (Json.quote s).toList)
  | number (n : Nat) : Written (.leaf .number (Decimal.ofNat n))
  /-- A literal with at least one slot, of which no key needs quotes. -/
  | literal (slots : List (String × Script.Tree)) (hsome : slots ≠ [])
    (hkeys : ∀ slot ∈ slots, Quoted.key slot.1 = slot.1)
    (hvalues : ∀ slot ∈ slots, Written slot.2) :
    Written (literalTree (slots.map fun slot => slotTree slot.1 slot.2))

/-- A record may be written. -/
theorem written_recordTree (file : String) (side : Side) (line : UInt32) :
    Written (recordTree file side line) := by
  have hside : ("\"" ++ side.name ++ "\"").toList = (Json.quote side.name).toList := by
    cases side <;> decide
  rw [recordTree, hside]
  refine .literal [("file", _), ("line", _), ("side", _)] (by simp) ?_ ?_
  · simp only [List.forall_mem_cons]
    decide
  · simp only [List.forall_mem_cons]
    exact ⟨.string file, .number line.toNat, .string side.name, by simp⟩

/-- A value may be written below levels of keys that need no quotes. -/
theorem written_nested {path : List String} (hpath : ∀ key ∈ path, Quoted.key key = key)
    {value : Script.Tree} (hvalue : Written value) : Written (nested path value) := by
  induction path with
  | nil => exact hvalue
  | cons key path ih =>
    obtain ⟨hkey, hrest⟩ := List.forall_mem_cons.mp hpath
    have hnested := ih hrest
    exact .literal [(key, nested path value)] (by simp) (by simpa using hkey)
      (by simpa using hnested)

/-- The options of a call with a record may be written. -/
theorem written_options {r : Script.Tree} (hr : Written r) : Written (nested recordPath r) :=
  written_nested key_recordPath hr

/-! ## How a list gains an item -/

/-- How the children of a list in brackets gain an item. -/
inductive Gains (item : Script.Tree) : (old new : List Script.Tree) → Prop
  /-- It is the only one, right in front of the bracket that closes the list. -/
  | only {front : List Script.Tree} (closing : Script.Tree)
    (hfront : ∀ t ∈ front, isArgument t = false) :
    Gains item (front ++ [closing]) (front ++ [item, closing])
  /-- It is the only one, with blanks between the brackets and it. -/
  | spaced {front after : List Script.Tree} {opening : Script.Tree}
    (hfront : ∀ t ∈ front, t.isFiller = true) (hopening : opening.isFiller = false)
    (hremark : opening.isLeaf .remark = false) (hafter : ∀ t ∈ after, isArgument t = false) :
    Gains item (front ++ opening :: after) (front ++ opening :: blank :: item :: glue [' '] after)
  /-- It stands between the brackets, behind the last one and a comma. -/
  | behind {front after : List Script.Tree} {last : Script.Tree}
    (hopened : ∃ t ∈ front, t.isFiller = false) (hclosed : ∃ t ∈ after, t.isFiller = false)
    (hfiller : last.isFiller = false) (hcomma : last.isMark "," = false)
    (hremark : last.isLeaf .remark = false) (hafter : ∀ t ∈ after, isArgument t = false) :
    Gains item (front ++ last :: after) (front ++ last :: mark "," :: blank :: item :: after)
  /-- It stands behind the comma at the end of the list, and another comma behind it. -/
  | trailing {front after : List Script.Tree} {comma : Script.Tree}
    (hcomma : comma.isMark "," = true) (hafter : ∀ t ∈ after, isArgument t = false) :
    Gains item (front ++ comma :: after) (front ++ comma :: blank :: item :: mark "," :: after)
  /-- A remark takes it up. -/
  | lost {front after : List Script.Tree} {s text : List Char} (htext : WithinRemark text) :
    Gains item (front ++ .leaf .remark s :: after) (front ++ .leaf .remark (s ++ text) :: after)

/-- How a literal that is an argument gains a slot, by itself or in the value of a slot. -/
inductive Extends : (old new : Script.Tree) → Prop
  | slot {key : String} {value : Script.Tree} {ts us : List Script.Tree}
    (hkey : Quoted.key key = key) (hvalue : Written value) (h : Gains (slotTree key value) ts us) :
    Extends (.node .object ts) (.node .object us)
  | member {before after front : List Script.Tree} {value value' : Script.Tree}
    (h : Extends value value') :
    Extends (.node .object (before ++ .node .pair (front ++ [value]) :: after))
      (.node .object (before ++ .node .pair (front ++ [value']) :: after))

/-- How a script grows by one thing. -/
inductive Grows : (old new : Script.Tree) → Prop
  /-- Arguments gain a value. -/
  | argument {value : Script.Tree} {ts us : List Script.Tree} (hvalue : Written value)
    (h : Gains value ts us) : Grows (.node .arguments ts) (.node .arguments us)
  /-- An argument that is `undefined` gives way to another value. -/
  | instead {front after : List Script.Tree} {name : List Char} {value : Script.Tree}
    (hvalue : Written value) : Grows (.node .arguments (front ++ .leaf .undefined name :: after))
      (.node .arguments (front ++ value :: after))
  /-- An argument that is a literal gains a slot. -/
  | literal {front after : List Script.Tree} {object object' : Script.Tree}
    (h : Extends object object') : Grows (.node .arguments (front ++ object :: after))
      (.node .arguments (front ++ object' :: after))
  /-- A part of the script grows. -/
  | inside {kind : Kind} {front after : List Script.Tree} {t t' : Script.Tree} (h : Grows t t') :
    Grows (.node kind (front ++ t :: after)) (.node kind (front ++ t' :: after))

/-- Whether a script has grown out of another one. -/
def Grown : (old new : Script.Tree) → Prop :=
  ReflTransGen Grows

/-- A script grows as a part of it does. -/
theorem Grown.inside (kind : Kind) (front after : List Script.Tree) {t t' : Script.Tree}
    (h : Grown t t') :
    Grown (.node kind (front ++ t :: after)) (.node kind (front ++ t' :: after)) :=
  ReflTransGen.lift (fun t => Script.Tree.node kind (front ++ t :: after))
    (fun _ _ => Grows.inside) _ _ h

/-- A node grows as its children do. -/
theorem Grown.node (kind : Kind) {ts us : List Script.Tree} (h : List.Forall₂ Grown ts us) :
    Grown (.node kind ts) (.node kind us) := by
  -- The children that have grown already stand in front of the others.
  suffices ∀ front, Grown (.node kind (front ++ ts)) (.node kind (front ++ us)) from this []
  induction h with
  | nil => exact fun front => .refl
  | @cons t u ts us htu _ ih =>
    intro front
    have hrest := ih (front ++ [u])
    rw [List.append_assoc, List.append_assoc] at hrest
    exact (Grown.inside kind front ts htu).trans hrest

/-! ## Records and remarks -/

/-- A slot ends no remark if its key and its value do not. -/
theorem withinRemark_slotTree {key : String} (hkey : WithinRemark key.toList) {value : Script.Tree}
    (hvalue : WithinRemark value.text) : WithinRemark (slotTree key value).text := by
  have hcolon : WithinRemark ": ".toList := by decide
  have htext : (slotTree key value).text = key.toList ++ (": ".toList ++ value.text) := by
    simp [slotTree, Script.Tree.text, textOf, mark, blank]
  rw [htext]
  exact hkey.append (hcolon.append hvalue)

/-- A value ends no remark below levels of keys. -/
theorem withinRemark_nested {path : List String} (hpath : ∀ key ∈ path, WithinRemark key.toList)
    {value : Script.Tree} (hvalue : WithinRemark value.text) :
    WithinRemark (nested path value).text := by
  induction path with
  | nil => exact hvalue
  | cons key path ih =>
    obtain ⟨hkey, hrest⟩ := List.forall_mem_cons.mp hpath
    have hopening : WithinRemark "\x7b ".toList := by decide
    have hclosing : WithinRemark " \x7d".toList := by decide
    rw [nested, text_literalTree]
    exact (hopening.append (withinRemark_slotTree hkey (ih hrest))).append hclosing

/-- The options of a call end no remark if the record does not. -/
theorem withinRemark_options {r : Script.Tree} (hr : WithinRemark r.text) :
    WithinRemark (nested recordPath r).text :=
  withinRemark_nested (by decide) hr

/-- The record of a call in a file whose name has no separators ends no remark. -/
theorem withinRemark_recordTree {file : String} (hfile : Unseparated file) (side : Side)
    (line : UInt32) : WithinRemark (recordTree file side line).text := by
  have hopening : WithinRemark "\x7b file: ".toList := by decide
  have hline : WithinRemark ", line: ".toList := by decide
  have hside : WithinRemark (", side: \"" ++ side.name ++ "\" \x7d").toList := by
    cases side <;> decide
  have htext : (recordTree file side line).text = "\x7b file: ".toList ++ (Json.quote file).toList ++
      ", line: ".toList ++ Decimal.ofNat line.toNat ++
        (", side: \"" ++ side.name ++ "\" \x7d").toList := by
    rw [text_recordTree, recordLiteral]
    simp
  rw [htext]
  exact (((hopening.append (withinRemark_quote hfile)).append hline).append (.ofNat _)).append hside

/-- What is written for a slot ends no remark if the slot does not. -/
theorem withinRemark_written {slot : Script.Tree} (h : WithinRemark slot.text) (layout : Layout) :
    WithinRemark (textOf (layout.written slot).1 ++ (layout.written slot).2) := by
  have hblank : WithinRemark [' '] := by decide
  have hcomma : WithinRemark [','] := by decide
  cases layout with
  | empty =>
    have htext : textOf [blank, slot] ++ [' '] = [' '] ++ slot.text ++ [' '] := by
      simp [textOf, Script.Tree.text, blank]
    exact htext ▸ (hblank.append h).append hblank
  | trailingComma =>
    have htext : textOf [blank, slot, mark ","] ++ [] = [' '] ++ slot.text ++ [','] := by
      simp [textOf, Script.Tree.text, blank, mark]
    exact htext ▸ (hblank.append h).append hcomma
  | afterLast =>
    have htext : textOf [mark ",", blank, slot] ++ [] = [','] ++ [' '] ++ slot.text := by
      simp [textOf, Script.Tree.text, blank, mark]
    exact htext ▸ (hcomma.append hblank).append h

/-! ## How stamping makes a script grow -/

variable {r : Script.Tree} {lost : Bool}

/-- A tree that is a remark. -/
theorem exists_of_isLeaf {t : Script.Tree} {kind : Leaf} (h : t.isLeaf kind = true) :
    ∃ s, t = .leaf kind s := by
  cases t with
  | node kind ts => contradiction
  | leaf kind' s => exact ⟨s, by rw [(of_decide_eq_true h : kind = kind')]⟩

/-- A literal gains a slot at its seat. -/
theorem gains_addSlot {ts before after : List Script.Tree} {last : Script.Tree}
    (hseat : seat? ts = some (before, last, after)) (slot : Script.Tree)
    (hlost : last.isLeaf .remark = true → WithinRemark slot.text) :
    Gains slot ts (addSlot slot before last after).1 := by
  have hafter := isArgument_of_seat? hseat
  obtain ⟨members, closing, gap, behind, hclosing, -, hlast, rfl⟩ := seat?_eq_some.mp hseat
  obtain ⟨-, hother, -⟩ := splitLast?_eq_some.mp hlast
  obtain ⟨-, hbrace, -⟩ := splitLast?_eq_some.mp hclosing
  have hfiller : last.isFiller = false := by simpa using hother
  rw [eq_of_seat? hseat, addSlot_fst]
  -- The layout by which the slot is written says how the literal gains it.
  cases hremark : last.isLeaf .remark with
  | true =>
    obtain ⟨s, rfl⟩ := exists_of_isLeaf hremark
    rw [insertBehind, List.append_assoc]
    exact .lost (withinRemark_written (hlost hremark) _)
  | false =>
    rw [insertBehind_fst hremark, layoutOf]
    split
    · next hfront => exact .spaced (List.all_eq_true.mp hfront) hfiller hremark hafter
    · next hfront =>
      split
      · next hcomma => exact .trailing hcomma hafter
      · next hcomma =>
        have hopened : ∃ t ∈ before, t.isFiller = false := by simpa using hfront
        have hclosed : ∃ t ∈ gap ++ closing :: behind, t.isFiller = false :=
          ⟨closing, by simp, by simpa using hbrace⟩
        exact .behind hopened hclosed hfiller (by simpa using hcomma) hremark hafter

/-- A literal that takes a record gains a slot. -/
theorem extends_of_extendTree? (hr : Written r) (hlost : lost = true → WithinRemark r.text)
    {path : List String} (hpath : ∀ key ∈ path, Quoted.key key = key ∧ WithinRemark key.toList)
    {t t' : Script.Tree} (h : extendTree? r path t = some (t', lost)) : Extends t t' := by
  induction path generalizing t t' with
  | nil => contradiction
  | cons key path ih =>
    obtain ⟨⟨hkey, hwithin⟩, hrest⟩ := List.forall_mem_cons.mp hpath
    -- Either this literal has no slot of the key and gains one, or the value of its slot is extended.
    obtain ⟨_, _, ts, before, last, after, heq, rfl, hseat, ⟨-, rfl, rfl⟩ |
      ⟨us, front, value, value', behind, hsplit, hvalue, rfl⟩⟩ := exists_of_extendTree? h
    · obtain ⟨rfl, rfl⟩ := List.cons.inj heq
      have hwritten : Written (nested path r) := written_nested (fun k hk => (hrest k hk).1) hr
      refine .slot hkey hwritten (gains_addSlot hseat _ fun hremark => ?_)
      exact withinRemark_slotTree hwithin
        (withinRemark_nested (fun k hk => (hrest k hk).2) (hlost hremark))
    · obtain ⟨rfl, rfl⟩ := List.cons.inj heq
      obtain ⟨rfl, -, -⟩ := splitLast?_eq_some.mp hsplit
      exact .member (ih hrest hvalue)

/-- The keys that lead to the record need no quotes and end no remark. -/
theorem plain_recordPath : ∀ key ∈ recordPath, Quoted.key key = key ∧ WithinRemark key.toList := by
  decide

/-- An argument is something, and it is no comma. -/
theorem other_of_isArgument {t : Script.Tree} (h : isArgument t = true) :
    t.isFiller = false ∧ t.isMark "," = false := by
  cases t with
  | node kind us => exact ⟨rfl, rfl⟩
  | leaf kind s => cases kind <;> first | contradiction | exact ⟨rfl, rfl⟩

/-- Arguments in brackets that take a record grow. -/
theorem grown_addArgument? (hr : Written r) (hlost : lost = true → WithinRemark r.text)
    {ts ts' : List Script.Tree} (hbrackets : layout .arguments ts)
    (h : addArgument? r ts = some (ts', lost)) :
    Grown (.node .arguments ts) (.node .arguments ts') := by
  have hoptions := written_options hr
  cases argued_of_addArgument? h with
  | none hfirst =>
    -- First `undefined` becomes the only argument, and then the options follow it.
    have hnone := splitFirst?_eq_none.mp hfirst
    obtain ⟨inner, rfl⟩ := hbrackets
    rw [← List.cons_append] at hnone ⊢
    rw [List.dropLast_concat, List.getLast?_concat, Option.toList_some]
    have honly : Grows (.node .arguments (mark "(" :: inner ++ [mark ")"])) (.node .arguments
        (mark "(" :: inner ++ [.leaf .undefined "undefined".toList, mark ")"])) :=
      .argument .undefined (.only _ fun t ht => hnone t (List.mem_append_left _ ht))
    have hbehind : Grows (.node .arguments
        (mark "(" :: inner ++ [.leaf .undefined "undefined".toList, mark ")"])) _ :=
      .argument hoptions (.behind ⟨mark "(", by simp, rfl⟩ ⟨mark ")", by simp, rfl⟩ rfl rfl rfl
        fun t ht => hnone t (List.mem_append_right _ ht))
    exact .tail (.single honly) hbehind
  | @single before after first hfirst hsecond =>
    obtain ⟨-, hargument, -⟩ := splitFirst?_eq_some.mp hfirst
    have hafter := splitFirst?_eq_none.mp hsecond
    have hcomma : WithinRemark ", ".toList := by decide
    cases hremark : first.isLeaf .remark with
    | true =>
      obtain ⟨s, rfl⟩ := exists_of_isLeaf hremark
      rw [insertBehind, List.append_assoc]
      have htext : textOf [mark ",", blank, nested recordPath r] ++ [] =
          ", ".toList ++ (nested recordPath r).text := by
        simp [textOf, Script.Tree.text, blank, mark]
      rw [htext]
      exact .single (.argument hoptions
        (.lost (hcomma.append (withinRemark_options (hlost hremark)))))
    | false =>
      obtain ⟨hfiller, hnocomma⟩ := other_of_isArgument hargument
      obtain ⟨⟨front, rfl⟩, behind, rfl⟩ := brackets_around hbrackets hargument
      rw [insertBehind_fst hremark]
      exact .single (.argument hoptions (.behind ⟨mark "(", by simp, rfl⟩ ⟨mark ")", by simp, rfl⟩
        hfiller hnocomma hremark hafter))
  | @undefined before between behind first second hfirst hsecond hleaf =>
    obtain ⟨name, rfl⟩ := exists_of_isLeaf hleaf
    have hgrown : Grown _ _ :=
      .single (@Grows.instead (before ++ first :: between) behind name _ hoptions)
    simpa using hgrown
  | @literal before between behind first second second' _ hfirst hsecond hextend =>
    have hextends := extends_of_extendTree? hr hlost plain_recordPath hextend
    have hgrown : Grown _ _ :=
      .single (@Grows.literal (before ++ first :: between) behind _ _ hextends)
    simpa using hgrown

/-- A call that takes a record grows, if its arguments have their brackets. -/
theorem grown_addRecord? (hr : Written r) (hlost : lost = true → WithinRemark r.text)
    {ts : List Script.Tree} {call : Script.Tree}
    (hbrackets : ∀ args, .node .arguments args ∈ ts → layout .arguments args)
    (h : addRecord? r (.node .call ts) = some (call, lost)) : Grown (.node .call ts) call := by
  obtain ⟨_, before, args, args', after, heq, hlast, hargs, rfl⟩ := exists_of_addRecord? h
  cases heq
  obtain ⟨rfl, -, -⟩ := splitLast?_eq_some.mp hlast
  exact .inside .call before after (grown_addArgument? hr hlost (hbrackets args (by simp)) hargs)

/-- Arguments have their brackets. -/
theorem brackets_of_everyOf {ts args : List Script.Tree} (h : EveryOf layout ts)
    (hmem : .node .arguments args ∈ ts) : layout .arguments args := by
  obtain ⟨front, behind, rfl⟩ := List.append_of_mem hmem
  exact (everyOf_append.mp h).2.1.1

/-- Arguments keep their brackets when they are stamped. -/
theorem brackets_stampedAll {record : UInt32 → Script.Tree} {spot : Spot}
    {ts args : List Script.Tree} (h : EveryOf layout ts)
    (hmem : .node .arguments args ∈ stampedAll record spot ts) : layout .arguments args := by
  obtain ⟨t, ht, spot', heq⟩ := exists_of_mem_stampedAll hmem
  have hkind := @hasKind_stamped record spot' .arguments t
  rw [← heq] at hkind
  cases t with
  | leaf kind s => contradiction
  | node kind us =>
    obtain rfl : kind = .arguments := (of_decide_eq_true hkind.symm).symm
    obtain ⟨inner, rfl⟩ := brackets_of_everyOf h ht
    rw [stamped_node (by decide), stampedAll, stamped_leaf, stampedAll_append] at heq
    exact ⟨_, (Script.Tree.node.inj heq).2⟩

/-- A call of a remote procedure that takes a record when it is stamped loses it if the call loses
it. -/
theorem losesRecord_of_addRecord? (record : UInt32 → Script.Tree) (spot : Spot)
    {ts : List Script.Tree} {call : Script.Tree} (hremote : isRemoteCall (.node .call ts) = true)
    (h : addRecord? r (.node .call (stampedAll record spot ts)) = some (call, true)) :
    LosesRecord (.node .call ts) := by
  cases agree_call record r spot ts with
  | stays hedits htree hstamped =>
    rw [hstamped] at h
    contradiction
  | changes e a b lost hedits htree hstamped hinserts hmakes =>
    rw [hstamped] at h
    cases h
    exact ⟨hremote, r, a, htree⟩

variable {record : UInt32 → Script.Tree}

mutual

/-- A stamped tree has grown out of the tree, if no record ends the remark that it is lost in. -/
theorem grown_stamped (hrecord : ∀ line, Written (record line)) {spot : Spot} {t : Script.Tree}
    (ht : t.Every layout) (hlost : ∀ p ∈ callsAt spot t, LosesRecord p.2 →
      WithinRemark (record p.1.lineNumber).text) : Grown t (stamped record spot t) := by
  cases t with
  | leaf kind s =>
    rw [stamped_leaf]
    exact .refl
  | node kind ts =>
    rw [callsAt] at hlost
    -- The children grow first, and then a call takes its record.
    have hchildren : Grown (.node kind ts) (.node kind (stampedAll record spot ts)) :=
      .node kind (grown_stampedAll hrecord ht.2 fun p hp => hlost p (List.mem_append_right _ hp))
    by_cases hkind : kind = .call
    · subst hkind
      rw [stamped]
      split
      · next hremote =>
        cases hadded : addRecord? (record spot.lineNumber)
            (.node .call (stampedAll record spot ts)) with
        | none => exact hchildren
        | some added =>
          obtain ⟨call, lost⟩ := added
          refine hchildren.trans (grown_addRecord? (hrecord _) ?_
            (fun _ => brackets_stampedAll ht.2) hadded)
          rintro rfl
          exact hlost (spot, .node .call ts) (by simp)
            (losesRecord_of_addRecord? record spot hremote hadded)
      · exact hchildren
    · rw [stamped_node hkind]
      exact hchildren

/-- Stamped trees have grown out of the trees. -/
theorem grown_stampedAll (hrecord : ∀ line, Written (record line)) {spot : Spot}
    {ts : List Script.Tree} (hts : EveryOf layout ts) (hlost : ∀ p ∈ callsIn spot ts,
      LosesRecord p.2 → WithinRemark (record p.1.lineNumber).text) :
    List.Forall₂ Grown ts (stampedAll record spot ts) := by
  cases ts with
  | nil => exact .nil
  | cons t ts =>
    rw [callsIn] at hlost
    exact .cons
      (grown_stamped hrecord hts.1 fun p hp => hlost p (List.mem_append_left _ hp))
      (grown_stampedAll hrecord hts.2 fun p hp => hlost p (List.mem_append_right _ hp))

end

mutual

/-- A tree grows as one of its calls does. -/
theorem grown_exchange {spot : Spot} {t : Script.Tree} {n : Nat} {p : Spot × Script.Tree}
    {call : Script.Tree} (hcall : (callsAt spot t)[n]? = some p) (h : Grown p.2 call) :
    Grown t (exchange call n t) := by
  cases t with
  | leaf kind s => contradiction
  | node kind ts =>
    by_cases hkind : kind = .call
    · subst hkind
      rw [callsAt, if_pos rfl] at hcall
      cases n with
      | zero =>
        cases hcall
        exact h
      | succ n => exact .node .call (grown_exchangeIn hcall h)
    · rw [callsAt, if_neg hkind, List.nil_append] at hcall
      have hexchange : exchange call n (.node kind ts) = .node kind (exchangeIn call n ts) := by
        cases kind <;> first | exact absurd rfl hkind | rfl
      rw [hexchange]
      exact .node kind (grown_exchangeIn hcall h)

/-- Trees grow as a call in one of them does. -/
theorem grown_exchangeIn {spot : Spot} {ts : List Script.Tree} {n : Nat} {p : Spot × Script.Tree}
    {call : Script.Tree} (hcall : (callsIn spot ts)[n]? = some p) (h : Grown p.2 call) :
    List.Forall₂ Grown ts (exchangeIn call n ts) := by
  have hsame (ts : List Script.Tree) : List.Forall₂ Grown ts ts :=
    List.forall₂_same.mpr fun _ _ => .refl
  cases ts with
  | nil => contradiction
  | cons t ts =>
    rw [callsIn] at hcall
    rw [exchangeIn, length_callsAt .start spot t]
    split
    · next hlt =>
      rw [List.getElem?_append_left hlt] at hcall
      exact .cons (grown_exchange hcall h) (hsame ts)
    · next hge =>
      rw [List.getElem?_append_right (Nat.le_of_not_lt hge)] at hcall
      exact .cons .refl (grown_exchangeIn hcall h)

end

/-! ## What is read back -/

/-- What is needed of a reader where changed scripts are read again: what has grown out of a script
is read as it is. -/
structure Rereads (read : Script.Reader) : Prop extends read.Spec where
  back : ∀ {d : Dialect} {s : List Char} {script new : Script.Tree}, read d s = some script →
    Grown script new → read d new.text = some new

/-- Whether a module loses a record only if its file has a name without separators. -/
def Unbroken (read : Script.Reader) (file source : String) : Prop :=
  ∀ script ∈ read (.ofFile file) source.toList, (∃ p ∈ calls script, LosesRecord p.2) →
    Unseparated file

variable {read : Script.Reader} {file source : String}

/-- A module without remarks loses no record. -/
theorem unbroken_of_remarkFree
    (h : ∀ script ∈ read (.ofFile file) source.toList, remarkFree script) :
    Unbroken read file source := by
  rintro script hreads ⟨p, hp, hloses⟩
  have hfree := remarkFree_of_mem_callsAt (h script hreads) hp
  exact absurd hloses (not_losesRecord_of_remarkFree hfree)

/-- A stamped script is read as it is. -/
theorem reads_stampedModule (hread : Rereads read) (hfile : Unbroken read file source)
    {script : Script.Tree} (hreads : read (.ofFile file) source.toList = some script) :
    read (.ofFile file) (stampedModule file source script).text =
      some (stampedModule file source script) :=
  hread.back hreads <| grown_stamped (fun line => written_recordTree file _ line)
    (hread.layout hreads) fun p hp hloses =>
      withinRemark_recordTree (hfile script hreads ⟨p, hp, hloses⟩) _ _

/-- A stamped module is read back. -/
theorem readsBack_of_rereads (hread : Rereads read) (hfile : Unbroken read file source) :
    ReadsBack read file source := by
  intro script hreads script' hreads'
  rw [reads_stampedModule hread hfile hreads] at hreads'
  exact (Option.some.inj hreads').symm

/-- The reader of this project reads back records at places of each kind. -/
example : ReadsBack parse? "./a.ts" "a.b.query(); a.b.query(1); a.b.query(1, undefined);
    a.b.query(1, \x7b \x7d); a.b.query(1, \x7b k: 2 \x7d); a.b.query(1, \x7b k: 2, \x7d);" := by
  unfold ReadsBack
  decide +kernel

/-- A script with a record in one of its calls is read back, if the record does not end the remark
that it is lost in. -/
theorem readsExtended_of_rereads (hread : Rereads read) {d : Dialect} {s : List Char}
    {script : Script.Tree} (hreads : read d s = some script) (n : Nat) (hr : Written r)
    (hlost : ∀ p ∈ (calls script)[n]?, ∀ q ∈ addRecord? r p.2, q.2 = true → WithinRemark r.text) :
    ReadsExtended read d script n r := by
  intro p hp q hq again hagain
  obtain ⟨ts, hts, hlayout, -⟩ := call_of_mem_calls hread.toSpec hreads (List.mem_of_getElem? hp)
  have hgrown : Grown p.2 q.1 := by
    have hlost := hlost p hp q hq
    rw [hts] at hq hlayout ⊢
    exact grown_addRecord? hr hlost (fun _ => brackets_of_everyOf hlayout.2) hq
  rw [hread.back hreads (grown_exchange hp hgrown)] at hagain
  exact (Option.some.inj hagain).symm

/-- In a file whose name has no separators, a script with the record of one of its calls is read
back. -/
theorem readsExtended_recordTree (hread : Rereads read) {d : Dialect} {s : List Char}
    {script : Script.Tree} (hreads : read d s = some script) (n : Nat) (hfile : Unseparated file)
    (side : Side) (line : UInt32) : ReadsExtended read d script n (recordTree file side line) :=
  readsExtended_of_rereads hread hreads n (written_recordTree file side line)
    fun _ _ _ _ _ => withinRemark_recordTree hfile side line

/-- Every pass after the first leaves a module without remarks as it is, whoever reads scripts by
their grammar. -/
theorem Stamper.settles_of_rereads {s : Stamper} {path : Path} (hread : Rereads read)
    (hremarks : ∀ script ∈ read (.ofFile (Path.display s.root path)) source.toList,
      remarkFree script) : s.Settles read path source :=
  settles_of_remarkFree hread.toSpec
    (readsBack_of_rereads hread (unbroken_of_remarkFree hremarks)) hremarks

end Stamp

end Crossing
