import Crossing.Proofs.Script.Course
import Crossing.Proofs.Script.Tokens
import Crossing.Proofs.Stamp.Extended
import Crossing.Proofs.Text.Decimal

/-!
# Stamping keeps the course

What stamping writes has no line feed, whatever the name of the file is, and holds no call. So a
stamped tree takes the course of the tree, with the stamped calls in it (`course_stamped`), and each
call stays on its line (`lines_calls_stamped`). For the calls alone, nothing need be known of the
characters (`calls_stamped`).
-/

namespace Crossing

/-- A digit of an escape is no line feed. -/
theorem Json.hexDigit_ne_newline {n : Nat} (h : n < 16) : '\n' ≠ Json.hexDigit n := by
  revert n
  decide

/-- A line feed is escaped, and no escape has one in it. -/
theorem Json.newline_not_mem_escape (c : Char) : '\n' ∉ Json.escape c := by
  unfold Json.escape
  split
  case h_8 hnewline _ _ =>
    split
    · next hcontrol =>
      have hhigh := hexDigit_ne_newline (show c.toNat / 16 < 16 by omega)
      have hlow := hexDigit_ne_newline (Nat.mod_lt c.toNat (by decide : 16 > 0))
      simp [hhigh, hlow]
    · exact fun h => hnewline (List.mem_singleton.mp h).symm
  all_goals decide

/-- A string literal has no line feed, whatever it stands for. -/
theorem Json.newline_not_mem_quote (text : String) : '\n' ∉ (Json.quote text).toList := by
  have hescaped : '\n' ∉ text.toList.flatMap Json.escape := fun h => by
    obtain ⟨c, -, hc⟩ := List.mem_flatMap.mp h
    exact Json.newline_not_mem_escape c hc
  simp [Json.quote, hescaped]

namespace Stamp

open Text Script Script.Tree

variable {feed : Char → Bool} {r : Script.Tree} {record : UInt32 → Script.Tree}

section Writing

variable (hfeed : ∀ c, feed c = true → c = '\n')

include hfeed

/-! ## What is written -/

/-- If no character but the line feed counts, none does in a text without line feeds. -/
theorem countP_feed {s : List Char} (h : '\n' ∉ s) : s.countP feed = 0 :=
  List.countP_eq_zero.mpr fun c hc hcounts => h (hfeed c hcounts ▸ hc)

/-- A leaf without line feeds takes no course. -/
theorem course_leaf_eq_nil (kind : Leaf) {s : List Char} (h : '\n' ∉ s) :
    course feed (.leaf kind s) = [] := by
  rw [course_leaf, countP_feed hfeed h]
  rfl

/-- A sign without line feeds takes no course. -/
theorem course_mark {sign : String} (h : '\n' ∉ sign.toList) : course feed (mark sign) = [] :=
  course_leaf_eq_nil hfeed .mark h

/-- A blank takes no course. -/
theorem course_blank : course feed blank = [] :=
  course_leaf_eq_nil hfeed .trivia (by decide)

/-- A slot takes the course of its value. -/
theorem course_slotTree {key : String} (hkey : '\n' ∉ key.toList) (value : Script.Tree) :
    course feed (slotTree key value) = course feed value := by
  have hname := course_leaf_eq_nil hfeed .property hkey
  have hcolon : course feed (mark ":") = [] := course_mark hfeed (by decide)
  rw [slotTree, course_node feed (by decide)]
  simp only [courseOf_cons, courseOf_nil, hname, hcolon, course_blank hfeed, List.nil_append,
    List.append_nil]

/-- The commas between slots take no course. -/
theorem courseOf_listed (slots : List Script.Tree) :
    courseOf feed (listed slots) = courseOf feed slots := by
  have hcomma : course feed (mark ",") = [] := course_mark hfeed (by decide)
  fun_induction listed slots with
  | case1 => rfl
  | case2 slot => rfl
  | case3 slot rest hrest ih =>
    simp only [courseOf_cons, hcomma, course_blank hfeed, List.nil_append, ih]

/-- A literal takes the course of its slots. -/
theorem course_literalTree (slots : List Script.Tree) :
    course feed (literalTree slots) = courseOf feed slots := by
  have hopen : course feed (mark "\x7b") = [] := course_mark hfeed (by decide)
  have hclose : course feed (mark "\x7d") = [] := course_mark hfeed (by decide)
  rw [literalTree, course_node feed (by decide)]
  simp only [courseOf_cons, courseOf_append, courseOf_nil, courseOf_listed hfeed, hopen, hclose,
    course_blank hfeed, List.nil_append, List.append_nil]

/-- A record takes no course of its own, whatever the name of the file is. -/
theorem course_recordTree (file : String) (side : Side) (line : UInt32) :
    course feed (recordTree file side line) = [] := by
  have hside : '\n' ∉ ("\"" ++ side.name ++ "\"").toList := by
    cases side <;> decide
  rw [recordTree, course_literalTree hfeed, courseOf_cons, courseOf_cons, courseOf_cons,
    course_slotTree hfeed (by decide), course_slotTree hfeed (by decide),
    course_slotTree hfeed (by decide), course_leaf_eq_nil hfeed _ (Json.newline_not_mem_quote file),
    course_leaf_eq_nil hfeed _ (Decimal.newline_not_mem_ofNat line.toNat),
    course_leaf_eq_nil hfeed _ hside]
  rfl

/-- A value takes its course below levels of keys, too. -/
theorem course_nested {path : List String} (hpath : ∀ key ∈ path, '\n' ∉ key.toList)
    (value : Script.Tree) : course feed (nested path value) = course feed value := by
  induction path with
  | nil => rfl
  | cons key path ih =>
    obtain ⟨hkey, hrest⟩ := List.forall_mem_cons.mp hpath
    rw [nested, course_literalTree hfeed, courseOf_cons, course_slotTree hfeed hkey, ih hrest]
    exact List.append_nil _

omit hfeed in
/-- The keys that lead to the record have no line feed. -/
theorem newline_not_mem_recordPath : ∀ key ∈ recordPath, '\n' ∉ key.toList := by
  decide

/-- What is written for a slot takes the course of the slot. -/
theorem courseOf_written (slot : Script.Tree) (layout : Layout) :
    courseOf feed (layout.written slot).1 = course feed slot ∧ '\n' ∉ (layout.written slot).2 := by
  have hcomma : course feed (mark ",") = [] := course_mark hfeed (by decide)
  have hblank := course_blank hfeed
  cases layout <;> simp [Layout.written, hcomma, hblank]

/-- Blanks without line feeds add nothing to a course. -/
theorem courseOf_glue {gap : List Char} (hgap : '\n' ∉ gap) (ts : List Script.Tree) :
    courseOf feed (glue gap ts) = courseOf feed ts := by
  have hcount := countP_feed hfeed hgap
  unfold glue
  split <;> simp [hcount]

/-- What is written behind a tree adds nothing to the course of what is there. -/
theorem courseOf_insertBehind {written : List Script.Tree} (hwritten : courseOf feed written = [])
    {gap : List Char} (hgap : '\n' ∉ gap) (last : Script.Tree) (after : List Script.Tree) :
    courseOf feed (insertBehind written gap last after).1 = courseOf feed (last :: after) := by
  have htext : (textOf written).countP feed = 0 := by
    rw [← countP_courseOf, hwritten]
    rfl
  unfold insertBehind
  split
  · simp [htext, countP_feed hfeed hgap]
  · simp [hwritten, courseOf_glue hfeed hgap]

/-- A slot adds nothing to the course of a literal. -/
theorem courseOf_addSlot {slot : Script.Tree} (hslot : course feed slot = [])
    (before : List Script.Tree) (last : Script.Tree) (after : List Script.Tree) :
    courseOf feed (addSlot slot before last after).1 = courseOf feed (before ++ last :: after) := by
  obtain ⟨hwritten, hgap⟩ := courseOf_written hfeed slot (layoutOf before last)
  rw [hslot] at hwritten
  rw [addSlot_fst, courseOf_append, courseOf_append, courseOf_insertBehind hfeed hwritten hgap]

/-! ## Where it is written -/

/-- An extended literal takes the course of the literal. -/
theorem course_extendTree? (hr : course feed r = []) {path : List String}
    (hpath : ∀ key ∈ path, '\n' ∉ key.toList) {t t' : Script.Tree} {lost : Bool}
    (h : extendTree? r path t = some (t', lost)) : course feed t' = course feed t := by
  induction path generalizing t t' with
  | nil => contradiction
  | cons key path ih =>
    obtain ⟨hkey, hrest⟩ := List.forall_mem_cons.mp hpath
    -- The literal gains a slot, or one of its values is extended.
    obtain ⟨_, _, ts, before, last, after, heq, rfl, hseat, ⟨-, -, rfl⟩ |
      ⟨us, front, value, value', behind, hsplit, hvalue, rfl⟩⟩ := exists_of_extendTree? h
    · cases heq
      have hslot : course feed (slotTree key (nested path r)) = [] := by
        rw [course_slotTree hfeed hkey, course_nested hfeed hrest, hr]
      rw [course_node feed (by decide), course_node feed (by decide), courseOf_addSlot hfeed hslot,
        eq_of_seat? hseat]
    · cases heq
      obtain ⟨rfl, -, -⟩ := splitLast?_eq_some.mp hsplit
      have hpair (ts : List Script.Tree) : course feed (.node .pair ts) = courseOf feed ts :=
        course_node feed (by decide) ts
      rw [course_node feed (by decide), course_node feed (by decide)]
      simp only [courseOf_append, courseOf_cons, hpair, ih hrest hvalue]

/-- Arguments with a record take the course of the arguments, if a name `undefined` takes none. -/
theorem courseOf_addArgument? (hr : course feed r = []) {ts ts' : List Script.Tree} {lost : Bool}
    (hundefined : ∀ t ∈ ts, t.isLeaf .undefined = true → course feed t = [])
    (h : addArgument? r ts = some (ts', lost)) : courseOf feed ts' = courseOf feed ts := by
  have hoptions : course feed (nested recordPath r) = [] := by
    rw [course_nested hfeed newline_not_mem_recordPath, hr]
  have hcomma : course feed (mark ",") = [] := course_mark hfeed (by decide)
  have hblank := course_blank hfeed
  cases argued_of_addArgument? h with
  | none hfirst =>
    have hname : course feed (.leaf .undefined "undefined".toList) = [] :=
      course_leaf_eq_nil hfeed _ (by decide)
    rcases List.eq_nil_or_concat ts with rfl | ⟨front, last, rfl⟩
    · simp only [List.dropLast_nil, List.nil_append, List.getLast?_nil, Option.toList_none,
        courseOf_cons, courseOf_nil, hname, hcomma, hblank, hoptions]
    · simp only [List.concat_eq_append, List.dropLast_concat, List.getLast?_concat,
        Option.toList_some, courseOf_append, courseOf_cons, hname, hcomma, hblank, hoptions,
        List.nil_append]
  | single hfirst hsecond =>
    have hwritten : courseOf feed [mark ",", blank, nested recordPath r] = [] := by
      simp only [courseOf_cons, hcomma, hblank, hoptions, courseOf_nil, List.append_nil]
    rw [courseOf_append, courseOf_append, courseOf_insertBehind hfeed hwritten List.not_mem_nil]
  | @undefined _ _ _ _ second hfirst hsecond hleaf =>
    have hname := hundefined second (by simp) hleaf
    simp only [courseOf_append, courseOf_cons, hoptions, hname]
  | literal hfirst hsecond hextend =>
    simp only [courseOf_append, courseOf_cons,
      course_extendTree? hfeed hr newline_not_mem_recordPath hextend]

end Writing

/-! ## Stamped trees -/

/-- The leaves among stamped trees stand among the trees. -/
theorem mem_of_mem_stampedAll {spot : Spot} {ts : List Script.Tree} {u : Script.Tree} {kind : Leaf}
    (h : u ∈ stampedAll record spot ts) (hkind : u.isLeaf kind = true) : u ∈ ts := by
  obtain ⟨t, ht, spot', rfl⟩ := exists_of_mem_stampedAll h
  cases t with
  | leaf kind' s => rwa [stamped_leaf]
  | node kind' us =>
    rw [isLeaf_stamped] at hkind
    contradiction

/-- A leaf among the arguments of a call that is stamped is a leaf of the call. -/
theorem token_of_mem_arguments {spot : Spot} {ts args : List Script.Tree} {kind : Leaf}
    {s : List Char} (hargs : .node .arguments args ∈ stampedAll record spot ts)
    (hleaf : .leaf kind s ∈ args) : (kind, s) ∈ tokensOf ts := by
  obtain ⟨t, ht, spot', hstamped⟩ := exists_of_mem_stampedAll hargs
  have hkind := @hasKind_stamped record spot' .arguments t
  rw [← hstamped] at hkind
  cases t with
  | leaf kind' s' => contradiction
  | node kind' us =>
    obtain rfl : kind' = .arguments := (of_decide_eq_true hkind.symm).symm
    rw [stamped_node (by decide)] at hstamped
    cases hstamped
    have hmem := mem_of_mem_stampedAll hleaf (decide_eq_true rfl)
    obtain ⟨front, behind, rfl⟩ := List.append_of_mem ht
    obtain ⟨front', behind', rfl⟩ := List.append_of_mem hmem
    simp [tokensOf_append, tokensOf, tokens]

/-- A stamped call is a call that takes the course of its stamped children. -/
theorem exists_stamped_call (hfeed : ∀ c, feed c = true → c = '\n')
    (hrecord : ∀ line, course feed (record line) = []) (spot : Spot) {ts : List Script.Tree}
    (hundefined : ∀ name, (Leaf.undefined, name) ∈ tokensOf ts → name.countP feed = 0) :
    ∃ us, stamped record spot (.node .call ts) = .node .call us ∧
      courseOf feed us = courseOf feed (stampedAll record spot ts) := by
  rw [stamped]
  split
  · cases hadded : addRecord? (record spot.lineNumber) (.node .call (stampedAll record spot ts)) with
    | none => exact ⟨_, rfl, rfl⟩
    | some added =>
      obtain ⟨_, before, args, args', after, heq, hlast, hargs, hcall⟩ := exists_of_addRecord? hadded
      cases heq
      obtain ⟨hts, -, -⟩ := splitLast?_eq_some.mp hlast
      have hmem : .node .arguments args ∈ stampedAll record spot ts := by simp [hts]
      have hname : ∀ t ∈ args, t.isLeaf .undefined = true → course feed t = [] := by
        intro t ht hleaf
        cases t with
        | node kind us => contradiction
        | leaf kind name =>
          obtain rfl : kind = .undefined := (of_decide_eq_true hleaf).symm
          rw [course_leaf, hundefined name (token_of_mem_arguments hmem ht)]
          rfl
      have harguments (args : List Script.Tree) :
          course feed (.node .arguments args) = courseOf feed args :=
        course_node feed (by decide) args
      refine ⟨_, hcall, ?_⟩
      rw [hts]
      simp only [courseOf_append, courseOf_cons, harguments,
        courseOf_addArgument? hfeed (hrecord _) hname hargs]
  · exact ⟨_, rfl, rfl⟩

mutual

/-- A stamped tree takes the course of the tree, with the stamped calls in it. -/
theorem course_stamped (hfeed : ∀ c, feed c = true → c = '\n')
    (hrecord : ∀ line, course feed (record line) = []) (spot : Spot) {t : Script.Tree}
    (hundefined : ∀ name, (Leaf.undefined, name) ∈ t.tokens → name.countP feed = 0) :
    course feed (stamped record spot t) =
      (courseAt feed spot t).map (Option.map fun p => stamped record p.1 p.2) := by
  cases t with
  | leaf kind s =>
    rw [stamped_leaf, course_leaf, courseAt, List.map_replicate]
    rfl
  | node kind ts =>
    have hts := courseOf_stampedAll hfeed hrecord spot hundefined
    rw [courseAt, List.map_append, ← hts]
    by_cases hkind : kind = .call
    · subst hkind
      obtain ⟨us, hcall, hus⟩ := exists_stamped_call hfeed hrecord spot hundefined
      rw [if_pos rfl, List.map_singleton, Option.map_some, hcall, course_call, hus]
      rfl
    · rw [if_neg hkind, stamped_node hkind, course_node feed hkind]
      rfl

/-- Stamped trees that follow one another take the course of the trees. -/
theorem courseOf_stampedAll (hfeed : ∀ c, feed c = true → c = '\n')
    (hrecord : ∀ line, course feed (record line) = []) (spot : Spot) {ts : List Script.Tree}
    (hundefined : ∀ name, (Leaf.undefined, name) ∈ tokensOf ts → name.countP feed = 0) :
    courseOf feed (stampedAll record spot ts) =
      (courseIn feed spot ts).map (Option.map fun p => stamped record p.1 p.2) := by
  cases ts with
  | nil => rfl
  | cons t ts =>
    rw [tokensOf] at hundefined
    rw [stampedAll, courseOf_cons, courseIn, List.map_append,
      course_stamped hfeed hrecord spot fun name h => hundefined name (List.mem_append_left _ h),
      courseOf_stampedAll hfeed hrecord _ fun name h => hundefined name (List.mem_append_right _ h)]

end

/-- A record holds no calls. -/
theorem calls_recordTree (file : String) (side : Side) (line : UInt32) :
    course (fun _ => false) (recordTree file side line) = [] :=
  course_recordTree (fun _ h => absurd h Bool.false_ne_true) file side line

/-- The calls of a stamped script are the stamped calls of the script. -/
theorem calls_stamped (hrecord : ∀ line, course (fun _ => false) (record line) = [])
    (script : Script.Tree) : (calls (stamped record .start script)).map Prod.snd =
      (calls script).map fun p => stamped record p.1 p.2 := by
  -- No character counts.
  have hfeed : ∀ c : Char, false = true → c = '\n' := fun c h => absurd h Bool.false_ne_true
  have hundefined : ∀ name, (Leaf.undefined, name) ∈ script.tokens →
      name.countP (fun _ => false) = 0 :=
    fun name _ => List.countP_eq_zero.mpr fun c _ => Bool.false_ne_true
  have hcourse := course_stamped hfeed hrecord .start hundefined
  rw [calls, ← reduceOption_course (fun _ => false), hcourse, List.reduceOption_map,
    reduceOption_courseAt, calls]

/-- The line feed is what ends a line. -/
theorem eq_newline_of_isFeed (c : Char) (h : isFeed c = true) : c = '\n' :=
  eq_of_beq h

section Lines

variable (hrecord : ∀ line, course isFeed (record line) = []) {script : Script.Tree}
  (hundefined : ∀ name, (Leaf.undefined, name) ∈ script.tokens → '\n' ∉ name)

include hrecord hundefined

/-- If `undefined` is spelled without line feeds, a stamped script has the line feeds of the script
where they were. -/
theorem course_isFeed_stamped : course isFeed (stamped record .start script) =
    (courseAt isFeed .start script).map (Option.map fun p => stamped record p.1 p.2) :=
  course_stamped eq_newline_of_isFeed hrecord .start fun name hname =>
    countP_feed eq_newline_of_isFeed (hundefined name hname)

/-- The calls of a stamped script are the stamped calls of the script, each on its line. -/
theorem lines_calls_stamped :
    (calls (stamped record .start script)).map (fun q => (q.1.line, q.2)) =
      (calls script).map fun p => (p.1.line, stamped record p.1 p.2) := by
  rw [calls, lines_callsAt, course_isFeed_stamped hrecord hundefined, numbered_map, ← map_callsAt,
    List.map_map]
  rfl

/-- A stamped script has as many line feeds as the script. -/
theorem count_newline_stamped :
    (stamped record .start script).text.count '\n' = script.text.count '\n' := by
  show (stamped record .start script).text.countP isFeed = script.text.countP isFeed
  rw [← countP_course, course_isFeed_stamped hrecord hundefined, ← countP_course, course,
    List.countP_map, List.countP_map]
  refine List.countP_congr fun x _ => ?_
  cases x <;> exact Iff.rfl

end Lines

end Stamp

end Crossing
