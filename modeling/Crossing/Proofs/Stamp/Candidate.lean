import Crossing.Proofs.Script.Calls
import Crossing.Proofs.Script.Gap
import Crossing.Proofs.Text.Search
import Crossing.Stamp.Transform

/-!
# What the text check finds

Before a module is read, its text is searched for a dot, the name of a method and a bracket. A call
of a remote procedure is found at its own dot exactly if it is laid out plainly: with nothing but
white space around the name, and arguments or their types right behind it
(`startsCandidate_fromDot`). A comment there hides the call, and so does the sign `?.`. So a module
is taken for one that might hold calls if one of its calls is plain, and otherwise only if something
else in it looks like a call (`mayHoldCalls_iff`).
-/

namespace Crossing.Stamp

open Text Script Script.Tree

/-! ## The name of a method and what follows it -/

/-- The names of the methods are made of letters. -/
theorem isAlpha_of_mem_terminalMethods {m : String} (h : m ∈ terminalMethods) :
    m.toList ≠ [] ∧ m.toList.all Char.isAlpha = true := by
  revert m
  decide

/-- A letter is neither a blank of any sort nor a sign. -/
theorem not_of_isAlpha {c : Char} (h : c.isAlpha = true) :
    isBlank c = false ∧ isSpace c = false ∧ c ≠ '/' ∧ c ≠ '<' ∧ c ≠ '(' := by
  have hrange := toNat_of_isAlpha h
  refine ⟨isBlank_of_ascii (by omega), ?_, ?_, ?_, ?_⟩
  · simp only [isSpace, Bool.or_eq_false_iff, Bool.and_eq_false_iff, decide_eq_false_iff_not,
      beq_eq_false_iff_ne]
    omega
  all_goals
    rintro rfl
    exact absurd h (by decide)

/-- Whether a text starts with a bracket that might open arguments or their types, behind white
space. -/
def opensCall (s : List Char) : Bool :=
  match trimStart s with
  | c :: _ => c == '<' || c == '('
  | [] => false

/-- A text that starts with a character that is no white space opens a call with a bracket only. -/
theorem opensCall_cons {c : Char} (hc : isBlank c = false) (s : List Char) :
    opensCall (c :: s) = (c == '<' || c == '(') := by
  rw [opensCall, trimStart, List.dropWhile_cons_of_neg (by simp [hc])]

/-- A gap that is white space does not count. -/
theorem opensCall_append_of_all {gap : List Char} (h : gap.all isBlank = true) (s : List Char) :
    opensCall (gap ++ s) = opensCall s := by
  rw [opensCall, trimStart, List.dropWhile_append_of_pos (List.all_eq_true.mp h)]
  rfl

/-- What a gap leaves that is not all white space. -/
theorem exists_trimStart_gap {text : List Char}
    (h : (text.take (trivia text)).all isBlank = false) (s : List Char) :
    ∃ c rest, trimStart (text.take (trivia text) ++ s) = c :: rest ∧
      (c = '/' ∨ isSpace c = true) := by
  cases htrim : trimStart (text.take (trivia text)) with
  | nil =>
    -- If nothing is left behind the white space, then all of the gap is white space.
    have hsplit := List.takeWhile_append_dropWhile (p := isBlank) (l := text.take (trivia text))
    rw [← trimStart, htrim, List.append_nil] at hsplit
    rw [← hsplit, List.all_takeWhile] at h
    contradiction
  | cons c rest =>
    refine ⟨c, rest ++ s, ?_, head?_trimStart_take_trivia (by rw [htrim]; rfl)⟩
    rw [trimStart, List.dropWhile_append]
    rw [trimStart] at htrim
    rw [htrim]
    rfl

/-- A gap with a comment, or with a blank that is no white space, hides what follows it. -/
theorem opensCall_gap {text : List Char} (h : (text.take (trivia text)).all isBlank = false)
    (s : List Char) : opensCall (text.take (trivia text) ++ s) = false := by
  obtain ⟨c, rest, htrim, hc⟩ := exists_trimStart_gap h s
  rw [opensCall, htrim]
  rcases hc with rfl | hc
  · rfl
  · simp only [Bool.or_eq_false_iff, beq_eq_false_iff_ne]
    refine ⟨?_, ?_⟩ <;>
    · rintro rfl
      exact absurd hc (by decide)

/-- A gap does not start with a letter. -/
theorem isAlpha_head_gap {text : List Char} {c : Char} {rest : List Char}
    (h : text.take (trivia text) = c :: rest) : c.isAlpha = false := by
  refine Bool.eq_false_iff.mpr fun hc => ?_
  obtain ⟨hblank, hspace, hslash, -, -⟩ := not_of_isAlpha hc
  have htrim : (trimStart (text.take (trivia text))).head? = some c := by
    rw [h, trimStart, List.dropWhile_cons_of_neg (by simp [hblank])]
    rfl
  rcases head?_trimStart_take_trivia htrim with heq | heq
  · exact hslash heq
  · rw [hspace] at heq
    contradiction

/-- The name of a method that a letter does not continue is found, and no other name is. -/
theorem any_after? {method : String} (hmethod : method ∈ terminalMethods) {s : List Char}
    (hs : ∀ c rest, s = c :: rest → c.isAlpha = false) :
    (terminalMethods.any fun m => match after? m.toList (method.toList ++ s) with
      | some tail => opensCall tail
      | none => false) = opensCall s := by
  rw [Bool.eq_iff_iff, List.any_eq_true]
  constructor
  · rintro ⟨m, hm, htail⟩
    split at htail
    · next tail hafter =>
      -- Of two names that a text starts with one goes on with letters where the other ends.
      have heq := eq_append_of_after? hafter
      rcases List.append_eq_append_iff.mp heq with ⟨r, hmr, hsr⟩ | ⟨r, hmr, htr⟩
      · cases r with
        | nil => rwa [hsr]
        | cons c r =>
          have hc := List.all_eq_true.mp (isAlpha_of_mem_terminalMethods hm).2 c (by simp [hmr])
          rw [hs c _ hsr] at hc
          contradiction
      · cases r with
        | nil => rwa [htr] at htail
        | cons c r =>
          have hc := List.all_eq_true.mp (isAlpha_of_mem_terminalMethods hmethod).2 c
            (by simp [hmr])
          obtain ⟨hblank, -, -, hlt, hparen⟩ := not_of_isAlpha hc
          rw [htr, List.cons_append, opensCall_cons hblank] at htail
          simp [hlt, hparen] at htail
    · contradiction
  · intro h
    refine ⟨method, hmethod, ?_⟩
    rw [after?_append]
    exact h

/-- A dot, a gap and the name of a method look like a call if the gap is white space and a bracket
follows the name. -/
theorem startsCandidate_eq {method : String} (hmethod : method ∈ terminalMethods)
    {s : List Char} (hs : ∀ c rest, s = c :: rest → c.isAlpha = false) (text : List Char) :
    startsCandidate ('.' :: (text.take (trivia text) ++ (method.toList ++ s))) =
      ((text.take (trivia text)).all isBlank && opensCall s) := by
  have hunfold (r : List Char) : startsCandidate ('.' :: r) =
      terminalMethods.any fun m => match after? m.toList (trimStart r) with
        | some tail => opensCall tail
        | none => false := rfl
  obtain ⟨hne, hall⟩ := isAlpha_of_mem_terminalMethods hmethod
  have hletters := List.all_eq_true.mp hall
  cases hgap : (text.take (trivia text)).all isBlank with
  | true =>
    -- The gap is trimmed away, and the name is next.
    have htrim : trimStart (text.take (trivia text) ++ (method.toList ++ s)) =
        method.toList ++ s := by
      obtain ⟨c, rest, hc⟩ := List.exists_cons_of_ne_nil hne
      have hblank := (not_of_isAlpha (hletters c (by simp [hc]))).1
      rw [trimStart, List.dropWhile_append_of_pos (List.all_eq_true.mp hgap), hc,
        List.cons_append, List.dropWhile_cons_of_neg (by simp [hblank])]
    rw [hunfold, htrim, any_after? hmethod hs, Bool.true_and]
  | false =>
    -- Something in the gap is next, and no name starts with it.
    obtain ⟨c, rest, htrim, hc⟩ := exists_trimStart_gap hgap (method.toList ++ s)
    rw [hunfold, htrim, Bool.false_and, List.any_eq_false]
    intro m hm
    obtain ⟨hne, hall⟩ := isAlpha_of_mem_terminalMethods hm
    have hletters := List.all_eq_true.mp hall
    obtain ⟨a, more, ha⟩ := List.exists_cons_of_ne_nil hne
    have hac : a ≠ c := by
      rintro rfl
      obtain ⟨-, hspace, hslash, -, -⟩ := not_of_isAlpha (hletters a (by simp [ha]))
      rcases hc with hc | hc
      · exact hslash hc
      · rw [hspace] at hc
        contradiction
    rw [ha, after?, if_neg hac]
    exact Bool.false_ne_true

/-! ## The layout of a call -/

/-- The text of a call of a member from the dot in front of its method on. -/
def fromDot : Tree → List Char
  | .node .call (.node .member (_ :: tail) :: rest) =>
    (textOf (Reading.splitTrivia tail).2 ++ textOf rest).dropWhile (· == '?')
  | _ => []

/-- Whether a call of a member is laid out plainly: the gaps in front of and behind the name of the
method are white space, and arguments or their types follow. -/
def isPlain : Tree → Bool
  | .node .call (.node .member (_ :: tail) :: rest) =>
    (textOf (Reading.splitTrivia (Reading.splitTrivia tail).2.tail).1).all isBlank &&
      (textOf (Reading.splitTrivia rest).1).all isBlank &&
      (Reading.splitTrivia rest).2.head?.any fun t =>
        t.hasKind .arguments || t.hasKind .typeArguments
  | _ => false

/-- A gap has no parts. -/
theorem filter_gapOf (s : List Char) : (gapOf s).filter (!·.isTrivia) = [] :=
  List.filter_eq_nil_iff.mpr fun g hg => by simp [isTrivia_of_mem_gapOf hg]

/-- The text of a gap is what is skipped. -/
theorem textOf_gapOf (s : List Char) : textOf (gapOf s) = s.take (trivia s) :=
  Reading.textOf_triviaLeaf _ _

/-- A node that makes a call of a tree is of one of three kinds. -/
theorem kind_of_isCallPart {k : Kind} {ts : List Tree} (h : IsCallPart (.node k ts)) :
    k = .arguments ∨ k = .typeArguments ∨ k = .template := by
  rcases h with h | h | h | h
  · exact .inl (of_decide_eq_true h).symm
  · exact .inr (.inl (of_decide_eq_true h).symm)
  · exact .inr (.inr (of_decide_eq_true h).symm)
  · contradiction

/-- What makes a call of a tree is no member. -/
theorem hasKind_member_of_isCallPart {t : Tree} (h : IsCallPart t) : t.hasKind .member = false := by
  cases t with
  | leaf k s => rfl
  | node k ts => rcases kind_of_isCallPart h with rfl | rfl | rfl <;> rfl

/-- The method of a call is the last part of the member that it calls. -/
theorem method?_eq_some {call : Tree} {m : String} {onMember : Bool}
    (h : method? call = some (m, onMember)) :
    ∃ callee receiver dot s, callee? call = some callee ∧ callee.hasKind .member = true ∧
      callee.parts = [receiver, dot, .leaf .property s] ∧ m = .ofList s := by
  unfold method? at h
  cases hcallee : callee? call with
  | none => rw [hcallee] at h; contradiction
  | some callee =>
    simp only [hcallee, Option.bind_eq_bind, Option.bind_some] at h
    split at h
    · contradiction
    · next hmember =>
      split at h
      · next receiver dot s hparts =>
        cases h
        exact ⟨callee, receiver, dot, s, rfl, by simpa using hmember, hparts, rfl⟩
      · contradiction

/-- The member that is called is the first child: what makes a call of it is no member. -/
theorem eq_callee {first part callee : Tree} {behind : List Char} {more : List Tree}
    (hpart : part.isTrivia = false) (hcallPart : IsCallPart part)
    (h : callee? (.node .call (first :: (gapOf behind ++ part :: more))) = some callee)
    (hmember : callee.hasKind .member = true) : first = callee := by
  simp only [callee?, Tree.parts, Tree.children, List.filter_cons, List.filter_append,
    filter_gapOf, List.nil_append, hpart, Bool.not_false, if_true] at h
  cases hfirst : first.isTrivia with
  | false =>
    rw [hfirst] at h
    exact Option.some.inj h
  | true =>
    rw [hfirst] at h
    obtain rfl : part = callee := Option.some.inj h
    rw [hasKind_member_of_isCallPart hcallPart] at hmember
    contradiction

/-- Three parts of a member are left only if the receiver is one, and then the name is the last. -/
theorem eq_name {receiver receiver' dot dot' name : Tree} {before between method : List Char}
    (hdot : dot.isTrivia = false) (hname : name.isTrivia = false)
    (h : (Script.Tree.node .member (receiver :: (gapOf before ++ [dot] ++
      (gapOf between ++ [name])))).parts = [receiver', dot', .leaf .property method]) :
    name = .leaf .property method := by
  simp only [Tree.parts, Tree.children, List.filter_cons, List.filter_append, filter_gapOf,
    List.nil_append, hdot, hname, Bool.not_false, if_true, List.filter_nil, List.cons_append] at h
  split at h
  · exact (List.cons.inj (List.cons.inj (List.cons.inj h).2).2).1
  · have hlength := congrArg List.length h
    simp at hlength

/-- A call of a remote procedure: a member of a receiver, a dot, the name of a method, and what
makes a call of it. -/
theorem remoteCall_cases {ts : List Tree} (hlayout : (Script.Tree.node .call ts).Every layout)
    (hremote : isRemoteCall (.node .call ts) = true) :
    ∃ receiver before dot between method behind part more,
      ts = .node .member (receiver :: (gapOf before ++ [dot] ++
        (gapOf between ++ [.leaf .property method]))) :: (gapOf behind ++ part :: more) ∧
      dot.isTrivia = false ∧ IsDot dot ∧ .ofList method ∈ terminalMethods ∧
      part.isTrivia = false ∧ IsCallPart part ∧ part.Every layout := by
  obtain ⟨hcall, hparts⟩ := hlayout
  unfold isRemoteCall at hremote
  split at hremote
  · next m onMember hmethod =>
    obtain ⟨callee, receiver, _, method, hcallee, hmember, hmemberParts, rfl⟩ :=
      method?_eq_some hmethod
    cases ts with
    | nil => exact hcall.elim
    | cons first rest =>
      obtain ⟨behind, part, more, rfl, hpart, hcallPart⟩ := hcall
      have hpartEvery : part.Every layout := (everyOf_append.mp hparts.2).2.1
      obtain rfl : first = callee := eq_callee hpart hcallPart hcallee hmember
      cases first with
      | leaf k s => contradiction
      | node k us =>
        obtain rfl : Kind.member = k := of_decide_eq_true hmember
        obtain ⟨hfirstLayout, hus⟩ := hparts.1
        cases us with
        | nil => exact hfirstLayout.elim
        | cons receiver' us =>
          obtain ⟨_, _, rfl, ⟨before, dot, rfl, hdot, hisDot⟩, between, name, rfl, hname, hisName⟩ :=
            hfirstLayout
          obtain rfl : name = .leaf .property method := eq_name hdot hname hmemberParts
          have hterminal : isTerminal (.ofList method) = true := by
            rw [isRemote, Bool.and_eq_true] at hremote
            exact hremote.2
          exact ⟨receiver', before, dot, between, method, behind, part, more, rfl, hdot, hisDot,
            List.contains_iff_mem.mp hterminal, hpart, hcallPart, hpartEvery⟩
  · contradiction

/-- What makes a call of a tree starts with a bracket or with a sign that is none. -/
theorem exists_text_of_isCallPart {part : Tree} (h : IsCallPart part) (hlayout : part.Every layout) :
    ∃ c rest, part.text = c :: rest ∧ isBlank c = false ∧ c.isAlpha = false ∧
      (c == '<' || c == '(') = (part.hasKind .arguments || part.hasKind .typeArguments) := by
  cases part with
  | leaf k s =>
    rcases h with h | h | h | h
    · contradiction
    · contradiction
    · contradiction
    · cases h
      exact ⟨'?', ['.'], rfl, by decide, by decide, by decide⟩
  | node k ts =>
    rcases kind_of_isCallPart h with rfl | rfl | rfl <;> obtain ⟨inner, rfl⟩ := hlayout.1
    · exact ⟨'(', _, rfl, by decide, by decide, rfl⟩
    · exact ⟨'<', _, rfl, by decide, by decide, rfl⟩
    · exact ⟨'\x60', _, rfl, by decide, by decide, rfl⟩

/-- A call of a remote procedure looks like a candidate at its own dot exactly if it is plain,
whatever follows it. -/
theorem startsCandidate_fromDot {ts : List Tree} (hlayout : (Script.Tree.node .call ts).Every layout)
    (hremote : isRemoteCall (.node .call ts) = true) (s : List Char) :
    startsCandidate (fromDot (.node .call ts) ++ s) = isPlain (.node .call ts) := by
  obtain ⟨receiver, before, dot, between, method, behind, part, more, rfl, hdot, hisDot, hmethod,
    hpart, hcallPart, hpartLayout⟩ := remoteCall_cases hlayout hremote
  obtain ⟨c, rest, htext, hblank, halpha, hbracket⟩ :=
    exists_text_of_isCallPart hcallPart hpartLayout
  have hname : (Script.Tree.leaf .property method).isTrivia = false := rfl
  -- In both forms of the dot what is left from it on is the dot, two gaps and the name between.
  have hfromDot : fromDot (.node .call (.node .member (receiver :: (gapOf before ++ [dot] ++
      (gapOf between ++ [.leaf .property method]))) :: (gapOf behind ++ part :: more))) =
      '.' :: (between.take (trivia between) ++ (method ++ (behind.take (trivia behind) ++
        c :: (rest ++ textOf more)))) := by
    have hdotText : dot.text = ['.'] ∨ dot.text = ['?', '.'] := by
      rcases hisDot with rfl | rfl
      · exact .inl rfl
      · exact .inr rfl
    rw [fromDot, List.append_assoc, List.singleton_append, splitTrivia_gapOf before hdot]
    simp only [textOf, textOf_append, textOf_gapOf, htext, List.append_nil, List.append_assoc,
      List.cons_append]
    rcases hdotText with h | h <;> rw [h] <;> rfl
  have hplain : isPlain (.node .call (.node .member (receiver :: (gapOf before ++ [dot] ++
      (gapOf between ++ [.leaf .property method]))) :: (gapOf behind ++ part :: more))) =
      ((between.take (trivia between)).all isBlank && ((behind.take (trivia behind)).all isBlank &&
        (c == '<' || c == '('))) := by
    rw [isPlain, List.append_assoc, List.singleton_append, splitTrivia_gapOf before hdot,
      splitTrivia_gapOf behind hpart, hbracket]
    simp only [List.tail_cons, splitTrivia_gapOf between hname, textOf_gapOf, List.head?_cons,
      Option.any_some, Bool.and_assoc]
  -- The text behind the name starts with no letter, so the name ends there.
  have hnext : ∀ a more', behind.take (trivia behind) ++ c :: (rest ++ (textOf more ++ s)) =
      a :: more' → a.isAlpha = false := by
    intro a more' heq
    cases hgap : behind.take (trivia behind) with
    | nil =>
      rw [hgap] at heq
      rwa [← (List.cons.inj heq).1]
    | cons b gap =>
      rw [hgap] at heq
      rw [← (List.cons.inj heq).1]
      exact isAlpha_head_gap hgap
  have hopens : opensCall (behind.take (trivia behind) ++ c :: (rest ++ (textOf more ++ s))) =
      ((behind.take (trivia behind)).all isBlank && (c == '<' || c == '(')) := by
    cases hgap : (behind.take (trivia behind)).all isBlank with
    | true => rw [opensCall_append_of_all hgap, opensCall_cons hblank, Bool.true_and]
    | false => rw [opensCall_gap hgap, Bool.false_and]
  have hcandidate := startsCandidate_eq hmethod hnext between
  rw [hopens, String.toList_ofList] at hcandidate
  rw [hfromDot, hplain, ← hcandidate]
  simp only [List.cons_append, List.append_assoc]

/-- The text of a call of a remote procedure ends with its text from the dot on. -/
theorem fromDot_suffix_text (ts : List Tree) :
    fromDot (.node .call ts) <:+ (Script.Tree.node .call ts).text := by
  unfold fromDot
  split
  · next receiver tail rest heq =>
    cases heq
    refine (List.dropWhile_suffix _).trans ?_
    simp only [Tree.text, textOf, List.append_assoc]
    rw [← Reading.textOf_splitTrivia tail, List.append_assoc]
    exact (List.suffix_append _ _).trans (List.suffix_append _ _)
  · exact List.nil_suffix

/-! ## The text check of a module -/

/-- Whether something in the text of a script looks like a call, but is no call of a remote
procedure from its dot on. -/
def Misleads (script : Tree) : Prop :=
  ∃ s, s <:+ script.text ∧ startsCandidate s = true ∧
    ∀ p ∈ calls script, isRemoteCall p.2 = true → ¬ fromDot p.2 <+: s

/-- A module is taken for one that might hold calls exactly if one of its calls of remote
procedures is plain, or if something in it misleads. -/
theorem mayHoldCalls_iff {read : Script.Reader} (hread : read.Spec) {d : Dialect} {source : String}
    {script : Tree} (h : read d source.toList = some script) :
    mayHoldCalls source = true ↔
      (∃ p ∈ calls script, isRemoteCall p.2 = true ∧ isPlain p.2 = true) ∨ Misleads script := by
  rw [mayHoldCalls, anySuffix_iff, Misleads, hread.text h]
  constructor
  · rintro ⟨s, hs, hcandidate⟩
    -- Either a call of a remote procedure starts at that dot, or the text misleads.
    by_cases hdot : ∃ p ∈ calls script, isRemoteCall p.2 = true ∧ fromDot p.2 <+: s
    · obtain ⟨p, hp, hremote, more, rfl⟩ := hdot
      obtain ⟨ts, hts, hlayout, -⟩ := call_of_mem_calls hread h hp
      refine .inl ⟨p, hp, hremote, ?_⟩
      rw [hts] at hremote hlayout hcandidate ⊢
      rwa [startsCandidate_fromDot hlayout hremote] at hcandidate
    · refine .inr ⟨s, hs, hcandidate, fun p hp hremote hstart => ?_⟩
      exact hdot ⟨p, hp, hremote, hstart⟩
  · rintro (⟨p, hp, hremote, hplain⟩ | ⟨s, hs, hcandidate, -⟩)
    · obtain ⟨ts, hts, hlayout, before, after, htext⟩ := call_of_mem_calls hread h hp
      rw [hts] at hremote hlayout hplain htext
      obtain ⟨start, hstart⟩ := fromDot_suffix_text ts
      refine ⟨fromDot (.node .call ts) ++ after, ⟨before ++ start, ?_⟩, ?_⟩
      · rw [← htext, ← hstart]
        simp
      · rwa [startsCandidate_fromDot hlayout hremote]
    · exact ⟨s, hs, hcandidate⟩

/-- A module that has calls to stamp goes unnoticed exactly if none of its calls of remote
procedures is plain and nothing in it misleads. -/
theorem unnoticed_iff {read : Script.Reader} (hread : read.Spec) {d : Dialect} {source : String}
    {script : Tree} (h : read d source.toList = some script) (record : UInt32 → String) :
    plan record script ≠ [] ∧ mayHoldCalls source = false ↔
      plan record script ≠ [] ∧
        (∀ p ∈ calls script, isRemoteCall p.2 = true → isPlain p.2 = false) ∧ ¬ Misleads script := by
  rw [← Bool.not_eq_true, mayHoldCalls_iff hread h, not_or]
  refine and_congr_right fun _ => and_congr_left fun _ => ?_
  simp only [not_exists, not_and, Bool.not_eq_true]

/-- A comment behind the name of the method hides a call that would be stamped. -/
theorem unnoticed_comment : ∃ script, parse? .plain "a.b.query/* c */();".toList = some script ∧
    plan (fun _ => "\x7b\x7d") script ≠ [] ∧ mayHoldCalls "a.b.query/* c */();" = false ∧
    ∀ p ∈ calls script, isRemoteCall p.2 = true → isPlain p.2 = false := by
  have hplan : (parse? .plain "a.b.query/* c */();".toList).any fun script =>
      !(plan (fun _ => "\x7b\x7d") script).isEmpty := by
    decide +kernel
  obtain ⟨script, hscript, hstamps⟩ := Option.any_eq_true .. |>.mp hplan
  have hne : plan (fun _ => "\x7b\x7d") script ≠ [] := by simpa using hstamps
  have hcheck : mayHoldCalls "a.b.query/* c */();" = false := by decide +kernel
  exact ⟨script, hscript, hne, hcheck, ((unnoticed_iff spec_parse? hscript _).mp ⟨hne, hcheck⟩).2.1⟩

end Crossing.Stamp
