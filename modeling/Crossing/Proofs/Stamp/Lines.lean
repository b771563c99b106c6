import Crossing.Proofs.Stamp.Additive
import Crossing.Proofs.Stamp.Course

/-!
# Stamping keeps lines

What edits do to the lines of a text when they take no line feed away and bring none in: each line of
the new text is the line of the old one with the edits on that line carried out in it
(`Edit.Rewrites.lines`). The edits of a pass are of this kind, so a pass leaves every line and every
call where it was, and the lines that it gives for the stamped calls are those of these calls in the
new text (`Stamper.code_keepsLines`).
-/

namespace Crossing

namespace Edit

open Text List

/-- Whether an edit, carried out in a text that starts at an offset, takes none of a character
away. -/
def Spares (c : Char) (offset : Nat) (s : List Char) (e : Edit) : Prop :=
  ∀ before old after, s = before ++ old ++ after → e.start = offset + Utf8.width before →
    e.stop = e.start + Utf8.width old → c ∉ old

section Spares

variable {c : Char} {offset : Nat} {s t : List Char} {e : Edit}

/-- An edit that spares a character in two texts spares it in the first. -/
theorem Spares.left (h : Spares c offset (s ++ t) e) : Spares c offset s e := by
  intro before old after hs hstart hstop
  exact h before old (after ++ t) (by rw [hs]; simp) hstart hstop

/-- An edit that spares a character in two texts spares it in the second, which starts where the first
one ends. -/
theorem Spares.right (h : Spares c offset (s ++ t) e) : Spares c (offset + Utf8.width s) t e := by
  intro before old after ht hstart hstop
  refine h (s ++ before) old after (by rw [ht]; simp) ?_ hstop
  rw [hstart, Utf8.width_append, Nat.add_assoc]

/-- An insertion takes nothing away. -/
theorem spares_of_insertion (h : e.start = e.stop) : Spares c offset s e := by
  intro before old after hs hstart hstop
  rw [Utf8.eq_nil_of_width (show Utf8.width old = 0 by omega)]
  exact not_mem_nil

/-- What an edit takes away is told by its range. -/
theorem spares_of_range (before old after : List Char) (hs : s = before ++ old ++ after)
    (hstart : e.start = offset + Utf8.width before) (hstop : e.stop = e.start + Utf8.width old)
    (hold : c ∉ old) : Spares c offset s e := by
  intro before' old' after' hs' hstart' hstop'
  -- The offsets part the text at the same places.
  have hfront := splitAt?_append before (old ++ after)
  have hback := splitAt?_append old after
  rw [← append_assoc, ← hs, hs', append_assoc, show Utf8.width before = Utf8.width before' by omega,
    splitAt?_append] at hfront
  obtain ⟨-, hrest⟩ := Prod.mk.inj (Option.some.inj hfront)
  rw [← hrest, show Utf8.width old = Utf8.width old' by omega, splitAt?_append] at hback
  obtain ⟨hsame, -⟩ := Prod.mk.inj (Option.some.inj hback)
  rwa [hsame]

end Spares

namespace Rewrites

variable {c : Char} {offset : Nat} {s s' : List Char} {es : List Edit}

/-- If edits take none of a character away, the new text has those of the old one and those that the
edits bring in. -/
theorem count_eq (h : Rewrites offset s s' es) (hspares : ∀ e ∈ es, e.Spares c offset s) :
    s'.count c = s.count c + (es.flatMap (·.text.toList)).count c := by
  induction h with
  | keep offset s => rfl
  | edit offset old new =>
    have hold : c ∉ old := hspares _ (mem_singleton.mpr rfl) [] old [] (by simp) rfl rfl
    simp [count_eq_zero.mpr hold]
  | append hs ht hapart ihs iht =>
    have hleft := ihs fun e he => (hspares e (mem_append_left _ he)).left
    have hright := iht fun e he => (hspares e (mem_append_right _ he)).right
    rw [count_append, count_append, flatMap_append, count_append, hleft, hright]
    omega
  | perm hs hperm ih =>
    rw [ih fun e he => hspares e (hperm.mem_iff.mp he), (hperm.flatMap_right _).count_eq]

/-- Edits that bring none of a character into a text without it leave it so. -/
theorem not_mem (h : Rewrites offset s s' es) (hspares : ∀ e ∈ es, e.Spares c offset s)
    (htext : ∀ e ∈ es, c ∉ e.text.toList) (hs : c ∉ s) : c ∉ s' := by
  have hnone : c ∉ es.flatMap (·.text.toList) := fun h => by
    obtain ⟨e, he, hmem⟩ := mem_flatMap.mp h
    exact htext e he hmem
  rw [← count_eq_zero, h.count_eq hspares, count_eq_zero.mpr hnone, count_eq_zero.mpr hs]

/-- A character of two texts that follow one another stands in the second one or in the first. -/
theorem exists_of_append_eq_append_cons {s t a b : List Char} (h : s ++ t = a ++ c :: b) :
    (∃ a₂, a = s ++ a₂ ∧ t = a₂ ++ c :: b) ∨ ∃ b₁, s = a ++ c :: b₁ ∧ b = b₁ ++ t := by
  rcases append_eq_append_iff.mp h with ⟨a₂, ha, ht⟩ | ⟨rest, hrest, hb⟩
  · exact .inl ⟨a₂, ha, ht⟩
  · cases rest with
    | nil => exact .inl ⟨[], by simpa using hrest.symm, by simpa using hb.symm⟩
    | cons x b₁ =>
      obtain ⟨rfl, rfl⟩ := cons.inj hb
      exact .inr ⟨b₁, hrest, rfl⟩

/-- The edits of a text start no later than the text ends. -/
theorem filter_of_le (h : Rewrites offset s s' es) {n : Nat} (hn : offset + Utf8.width s ≤ n) :
    es.filter (·.start ≤ n) = es ∧ es.filter (n < ·.start) = [] := by
  have hbounds := h.bounds
  refine ⟨filter_eq_self.mpr fun e he => ?_, filter_eq_nil_iff.mpr fun e he => ?_⟩ <;>
  · have := hbounds e he
    simp only [decide_eq_true_eq]
    omega

/-- The edits of a text start no earlier than the text. -/
theorem filter_of_lt (h : Rewrites offset s s' es) {n : Nat} (hn : n < offset) :
    es.filter (·.start ≤ n) = [] ∧ es.filter (n < ·.start) = es := by
  have hbounds := h.bounds
  refine ⟨filter_eq_nil_iff.mpr fun e he => ?_, filter_eq_self.mpr fun e he => ?_⟩ <;>
  · have := hbounds e he
    simp only [decide_eq_true_eq]
    omega

/-- Edits that take none of a character away happen before it or behind it. -/
theorem cut (h : Rewrites offset s s' es) (hspares : ∀ e ∈ es, e.Spares c offset s)
    {a b : List Char} (hs : s = a ++ c :: b) : ∃ a' b', s' = a' ++ c :: b' ∧
      Rewrites offset a a' (es.filter (·.start ≤ offset + Utf8.width a)) ∧
      Rewrites (offset + Utf8.width (a ++ [c])) b b'
        (es.filter (offset + Utf8.width a < ·.start)) := by
  have hwidth (a : List Char) : Utf8.width (a ++ [c]) = Utf8.width a + c.utf8Size := by
    rw [Utf8.width_append]
    rfl
  induction h generalizing a b with
  | keep offset s => exact ⟨a, b, hs, .keep _ _, .keep _ _⟩
  | edit offset old new =>
    have hold : c ∉ old := hspares _ (mem_singleton.mpr rfl) [] old [] (by simp) rfl rfl
    exact absurd (by simp [hs]) hold
  | @append offset s s' t t' es fs hfirst hsecond hapart ihs iht =>
    rcases exists_of_append_eq_append_cons hs with ⟨a₂, rfl, ht⟩ | ⟨b₁, rfl, rfl⟩
    · -- The edits of the first text all happen before the character.
      obtain ⟨a', b', rfl, hbefore, hbehind⟩ :=
        iht (fun e he => (hspares e (mem_append_right _ he)).right) ht
      have hend : offset + Utf8.width (s ++ a₂) = offset + Utf8.width s + Utf8.width a₂ := by
        rw [Utf8.width_append, Nat.add_assoc]
      have hnext : offset + Utf8.width (s ++ a₂ ++ [c]) =
          offset + Utf8.width s + Utf8.width (a₂ ++ [c]) := by
        rw [append_assoc, Utf8.width_append, Nat.add_assoc]
      obtain ⟨hall, hnone⟩ := hfirst.filter_of_le (Nat.le_add_right _ (Utf8.width a₂))
      refine ⟨s' ++ a', b', by simp, ?_, ?_⟩
      · rw [filter_append, hend, hall]
        exact .append hfirst hbefore fun e he f hf => hapart e he f (mem_of_mem_filter hf)
      · rw [filter_append, hend, hnext, hnone]
        exact hbehind
    · -- The edits of the second text all happen behind the character.
      obtain ⟨a', b', rfl, hbefore, hbehind⟩ :=
        ihs (fun e he => (hspares e (mem_append_left _ he)).left) rfl
      have hwhole : Utf8.width (a ++ c :: b₁) = Utf8.width (a ++ [c]) + Utf8.width b₁ := by
        rw [← Utf8.width_append]
        simp
      have hpos := c.utf8Size_pos
      have hlater : offset + Utf8.width a < offset + Utf8.width (a ++ c :: b₁) := by
        rw [hwhole, hwidth]
        omega
      obtain ⟨hnone, hall⟩ := hsecond.filter_of_lt hlater
      refine ⟨a', b' ++ t', by simp, ?_, ?_⟩
      · rw [filter_append, hnone, append_nil]
        exact hbefore
      · rw [filter_append, hall]
        rw [hwhole, ← Nat.add_assoc] at hsecond
        exact .append hbehind hsecond fun e he f hf => hapart e (mem_of_mem_filter he) f hf
  | perm hrewrites hperm ih =>
    obtain ⟨a', b', hs', hbefore, hbehind⟩ :=
      ih (fun e he => hspares e (hperm.mem_iff.mp he)) hs
    exact ⟨a', b', hs', hbefore.perm (hperm.filter _), hbehind.perm (hperm.filter _)⟩

end Rewrites

/-- Lines that follow one another from an offset on, with the offsets where they start. -/
def placedLines : (offset : Nat) → List (List Char) → List (Nat × List Char)
  | _, [] => []
  | offset, line :: rest =>
    (offset, line) :: placedLines (offset + Utf8.width (line ++ ['\n'])) rest

/-- The edits that start on a line, its end included. -/
def onLine (edits : List Edit) (line : Nat × List Char) : List Edit :=
  edits.filter fun e => line.1 ≤ e.start ∧ e.start ≤ line.1 + Utf8.width line.2

/-- Whether edits make a new text of one line by line: there are as many line feeds as before, and
each line of the new text is that of the old one with the edits on it carried out. -/
structure KeepsLines (edits : List Edit) (old new : List Char) : Prop where
  newlines : new.count '\n' = old.count '\n'
  lines : Forall₂ (fun line line' => Rewrites line.1 line.2 line' (onLine edits line))
    (placedLines 0 (old.splitOn '\n')) (new.splitOn '\n')

/-- Of the edits from the start of a line on, those up to its end are on it. -/
theorem filter_onLine (edits : List Edit) (offset : Nat) (line : List Char) :
    (edits.filter (offset ≤ ·.start)).filter (·.start ≤ offset + Utf8.width line) =
      onLine edits (offset, line) := by
  rw [filter_filter, onLine]
  refine filter_congr fun e _ => ?_
  rw [Bool.and_comm, ← Bool.decide_and]

/-- The other ones start with the next line or later. -/
theorem filter_nextLine (edits : List Edit) (offset : Nat) (line : List Char) :
    (edits.filter (offset ≤ ·.start)).filter (offset + Utf8.width line < ·.start) =
      edits.filter (offset + Utf8.width (line ++ ['\n']) ≤ ·.start) := by
  have hwidth : Utf8.width (line ++ ['\n']) = Utf8.width line + 1 := by
    rw [Utf8.width_append]
    rfl
  rw [filter_filter]
  refine filter_congr fun e _ => ?_
  rw [← Bool.decide_and, hwidth]
  exact decide_eq_decide.mpr (by omega)

/-- The lines of a text are rewritten by the edits on them, of those from its start on. -/
theorem Rewrites.lines {edits : List Edit} {offset : Nat} {s s' : List Char}
    (h : Rewrites offset s s' (edits.filter (offset ≤ ·.start)))
    (hspares : ∀ e ∈ edits.filter (offset ≤ ·.start), e.Spares '\n' offset s)
    (htext : ∀ e ∈ edits, '\n' ∉ e.text.toList) :
    Forall₂ (fun line line' => Rewrites line.1 line.2 line' (onLine edits line))
      (placedLines offset (s.splitOn '\n')) (s'.splitOn '\n') := by
  induction hlines : s.count '\n' generalizing offset s s' with
  | zero =>
    have hs : '\n' ∉ s := count_eq_zero.mp hlines
    have hs' := h.not_mem hspares (fun e he => htext e (mem_of_mem_filter he)) hs
    have hon := (h.filter_of_le (Nat.le_refl _)).1
    rw [filter_onLine] at hon
    rw [← hon] at h
    rw [splitOn_eq_singleton hs, splitOn_eq_singleton hs']
    exact .cons h .nil
  | succ n ih =>
    have hmem : '\n' ∈ s := count_pos_iff.mp (by omega)
    obtain ⟨a, b, rfl, ha⟩ := eq_append_cons_of_mem hmem
    obtain ⟨a', b', rfl, hfirst, hrest⟩ := h.cut hspares rfl
    have hconcat : a ++ '\n' :: b = (a ++ ['\n']) ++ b := by simp
    have ha' := hfirst.not_mem (fun e he => (hspares e (mem_of_mem_filter he)).left)
      (fun e he => htext e (mem_of_mem_filter (mem_of_mem_filter he))) ha
    rw [filter_onLine] at hfirst
    rw [filter_nextLine] at hrest
    rw [splitOn_append_cons_self_of_not_mem ha, splitOn_append_cons_self_of_not_mem ha']
    refine .cons hfirst (ih hrest (fun e he => ?_) ?_)
    · rw [← filter_nextLine] at he
      rw [hconcat] at hspares
      exact (hspares e (mem_of_mem_filter he)).right
    · rw [count_append, count_cons_self, count_eq_zero.mpr ha] at hlines
      omega

/-- Edits that take no line feed away keep the lines of a text if they make one with as many line
feeds. -/
theorem Rewrites.keepsLines {edits : List Edit} {s s' : List Char} (h : Rewrites 0 s s' edits)
    (hspares : ∀ e ∈ edits, e.Spares '\n' 0 s) (hcount : s'.count '\n' = s.count '\n') :
    KeepsLines edits s s' := by
  -- What the edits bring in counts for the new text alone.
  have hnone : (edits.flatMap (·.text.toList)).count '\n' = 0 := by
    have := h.count_eq hspares
    omega
  have htext : ∀ e ∈ edits, '\n' ∉ e.text.toList := fun e he hmem =>
    count_eq_zero.mp hnone (mem_flatMap.mpr ⟨e, he, hmem⟩)
  have hall : edits.filter (0 ≤ ·.start) = edits :=
    filter_eq_self.mpr fun e _ => decide_eq_true (Nat.zero_le _)
  rw [← hall] at h hspares
  exact ⟨hcount, h.lines hspares htext⟩

end Edit

namespace Stamp

open Text Script Script.Tree

/-! ## The lines of the stamped calls -/

/-- A call takes a record if it takes a blank in its place. -/
theorem takesRecord_iff_blank (call : Script.Tree) :
    TakesRecord call ↔ isRemoteCall call = true ∧ (addRecord? blank call).isSome = true := by
  refine ⟨?_, fun h => ⟨h.1, blank, h.2⟩⟩
  rintro ⟨hremote, r, h⟩
  obtain ⟨added, hadded⟩ := Option.isSome_iff_exists.mp h
  obtain ⟨ts, _, _, _, _, rfl, -, -, -⟩ := exists_of_addRecord? hadded
  exact (takesRecord_iff blank ts).mp ⟨hremote, r, h⟩

instance : DecidablePred TakesRecord := fun call =>
  decidable_of_iff _ (takesRecord_iff_blank call).symm

/-- The lines of a plan are those of the calls that take a record. -/
theorem lines_plan (record : UInt32 → String) (script : Script.Tree) :
    (plan record script).map (·.line) =
      ((calls script).filter (TakesRecord ·.2)).map (·.1.lineNumber) := by
  rw [plan, List.map_filterMap, ← List.filterMap_eq_map, List.filterMap_filter]
  refine List.filterMap_congr fun p hp => ?_
  obtain ⟨spot, call⟩ := p
  obtain ⟨⟨ts, hts⟩, -, -⟩ := call_of_mem_callsAt (L := layout) hp
  dsimp only at hts ⊢
  subst hts
  simp only [takesRecord_iff blank ts, ← isSome_edits? spot ts (record spot.lineNumber)]
  by_cases hremote : isRemoteCall (.node .call ts) = true
  · rw [if_pos hremote]
    cases edits? spot (.node .call ts) (record spot.lineNumber) <;> simp [hremote]
  · rw [if_neg hremote]
    simp [hremote]

/-- The name `undefined` is on one line. -/
theorem newline_not_mem_undefined {read : Script.Reader} (hread : read.Spells) {d : Dialect}
    {s : List Char} {script : Script.Tree} (hreads : read d s = some script) :
    ∀ name, (Leaf.undefined, name) ∈ script.tokens → '\n' ∉ name := by
  intro name hname
  rw [hread.undefined hreads name hname]
  decide

/-- An edit that fills a name takes no line feed away. -/
theorem FillsUndefined.spares {script : Script.Tree} {e : Edit}
    (hname : ∀ name, (Leaf.undefined, name) ∈ script.tokens → '\n' ∉ name)
    (h : FillsUndefined .start script.tokens e) : e.Spares '\n' 0 script.text := by
  obtain ⟨front, name, behind, htokens, hstart, hstop⟩ := h
  refine Edit.spares_of_range (front.flatMap Prod.snd) name (behind.flatMap Prod.snd) ?_ hstart hstop
    (hname name (by simp [htokens]))
  rw [← flatMap_tokens, htokens]
  simp

/-- Calls that stay on their lines give the same lines, those that take a record as any. -/
theorem lines_zip {ps qs : List (Spot × Script.Tree)} {f : Spot × Script.Tree → Script.Tree}
    (h : qs.map (fun q => (q.1.line, q.2)) = ps.map fun p => (p.1.line, f p)) :
    (ps.filter (TakesRecord ·.2)).map (·.1.lineNumber) =
      ((ps.zip qs).filter (TakesRecord ·.1.2)).map (·.2.1.lineNumber) := by
  induction ps generalizing qs with
  | nil => rfl
  | cons p ps ih =>
    cases qs with
    | nil => simp at h
    | cons q qs =>
      obtain ⟨hhead, htail⟩ := List.cons.inj h
      have hline : q.1.lineNumber = p.1.lineNumber := congrArg UInt32.ofNat (Prod.mk.inj hhead).1
      rw [List.zip_cons_cons, List.filter_cons, List.filter_cons]
      dsimp only
      split
      · rw [List.map_cons, List.map_cons, ih htail, hline]
      · exact ih htail

/-- The stamped calls of a module on their lines. -/
structure InPlace (read : Script.Reader) (file source : String) (stamped : Stamped)
    (script : Script.Tree) : Prop where
  reads : read (.ofFile file) source.toList = some script
  /-- The new text is that of the stamped script. -/
  text : (stampedModule file source script).text = stamped.code.toList
  /-- Its calls are the stamped calls of the script, each on the line that it had. -/
  places : (calls (stampedModule file source script)).map (fun q => (q.1.line, q.2)) =
    (calls script).map fun p => (p.1.line, Stamp.stamped (records file source) p.1 p.2)
  /-- The lines that are given are those in the new text of the calls that take a record. -/
  lines : stamped.lines = (((calls script).zip (calls (stampedModule file source script))).filter
    (TakesRecord ·.1.2)).map (·.2.1.lineNumber)
  /-- These are the calls that are read in the new text, if the stamped script is read back. -/
  again : ReadsBack read file source →
    read (.ofFile file) stamped.code.toList = some (stampedModule file source script)

namespace Stamper

variable {s : Stamper} {read : Script.Reader} {path : Path} {source : String}

/-- A stamped module is one whose planned stamps are carried out. -/
theorem carryOut_of_stampWith? {stamped : Stamped}
    (h : (s.stampWith? read path source).1 = .ok (some stamped)) : ∃ script,
    read (.ofFile (Path.display s.root path)) source.toList = some script ∧
      carryOut read (Path.display s.root path) source
        (plan (recordLiteral (Path.display s.root path)
          (Label.ofModule source ⟨Path.display s.root path⟩).side) script) = .ok stamped := by
  unfold stampWith? plan? at h
  cases hscript : read (.ofFile (Path.display s.root path)) source.toList with
  | none =>
    simp only [hscript] at h
    split at h <;> cases h
  | some script =>
    refine ⟨script, rfl, ?_⟩
    simp only [hscript] at h
    split at h
    · cases h
    · split at h
      · contradiction
      · cases h
      · next stamps hstamps =>
        cases hstamps
        split at h
        · cases h
        · next stamped' hcarry =>
          cases h
          exact hcarry

/-- A stamped module has the stamped calls of its script on their lines. -/
theorem inPlace_of_stampWith? (hread : read.Spells) {stamped : Stamped}
    (h : (s.stampWith? read path source).1 = .ok (some stamped)) :
    ∃ script, InPlace read (Path.display s.root path) source stamped script := by
  obtain ⟨script, hreads, hcarry⟩ := carryOut_of_stampWith? h
  rw [carryOut_plan hread.toSpec hreads rfl] at hcarry
  split at hcarry
  · next haccepts =>
    cases hcarry
    have hplaces := lines_calls_stamped (course_recordTree eq_newline_of_isFeed
      (Path.display s.root path) (Label.ofModule source ⟨Path.display s.root path⟩).side)
      (newline_not_mem_undefined hread hreads)
    refine ⟨script, hreads, by rw [String.toList_ofList], hplaces, ?_, fun hback => ?_⟩
    · rw [lines_plan]
      exact lines_zip hplaces
    · obtain ⟨again, hagain⟩ := Option.isSome_iff_exists.mp haccepts
      rw [String.toList_ofList, hagain, hback script hreads again hagain]
  · cases hcarry

/-- A pass leaves each line of a module where it is: the new module has as many line feeds, and each
of its lines is that of the old one with something inserted, or with the name `undefined` in the
place of options gone. So the lines that are given for the stamped calls are those of these calls in
the new module. -/
theorem code_keepsLines (hread : read.Spells) (s : Stamper) (path : Path) (source : String) :
    (∃ edits, Edit.KeepsLines edits source.toList (s.code read path source).toList ∧
      ∀ e ∈ edits, e.start = e.stop ∨
        ∃ script ∈ read (.ofFile (Path.display s.root path)) source.toList,
          FillsUndefined .start script.tokens e) ∧
    ∀ stamped, (s.stampWith? read path source).1 = .ok (some stamped) →
      ∃ script, InPlace read (Path.display s.root path) source stamped script := by
  refine ⟨?_, fun stamped h => inPlace_of_stampWith? hread h⟩
  by_cases hpass : s.StampsCall read path source
  · obtain ⟨stamped, hstamped⟩ := hpass
    obtain ⟨script, hplace⟩ := inPlace_of_stampWith? hread hstamped
    have hedits : ∀ e ∈ (plan (fun line => .ofList (records (Path.display s.root path) source
        line).text) script).flatMap (·.edits),
        e.start = e.stop ∨ FillsUndefined .start script.tokens e := by
      intro e he
      obtain ⟨stamp, hstamp, hmem⟩ := List.mem_flatMap.mp he
      obtain ⟨e', hedits, hfills⟩ := edit_of_mem_plan hstamp
      rw [hedits, List.mem_singleton] at hmem
      exact hmem ▸ hfills
    have hnewline := newline_not_mem_undefined hread hplace.reads
    refine ⟨_, ?_, fun e he => (hedits e he).imp_right fun h => ⟨script, hplace.reads, h⟩⟩
    rw [code_of_stampWith? hstamped, ← hplace.text, ← hread.text hplace.reads]
    refine (rewrites_plan _ (hread.layout hplace.reads)).keepsLines (fun e he => ?_)
      (count_newline_stamped (course_recordTree eq_newline_of_isFeed _ _) hnewline)
    exact (hedits e he).elim Edit.spares_of_insertion (FillsUndefined.spares hnewline)
  · -- A module without a stamped call stays as it is, which takes no edit.
    rw [code_of_not_stampsCall hpass]
    have hnone : ∀ e ∈ ([] : List Edit), e.Spares '\n' 0 source.toList :=
      fun e he => absurd he List.not_mem_nil
    exact ⟨[], (Edit.Rewrites.keep 0 source.toList).keepsLines hnone rfl,
      fun e he => absurd he List.not_mem_nil⟩

/-- An outcome with a value is a success. -/
theorem eq_ok_of_join {outcome : Except StampError (Option Stamped)} {stamped : Stamped}
    (h : outcome.toOption.join = some stamped) : outcome = .ok (some stamped) := by
  rcases outcome with e | _ | stamped'
  · contradiction
  · contradiction
  · cases h
    rfl

/-- A call that goes over two lines, the second of which gets longer, in a file whose name has a line
feed, a quote and a backslash. -/
theorem code_keepsLines_hostile : ∃ stamped,
    (stampWith? ⟨⟨"/r"⟩, false⟩ parse? ⟨"/r/\n\"\\.ts"⟩ "a.b.query(\n1, undefined)").1 =
      .ok (some stamped) ∧
    stamped.lines = [1] ∧ stamped.code ≠ "a.b.query(\n1, undefined)" ∧
    (∃ edits, Edit.KeepsLines edits "a.b.query(\n1, undefined)".toList stamped.code.toList ∧
      ∀ e ∈ edits, e.start = e.stop ∨
        ∃ script ∈ parse? .plain "a.b.query(\n1, undefined)".toList,
          FillsUndefined .start script.tokens e) ∧
    ∃ script, InPlace parse? "./\n\"\\.ts" "a.b.query(\n1, undefined)" stamped script := by
  have hpass : ((stampWith? ⟨⟨"/r"⟩, false⟩ parse? ⟨"/r/\n\"\\.ts"⟩
      "a.b.query(\n1, undefined)").1.toOption.join.map fun stamped =>
        (stamped.lines, decide (stamped.code = "a.b.query(\n1, undefined)"))) =
          some ([1], false) := by
    decide +kernel
  obtain ⟨stamped, hstamped, hsays⟩ := Option.map_eq_some_iff.mp hpass
  obtain ⟨hlines, hchanged⟩ := Prod.mk.inj hsays
  have hcode := eq_ok_of_join hstamped
  have hfile : Path.display ⟨"/r"⟩ ⟨"/r/\n\"\\.ts"⟩ = "./\n\"\\.ts" := by decide +kernel
  have hdialect : Dialect.ofFile "./\n\"\\.ts" = .plain := by decide +kernel
  obtain ⟨hkeeps, hplace⟩ := code_keepsLines spells_parse? ⟨⟨"/r"⟩, false⟩ ⟨"/r/\n\"\\.ts"⟩
    "a.b.query(\n1, undefined)"
  rw [code_of_stampWith? hcode] at hkeeps
  dsimp only at hkeeps hplace
  rw [hfile] at hkeeps hplace
  rw [hdialect] at hkeeps
  exact ⟨stamped, hcode, hlines, of_decide_eq_false hchanged, hkeeps, hplace stamped hcode⟩

end Stamper

end Stamp

end Crossing
