import Crossing.Proofs.Report.Printed
import Crossing.Proofs.Report.Ranking

/-!
# The report in colour

Colour changes nothing but colour (`uncoloured_console`): without its escape sequences the report in
colour is the plain one, if no text of a call has an escape character. Each part of a line is
painted by itself and after it was padded, so the sequences of one part are deleted without a look
at the others (`uncoloured_written`).
-/

namespace Crossing.Report

open Text

/-! ### Deleting escape sequences -/

/-- Whether a character may stand between the bracket of an escape sequence and its `m`. -/
def isParameter (c : Char) : Bool :=
  c.isDigit || c == ';'

/-- The text behind the escape sequence that it starts with, if it starts with a whole one. -/
def afterSequence? (s : List Char) : Option (List Char) :=
  (after? ['\x1b', '['] s).bind fun rest => after? ['m'] (rest.dropWhile isParameter)

/-- A sequence takes something of the text. -/
theorem length_lt_of_afterSequence? {s rest : List Char} (h : afterSequence? s = some rest) :
    rest.length < s.length := by
  obtain ⟨t, hstart, hend⟩ := Option.bind_eq_some_iff.mp h
  have hlength := congrArg List.length (eq_append_of_after? hstart)
  have hlast := congrArg List.length (eq_append_of_after? hend)
  have hparameters := (List.dropWhile_suffix (l := t) isParameter).length_le
  simp only [List.length_append, List.length_cons, List.length_nil] at hlength hlast
  omega

/-- The text without its escape sequences. -/
def uncoloured (s : List Char) : List Char :=
  match _h : afterSequence? s with
  | some rest => uncoloured rest
  | none =>
    match s with
    | [] => []
    | c :: rest => c :: uncoloured rest
termination_by s.length
decreasing_by
  · exact length_lt_of_afterSequence? _h
  · exact Nat.lt_succ_self _

/-- A sequence goes. -/
theorem uncoloured_sequence (code : Nat) (rest : List Char) :
    uncoloured (sequence code ++ rest) = uncoloured rest := by
  have hdigits : ∀ c ∈ Decimal.ofNat code, isParameter c = true := fun c hc => by
    rw [isParameter, Decimal.isDigit_of_mem_ofNat hc, Bool.true_or]
  have hafter : afterSequence? (sequence code ++ rest) = some rest := by
    have hparts : sequence code ++ rest =
        ['\x1b', '['] ++ (Decimal.ofNat code ++ 'm' :: rest) := by simp [sequence]
    rw [afterSequence?, hparts, after?_append, Option.bind_some,
      List.dropWhile_append_of_pos hdigits]
    rfl
  rw [uncoloured]
  split
  · next heq => rw [hafter] at heq; rw [Option.some.inj heq]
  · next heq => rw [hafter] at heq; contradiction

/-- A character that starts no sequence stays. -/
theorem uncoloured_cons {c : Char} (h : c ≠ '\x1b') (rest : List Char) :
    uncoloured (c :: rest) = c :: uncoloured rest := by
  have hnone : afterSequence? (c :: rest) = none := by
    rw [afterSequence?, after?, if_neg (Ne.symm h), Option.bind_none]
  rw [uncoloured]
  split
  · next heq => rw [hnone] at heq; contradiction
  · rfl

/-- Text without escape characters stays. -/
theorem uncoloured_append {s : List Char} (h : '\x1b' ∉ s) (rest : List Char) :
    uncoloured (s ++ rest) = s ++ uncoloured rest := by
  induction s with
  | nil => rfl
  | cons c s ih =>
    rw [List.mem_cons, not_or] at h
    rw [List.cons_append, uncoloured_cons (Ne.symm h.1), ih h.2, List.cons_append]

/-! ### Lines in colour -/

/-- A line whose text has no escape characters. -/
def Line.EscapeFree (line : Line) : Prop :=
  ∀ s ∈ line, '\x1b' ∉ s.text

/-- A clean line has no escape in it. -/
theorem Line.Clean.escapeFree {line : Line} (h : line.Clean) : line.EscapeFree :=
  fun s hs => (h s hs).1

/-- A part in colour without its sequences is the plain part. -/
theorem uncoloured_written {s : Span} (h : '\x1b' ∉ s.text) (rest : List Char) :
    uncoloured (s.written true ++ rest) = s.written false ++ uncoloured rest := by
  change uncoloured (s.paint ++ rest) = s.text ++ uncoloured rest
  unfold Span.paint
  split
  · rw [afterResets_of_not_mem h, List.append_assoc, List.append_assoc, uncoloured_sequence,
      uncoloured_append h, reset, uncoloured_sequence]
  · exact uncoloured_append h rest

/-- A line in colour without its sequences is the plain line. -/
theorem uncoloured_writtenLine {line : Line} (h : line.EscapeFree) (rest : List Char) :
    uncoloured (line.written true ++ rest) = line.written false ++ uncoloured rest := by
  unfold Line.written
  induction line with
  | nil => rfl
  | cons s line ih =>
    rw [List.flatMap_cons, List.flatMap_cons, List.append_assoc,
      uncoloured_written (h s List.mem_cons_self), ih fun t ht => h t (List.mem_cons_of_mem s ht),
      List.append_assoc]

/-- Lines in colour without their sequences are the plain lines. -/
theorem uncoloured_write {lines : List Line} (h : ∀ line ∈ lines, line.EscapeFree) :
    uncoloured (write true lines).toList = (write false lines).toList := by
  rw [write_eq, write_eq]
  induction lines with
  | nil => rw [List.flatMap_nil, uncoloured]; rfl
  | cons line lines ih =>
    rw [List.forall_mem_cons] at h
    rw [List.flatMap_cons, List.flatMap_cons, List.append_assoc, uncoloured_writtenLine h.1,
      List.singleton_append, uncoloured_cons (by decide), ih h.2, List.append_assoc,
      List.singleton_append]

/-! ### The report -/

/-- A written number has no escape in it. -/
theorem escape_not_mem_number (n : Nat) : '\x1b' ∉ (number n).toList := by
  rw [toList_number]
  exact (clean_ofNat n).1

/-- The expression of a procedure has no escape in it if its path and its method have none. -/
theorem escape_not_mem_expression {p : Procedure} (hpath : '\x1b' ∉ p.path.toList)
    (hmethod : '\x1b' ∉ p.method.toList) : '\x1b' ∉ p.expression.toList := by
  unfold Procedure.expression
  split <;> simp [hpath, hmethod]

/-- The name of a way to call has no escape in it. -/
theorem escape_not_mem_communication (c : Communication) :
    '\x1b' ∉ (communicationSpan c).text := by
  cases c <;> decide

/-- The line of a file has no escape characters but those of the file. -/
theorem escapeFree_fileLine {f : FileCalls} (h : '\x1b' ∉ f.file.toList) :
    (fileLine f).EscapeFree := by
  have hname := (clean_words (isWording_name f.boundary)).1
  simp [Line.EscapeFree, fileLine, Span.plain, Span.styled, padLeft, escape_not_mem_number, h,
    hname]

/-- The line of a group of calls has no escape characters but those of its procedure. -/
theorem escapeFree_repeatedLine {r : Repeated} (hpath : '\x1b' ∉ r.procedure.path.toList)
    (hmethod : '\x1b' ∉ r.procedure.method.toList) : (repeatedLine r).EscapeFree := by
  have hexpression := escape_not_mem_expression hpath hmethod
  have htimes : '\x1b' ∉ (if r.count > 1 then " (x" ++ number r.count ++ ")" else "").toList := by
    split <;> simp [escape_not_mem_number]
  simp [Line.EscapeFree, repeatedLine, expressionSpan, Span.plain, Span.styled,
    escape_not_mem_communication, hexpression, htimes]

/-- The line of a call has no escape characters but those of its procedure. -/
theorem escapeFree_callLine {c : Call} (hpath : '\x1b' ∉ c.procedure.path.toList)
    (hmethod : '\x1b' ∉ c.procedure.method.toList) : (callLine c).EscapeFree := by
  have hexpression := escape_not_mem_expression hpath hmethod
  simp [Line.EscapeFree, callLine, expressionSpan, Span.plain, Span.styled, padRight,
    escape_not_mem_number, escape_not_mem_communication, hexpression]

/-- The lines of a file have no escape characters but those of its calls. -/
theorem escapeFree_fileLines (view : View) {f : FileCalls} (hfile : '\x1b' ∉ f.file.toList)
    (hcalls : ∀ c ∈ f.calls, c.Avoids '\x1b') : ∀ line ∈ fileLines view f, line.EscapeFree := by
  have hbyLine : ∀ c ∈ f.byLine, c.Avoids '\x1b' := fun c hc =>
    hcalls c (List.mem_mergeSort.mp hc)
  rw [fileLines, List.forall_mem_cons]
  refine ⟨escapeFree_fileLine hfile, ?_⟩
  split
  · rw [List.forall_mem_map]
    intro r hr
    obtain ⟨c, hc, hprocedure⟩ := exists_of_mem_collapse hr
    obtain ⟨hpath, hmethod, -⟩ := hbyLine c hc
    exact escapeFree_repeatedLine (hprocedure ▸ hpath) (hprocedure ▸ hmethod)
  · split
    · rw [List.forall_mem_map]
      exact fun c hc => escapeFree_callLine (hbyLine c hc).1 (hbyLine c hc).2.1
    · exact fun line hline => absurd hline List.not_mem_nil

/-- The lines of the files have no escape characters but those of the calls. -/
theorem escapeFree_rankingLines {view : View} {files : List FileCalls}
    (h : ∀ f ∈ files, ∀ line ∈ fileLines view f, line.EscapeFree) :
    ∀ line ∈ rankingLines view files, line.EscapeFree := by
  unfold rankingLines
  extract_lets everything shown
  have hshown : ∀ f ∈ shown, f ∈ files := fun f hf => by
    unfold shown at hf
    split at hf
    · exact hf
    · exact List.mem_of_mem_take hf
  have hheading : '\x1b' ∉ (if everything then "All hotspots:" else "Top hotspots:").toList := by
    split <;> decide
  rw [List.forall_mem_append, List.forall_mem_append]
  refine ⟨⟨?_, fun line hline => ?_⟩, ?_⟩
  · simp [Line.EscapeFree, Span.styled, hheading]
  · obtain ⟨f, hf, hline⟩ := List.mem_flatMap.mp hline
    exact h f (hshown f hf) line hline
  · split
    · simp [Line.EscapeFree, Span.plain, escape_not_mem_number]
    · exact fun line hline => absurd hline List.not_mem_nil

/-- The report has no escape characters but those of the calls. -/
theorem escapeFree_consoleLines {a : Analysis} (h : ∀ c ∈ a.calls, c.Avoids '\x1b') (view : View) :
    ∀ line ∈ consoleLines view a, line.EscapeFree := by
  have hfiles : ∀ f ∈ ranking a.calls, ∀ line ∈ fileLines view f, line.EscapeFree := fun f hf =>
    escapeFree_fileLines view (avoids_of_mem_ranking h hf).1 (avoids_of_mem_ranking h hf).2
  rw [consoleLines, List.forall_mem_append]
  refine ⟨fun line hline => (clean_headLines a.calls line hline).escapeFree, ?_⟩
  split
  · exact fun line hline => absurd hline List.not_mem_nil
  · exact escapeFree_rankingLines hfiles

/-- A plain report has no escape characters but those of the calls. -/
theorem escape_not_mem_console {a : Analysis} (h : ∀ c ∈ a.calls, c.Avoids '\x1b') (view : View) :
    '\x1b' ∉ (console false view a).toList := by
  rw [console, write_eq]
  intro hmem
  obtain ⟨line, hline, hmem⟩ := List.mem_flatMap.mp hmem
  rcases List.mem_append.mp hmem with hmem | hmem
  · obtain ⟨s, hs, hmem⟩ := List.mem_flatMap.mp hmem
    exact escapeFree_consoleLines h view line hline s hs hmem
  · exact absurd hmem (by decide)

/-- The title of a report in colour is painted. -/
theorem escape_mem_console (view : View) (a : Analysis) :
    '\x1b' ∈ (console true view a).toList := by
  have htitle : [Span.styled .bold title] ∈ consoleLines view a := by
    simp [consoleLines, headLines]
  rw [console, write_eq, List.mem_flatMap]
  exact ⟨_, htitle, List.mem_append_left _ (List.mem_flatMap.mpr
    ⟨_, List.mem_singleton_self _, List.mem_append_left _ List.mem_cons_self⟩)⟩

/-- Deleting the escape sequences of the report in colour gives the plain report, if no text of a
call has an escape character. The plain report has no such character, and the one in colour has. -/
theorem uncoloured_console {a : Analysis} (h : ∀ c ∈ a.calls, c.Avoids '\x1b') (view : View) :
    uncoloured (console true view a).toList = (console false view a).toList ∧
      '\x1b' ∉ (console false view a).toList ∧ '\x1b' ∈ (console true view a).toList :=
  ⟨uncoloured_write (escapeFree_consoleLines h view), escape_not_mem_console h view,
    escape_mem_console view a⟩

/-- Calls of all sorts from all labels, with a hook, a call that is repeated, and brackets and
letters as in an escape sequence. -/
def motleyCalls : List Call :=
  [⟨⟨"a", "useQuery"⟩, .query, "./a.tsx", 12345, .client⟩,
    ⟨⟨"a", "useQuery"⟩, .query, "./a.tsx", 2, .client⟩,
    ⟨⟨Procedure.rootPath, "[31m"⟩, .mutation, "./b\n.ts", 1, .component⟩,
    ⟨⟨"s", "subscription"⟩, .subscription, "./c.ts", 1, .edge⟩,
    ⟨⟨"u", "useUtils"⟩, .utilities, "./d.ts", 1, .unknown⟩,
    ⟨⟨"", ""⟩, .unknown, "", 0, .unknown⟩,
    ⟨⟨"m", "m"⟩, .query, "m", 1, .unknown⟩]

/-- They are reported alike in colour and without, here with the calls of each file by procedure. -/
theorem uncoloured_console_motley :
    (∀ c ∈ motleyCalls, c.Avoids '\x1b') ∧
      uncoloured (console true ⟨false, true, true⟩ ⟨motleyCalls, 6⟩).toList =
        (console false ⟨false, true, true⟩ ⟨motleyCalls, 6⟩).toList ∧
      console true ⟨false, true, true⟩ ⟨motleyCalls, 6⟩ ≠
        console false ⟨false, true, true⟩ ⟨motleyCalls, 6⟩ := by
  have havoids : ∀ c ∈ motleyCalls, c.Avoids '\x1b' := by
    unfold Call.Avoids
    decide
  obtain ⟨hsame, hplain, hcolour⟩ :=
    @uncoloured_console ⟨motleyCalls, 6⟩ havoids ⟨false, true, true⟩
  exact ⟨havoids, hsame, fun heq => hplain (heq ▸ hcolour)⟩

end Crossing.Report
