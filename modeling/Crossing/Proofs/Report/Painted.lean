import Crossing.Proofs.Text.Decimal
import Crossing.Proofs.Text.Segments
import Crossing.Report.Paint

/-!
# Painted text without its paint

Deleting the escape sequences of a painted text (`unpainted`) leaves the text, if it has no escape
character of its own (`unpainted_writtenLine`). The lines of a written text are the lines that were
written, painted or not, up to the first one that is not clean (`printedLines_write`).
-/

namespace Crossing.Report

open Text

/-- The text without its escape sequences, from inside one or from outside: what stands from an
escape character to the next `m` is left out. -/
def unpaintedFrom : (inside : Bool) → List Char → List Char
  | _, [] => []
  | true, c :: rest => unpaintedFrom (c != 'm') rest
  | false, c :: rest =>
    if c = '\x1b' then unpaintedFrom true rest else c :: unpaintedFrom false rest

/-- The text without its escape sequences. -/
def unpainted (s : List Char) : List Char :=
  unpaintedFrom false s

/-- Text without escape characters stays. -/
theorem unpainted_append {s : List Char} (h : '\x1b' ∉ s) (rest : List Char) :
    unpainted (s ++ rest) = s ++ unpainted rest := by
  induction s with
  | nil => rfl
  | cons c s ih =>
    rw [List.mem_cons, not_or] at h
    have hrest : unpaintedFrom false (s ++ rest) = s ++ unpainted rest := ih h.2
    rw [List.cons_append, unpainted, unpaintedFrom, if_neg (Ne.symm h.1), hrest, List.cons_append]

/-- A text without escapes stays as it is. -/
theorem unpainted_of_not_mem {s : List Char} (h : '\x1b' ∉ s) : unpainted s = s := by
  have happend := unpainted_append h []
  rw [List.append_nil] at happend
  exact happend.trans (List.append_nil s)

/-- An escape sequence ends at its `m`. -/
theorem unpaintedFrom_inside {s : List Char} (h : 'm' ∉ s) (rest : List Char) :
    unpaintedFrom true (s ++ 'm' :: rest) = unpainted rest := by
  induction s with
  | nil => rfl
  | cons c s ih =>
    rw [List.mem_cons, not_or] at h
    rw [List.cons_append, unpaintedFrom, bne_iff_ne.mpr (Ne.symm h.1), ih h.2]

/-- An escape sequence goes. -/
theorem unpainted_sequence (code : Nat) (rest : List Char) :
    unpainted (sequence code ++ rest) = unpainted rest := by
  have hm : 'm' ∉ '[' :: Decimal.ofNat code := by
    rw [List.mem_cons, not_or]
    exact ⟨by decide, fun h => absurd (Decimal.isDigit_of_mem_ofNat h) (by decide)⟩
  have hinside := unpaintedFrom_inside hm rest
  rw [unpainted, sequence, List.cons_append, List.cons_append, unpaintedFrom, if_pos rfl,
    List.append_assoc]
  exact hinside

/-- Where no reset stands, nothing is put behind one. -/
theorem afterResets_of_not_mem {s : List Char} (h : '\x1b' ∉ s) (again : List Char) :
    afterResets again s = s := by
  fun_induction afterResets again s with
  | case1 rest ih => exact absurd List.mem_cons_self h
  | case2 c rest hreset ih => rw [ih (mt (List.mem_cons_of_mem c) h)]
  | case3 => rfl

/-- A part of a line as it is written. -/
def Span.written (colour : Bool) (s : Span) : List Char :=
  if colour then s.paint else s.text

/-- A line as it is written. -/
def Line.written (colour : Bool) (line : Line) : List Char :=
  line.flatMap (Span.written colour)

/-- What is written are the lines, each with a line feed behind it. -/
theorem write_eq (colour : Bool) (lines : List Line) :
    (write colour lines).toList = lines.flatMap fun line => line.written colour ++ ['\n'] :=
  String.toList_ofList

/-- A line whose text has neither escape characters nor line feeds. -/
def Line.Clean (line : Line) : Prop :=
  ∀ s ∈ line, '\x1b' ∉ s.text ∧ '\n' ∉ s.text

/-- A written part without its paint is the text of the part. -/
theorem unpainted_written {s : Span} (h : '\x1b' ∉ s.text) (colour : Bool) (rest : List Char) :
    unpainted (s.written colour ++ rest) = s.text ++ unpainted rest := by
  unfold Span.written Span.paint
  split
  · split
    · rw [afterResets_of_not_mem h, List.append_assoc, List.append_assoc, unpainted_sequence,
        unpainted_append h, reset, unpainted_sequence]
    · exact unpainted_append h rest
  · exact unpainted_append h rest

/-- A written line without its paint is the text of its parts. -/
theorem unpainted_writtenLine {line : Line} (h : line.Clean) (colour : Bool) :
    unpainted (line.written colour) = line.flatMap Span.text := by
  unfold Line.written
  induction line with
  | nil => rfl
  | cons s line ih =>
    rw [List.flatMap_cons, List.flatMap_cons, unpainted_written (h s List.mem_cons_self).1,
      ih fun t ht => h t (List.mem_cons_of_mem s ht)]

/-- Paint has no line feed. -/
theorem newline_not_mem_sequence (code : Nat) : '\n' ∉ sequence code := by
  simp [sequence, Decimal.newline_not_mem_ofNat]

/-- A clean line is one line as it is written. -/
theorem newline_not_mem_written {line : Line} (h : line.Clean) (colour : Bool) :
    '\n' ∉ line.written colour := by
  intro hmem
  obtain ⟨s, hs, hmem⟩ := List.mem_flatMap.mp hmem
  obtain ⟨hescape, hfeed⟩ := h s hs
  unfold Span.written Span.paint at hmem
  split at hmem
  · split at hmem
    · rw [afterResets_of_not_mem hescape] at hmem
      simp [newline_not_mem_sequence, hfeed, reset] at hmem
    · exact hfeed hmem
  · exact hfeed hmem

/-- The lines of a printed text. Behind the last line feed stands one more line, which is empty. -/
def printedLines (text : String) : List (List Char) :=
  text.toList.splitOn '\n'

/-- Clean lines are the first lines of what is printed. -/
theorem printedLines_write {lines more : List Line} (h : ∀ line ∈ lines, line.Clean)
    (colour : Bool) :
    printedLines (write colour (lines ++ more)) =
      lines.map (Line.written colour) ++ printedLines (write colour more) := by
  have hclean : ∀ t ∈ lines.map (Line.written colour), '\n' ∉ t := by
    intro t ht
    obtain ⟨line, hline, rfl⟩ := List.mem_map.mp ht
    exact newline_not_mem_written (h line hline) colour
  rw [printedLines, printedLines, write_eq, write_eq, List.flatMap_append,
    ← splitOn_flatMap_append hclean, List.flatMap_map]

end Crossing.Report
