import Crossing.Proofs.Report.Counts
import Crossing.Proofs.Report.Painted
import Crossing.Report.Console
import Crossing.Report.Markdown

/-!
# Printed totals

The report on the console and the one in markdown state the number of all calls in one line and
the numbers of the calls of each label in rows below it. Both are read back from the text that is
printed: its lines are known up to the end of the rows (`printedLines_console`,
`printedLines_markdown`), and the numbers in a line are its runs of digits (`numbers`). What is
printed for the labels adds up to the total that is printed (`counts_add_up`).
-/

namespace Crossing.Report

open Text

/-! ### Numbers in a line -/

/-- The numbers in a text, which are its runs of digits. -/
def numbers (s : List Char) : List Nat :=
  (s.splitOnP fun c => !c.isDigit).filterMap Decimal.toNat?

/-- No number goes past what is no digit. -/
theorem numbers_append_cons {c : Char} (h : c.isDigit = false) (s t : List Char) :
    numbers (s ++ c :: t) = numbers s ++ numbers t := by
  rw [numbers, List.splitOnP_append_cons s t (by rw [h, Bool.not_false]), List.filterMap_append]
  rfl

/-- A written number has its number only. -/
theorem numbers_ofNat (n : Nat) : numbers (Decimal.ofNat n) = [n] := by
  have hrun : ∀ c ∈ Decimal.ofNat n, (!c.isDigit) = false := fun c hc => by
    rw [Decimal.isDigit_of_mem_ofNat hc, Bool.not_true]
  rw [numbers, List.splitOnP_eq_singleton hrun,
    List.filterMap_cons_some (Decimal.toNat?_ofNat n), List.filterMap_nil]

/-- Text of a report that has no number, no paint and no line feed. -/
def isWording (s : List Char) : Bool :=
  s.all fun c => !c.isDigit && c != '\x1b' && c != '\n'

/-- A wording starts with a character that is no digit, and goes on as a wording. -/
theorem isWording_cons {c : Char} {s : List Char} (h : isWording (c :: s) = true) :
    c.isDigit = false ∧ isWording s = true := by
  simp only [isWording, List.all_cons, Bool.and_eq_true, Bool.not_eq_true'] at h ⊢
  exact ⟨h.1.1.1, h.2⟩

/-- A wording has no escapes and no line feeds. -/
theorem clean_words {s : List Char} (h : isWording s = true) : '\x1b' ∉ s ∧ '\n' ∉ s :=
  ⟨fun hmem => absurd (List.all_eq_true.mp h _ hmem) (by decide),
    fun hmem => absurd (List.all_eq_true.mp h _ hmem) (by decide)⟩

/-- A written number has no escapes and no line feeds. -/
theorem clean_ofNat (n : Nat) : '\x1b' ∉ Decimal.ofNat n ∧ '\n' ∉ Decimal.ofNat n :=
  ⟨fun hmem => absurd (Decimal.isDigit_of_mem_ofNat hmem) (by decide),
    Decimal.newline_not_mem_ofNat n⟩

/-- Words have no numbers. -/
theorem numbers_append {s : List Char} (h : isWording s = true) (t : List Char) :
    numbers (s ++ t) = numbers t := by
  induction s with
  | nil => rfl
  | cons c s ih =>
    obtain ⟨hc, hs⟩ := isWording_cons h
    -- In front of the first character is an empty run, which names no number.
    have hcut := numbers_append_cons hc [] (s ++ t)
    rw [List.cons_append, ← List.nil_append (c :: (s ++ t)), hcut, ih hs]
    rfl

/-- A number ends at words. -/
theorem numbers_ofNat_append (n : Nat) {s : List Char} (h : isWording s = true) (hs : s ≠ [])
    (t : List Char) : numbers (Decimal.ofNat n ++ (s ++ t)) = n :: numbers t := by
  cases s with
  | nil => contradiction
  | cons c s =>
    obtain ⟨hc, hs⟩ := isWording_cons h
    rw [List.cons_append, numbers_append_cons hc, numbers_ofNat, numbers_append hs]
    rfl

/-- A number with a wording behind it is read as this number. -/
theorem numbers_ofNat_words (n : Nat) {s : List Char} (h : isWording s = true) (hs : s ≠ []) :
    numbers (Decimal.ofNat n ++ s) = [n] := by
  have hend := numbers_ofNat_append n h hs []
  rw [List.append_nil] at hend
  exact hend

/-! ### Lines and rows -/

/-- The lines from one line on, up to the first empty one. -/
def paragraph (first : Nat) (lines : List (List Char)) : List (List Char) :=
  (lines.drop first).takeWhile fun line => !line.isEmpty

/-- The rows up to the first empty line are read. -/
theorem paragraph_append {front rows : List (List Char)} (h : ∀ row ∈ rows, row ≠ [])
    (rest : List (List Char)) : paragraph front.length (front ++ (rows ++ [] :: rest)) = rows := by
  have hrows : ∀ row ∈ rows, (!row.isEmpty) = true := fun row hrow => by
    simpa using h row hrow
  rw [paragraph, List.drop_left, List.takeWhile_append_of_pos hrows,
    List.takeWhile_cons_of_neg (by simp), List.append_nil]

/-- Lines that state a total in a line and, from another line on, the numbers that make it up. -/
structure Totals (lines : List (List Char)) (place first : Nat) (headline : String)
    (rows : List String) (total : Nat) : Prop where
  /-- The line at the place, its paint left out. -/
  headline_eq : lines[place]?.map unpainted = some headline.toList
  /-- The total is the last number in the line. -/
  stated : (numbers headline.toList).getLast? = some total
  /-- The rows end at the first empty line. -/
  rows_eq : paragraph first lines = rows.map String.toList
  /-- There is one number in each row. -/
  single : ∀ row ∈ rows, ∃ n, numbers row.toList = [n]
  /-- The numbers in the rows add up to the total. -/
  sum : (rows.flatMap fun row => numbers row.toList).sum = total

/-- Rows that are made of numbers, one each, between other lines and an empty one. -/
theorem totals_of_rows {α : Type} {front rest : List (List Char)} {xs : List α} {row : α → String}
    {count : α → Nat} {place total : Nat} {headline : String}
    (hnumbers : ∀ x ∈ xs, numbers (row x).toList = [count x]) (hsum : (xs.map count).sum = total)
    (hline : front[place]?.map unpainted = some headline.toList)
    (hstated : (numbers headline.toList).getLast? = some total) :
    Totals (front ++ ((xs.map row).map String.toList ++ [] :: rest)) place front.length headline
      (xs.map row) total := by
  have hplace : place < front.length := by
    obtain ⟨line, hget, -⟩ := Option.map_eq_some_iff.mp hline
    exact (List.getElem?_eq_some_iff.mp hget).1
  -- A row has a number, so it is not empty, and the rows end where the empty line stands.
  have hnonempty : ∀ t ∈ (xs.map row).map String.toList, t ≠ [] := by
    rw [List.map_map]
    intro t ht
    obtain ⟨x, hx, rfl⟩ := List.mem_map.mp ht
    intro hempty
    have hnumber := hnumbers x hx
    rw [Function.comp_apply] at hempty
    rw [hempty] at hnumber
    exact List.cons_ne_nil _ _ hnumber.symm
  refine ⟨?_, hstated, paragraph_append hnonempty rest, ?_, ?_⟩
  · rwa [List.getElem?_append_left hplace]
  · intro r hr
    obtain ⟨x, hx, rfl⟩ := List.mem_map.mp hr
    exact ⟨count x, hnumbers x hx⟩
  · rw [List.flatMap_map, List.flatMap_congr hnumbers, ← List.map_eq_flatMap, hsum]

/-! ### The console -/

/-- The words in front of the total. -/
def totalText : String := "Total network boundary crossings: "

/-- The lines above the rows of the labels. -/
def topLines (total : Nat) : List Line :=
  [[], [.styled .bold title], [.plain (.ofList (List.replicate title.toList.length '='))],
    [.plain totalText, .styled .bold (number total)]]

/-- The rows of the labels that occur, each with the number of occurrences. -/
def occurring (labels : List Label) : List (String × Nat) :=
  (labelRows.filter (·.2 ∈ labels)).map fun row => (row.1, labels.count row.2)

/-- A row of a label as it is printed. -/
def rowText (row : String × Nat) : String :=
  row.1 ++ number row.2

/-- The lines above the files have a row for each label that occurs. -/
theorem headLines_eq (calls : List Call) :
    headLines calls = topLines calls.length ++
      (occurring (calls.map (·.boundary))).map fun row => [.plain (rowText row)] := by
  rw [headLines, topLines, occurring, List.map_map, ← List.filterMap_eq_map', List.filterMap_filter]
  refine congrArg (_ ++ ·) (List.filterMap_congr fun row _ => ?_)
  obtain ⟨text, label⟩ := row
  have hcount : countOf label (labelCounts calls) = (calls.map (·.boundary)).count label := by
    rw [labelCounts_eq_tally, countOf_tally]
  by_cases hlabel : label ∈ calls.map (·.boundary)
  · have hsome : (calls.map (·.boundary)).count label ≠ 0 :=
      Nat.ne_of_gt (List.count_pos_iff.mpr hlabel)
    simp [hcount, hsome, hlabel, rowText]
  · have hnone : (calls.map (·.boundary)).count label = 0 := List.count_eq_zero.mpr hlabel
    simp [hcount, hnone, hlabel]

/-- The rows of labels have no numbers but the counts. -/
theorem isWording_occurring {labels : List Label} {row : String × Nat}
    (h : row ∈ occurring labels) : isWording row.1.toList = true := by
  have hrows : ∀ row ∈ labelRows, isWording row.1.toList = true := by decide
  obtain ⟨r, hr, rfl⟩ := List.mem_map.mp h
  exact hrows r (List.mem_filter.mp hr).1

/-- The labels that occur are counted without loss. -/
theorem sum_occurring (labels : List Label) :
    ((occurring labels).map (·.2)).sum = labels.length := by
  have hdistinct : ((labelRows.filter (·.2 ∈ labels)).map (·.2)).Nodup :=
    (List.filter_sublist.map _).nodup (by decide : (labelRows.map (·.2)).Nodup)
  have hall : ∀ l ∈ labels, l ∈ (labelRows.filter (·.2 ∈ labels)).map (·.2) := fun l hl => by
    obtain ⟨row, hrow, rfl⟩ : ∃ row ∈ labelRows, row.2 = l := by cases l <;> decide
    exact List.mem_map_of_mem (List.mem_filter.mpr ⟨hrow, decide_eq_true hl⟩)
  rw [← sum_count hdistinct hall, occurring, List.map_map, List.map_map]
  rfl

/-- A number is printed by its digits. -/
theorem toList_number (n : Nat) : (number n).toList = Decimal.ofNat n :=
  String.toList_ofList

/-- The first lines of a report are clean. -/
theorem clean_topLines (total : Nat) : ∀ line ∈ topLines total, line.Clean := by
  have htitle := clean_words (by decide : isWording title.toList = true)
  have hrule := clean_words (by decide : isWording (List.replicate title.toList.length '=') = true)
  have htext := clean_words (by decide : isWording totalText.toList = true)
  have htotal := clean_ofNat total
  simp only [topLines, List.forall_mem_cons, Line.Clean, Span.plain, Span.styled, toList_number,
    String.toList_ofList]
  exact ⟨by simp, ⟨htitle, by simp⟩, ⟨hrule, by simp⟩, ⟨htext, htotal, by simp⟩, by simp⟩

/-- The line of a label is clean. -/
theorem clean_rowText {labels : List Label} {row : String × Nat} (h : row ∈ occurring labels) :
    Line.Clean [.plain (rowText row)] := by
  obtain ⟨hescape, hfeed⟩ := clean_words (isWording_occurring h)
  obtain ⟨hescape', hfeed'⟩ := clean_ofNat row.2
  intro s hs
  rw [List.mem_singleton.mp hs, Span.plain, rowText, String.toList_append, toList_number]
  simp only [List.mem_append, not_or]
  exact ⟨⟨hescape, hescape'⟩, hfeed, hfeed'⟩

/-- The lines about the labels are clean. -/
theorem clean_headLines (calls : List Call) : ∀ line ∈ headLines calls, line.Clean := by
  rw [headLines_eq]
  intro line hline
  rcases List.mem_append.mp hline with hline | hline
  · exact clean_topLines _ line hline
  · obtain ⟨row, hrow, rfl⟩ := List.mem_map.mp hline
    exact clean_rowText hrow

/-- What starts with an empty line, or has no line, starts with an empty line as it is printed. -/
theorem printedLines_write_empty {lines : List Line} (h : lines.headD [] = []) (colour : Bool) :
    ∃ rest, printedLines (write colour lines) = [] :: rest := by
  cases lines with
  | nil => exact ⟨[], by rw [printedLines, write_eq]; rfl⟩
  | cons line lines =>
    obtain rfl : line = [] := h
    have hwrite : printedLines (write colour ([[]] ++ lines)) =
        [[]].map (Line.written colour) ++ printedLines (write colour lines) :=
      printedLines_write (by simp [Line.Clean]) colour
    exact ⟨printedLines (write colour lines), hwrite⟩

/-- What is printed are the lines above the rows, the rows, and an empty line with what follows. -/
theorem printedLines_console (colour : Bool) (view : View) (a : Analysis) :
    ∃ rest, printedLines (console colour view a) =
      (topLines a.calls.length).map (Line.written colour) ++
        (((occurring (a.calls.map (·.boundary))).map rowText).map String.toList ++ [] :: rest) := by
  -- The rows have no style, so they are written alike in colour and without.
  have hrow : (Line.written colour ∘ fun row => [.plain (rowText row)]) =
      String.toList ∘ rowText := by
    funext row
    cases colour <;> exact List.append_nil _
  obtain ⟨rest, hrest⟩ : ∃ rest, printedLines (write colour (if (ranking a.calls).isEmpty then []
      else rankingLines view (ranking a.calls))) = [] :: rest :=
    printedLines_write_empty (by split <;> rfl) colour
  refine ⟨rest, ?_⟩
  rw [console, consoleLines, printedLines_write (clean_headLines a.calls), hrest, headLines_eq,
    List.map_append, List.append_assoc, List.map_map, List.map_map, hrow]

/-- The report on the console states the number of calls and the numbers that make it up. -/
theorem totals_console (colour : Bool) (view : View) (a : Analysis) :
    Totals (printedLines (console colour view a)) 3 4 (totalText ++ number a.calls.length)
      ((occurring (a.calls.map (·.boundary))).map rowText) a.calls.length := by
  have hnumbers : ∀ row ∈ occurring (a.calls.map (·.boundary)),
      numbers (rowText row).toList = [row.2] := fun row hrow => by
    rw [rowText, String.toList_append, toList_number, numbers_append (isWording_occurring hrow),
      numbers_ofNat]
  have hsum : ((occurring (a.calls.map (·.boundary))).map (·.2)).sum = a.calls.length := by
    rw [sum_occurring, List.length_map]
  have hline : ((topLines a.calls.length).map (Line.written colour))[3]?.map unpainted =
      some (totalText ++ number a.calls.length).toList := by
    have hclean : Line.Clean [.plain totalText, .styled .bold (number a.calls.length)] :=
      clean_topLines a.calls.length _ (by simp [topLines])
    have hget : ((topLines a.calls.length).map (Line.written colour))[3]? =
        some (Line.written colour [.plain totalText, .styled .bold (number a.calls.length)]) := rfl
    rw [hget, Option.map_some, unpainted_writtenLine hclean, String.toList_append]
    simp [Span.plain, Span.styled]
  have hstated : (numbers (totalText ++ number a.calls.length).toList).getLast? =
      some a.calls.length := by
    rw [String.toList_append, toList_number, numbers_append (by decide), numbers_ofNat]
    rfl
  obtain ⟨rest, hlines⟩ := printedLines_console colour view a
  rw [hlines]
  exact totals_of_rows hnumbers hsum hline hstated

/-! ### Markdown -/

/-- The line with the numbers of modules and calls. -/
def foundText (files total : Nat) : String :=
  "Analyzed **" ++ countCell files ++ "** files. Found **" ++ countCell total ++
    "** network boundary crossings."

/-- The lines above the rows of the table of labels. -/
def topTexts (files total : Nat) : List String :=
  ["# tRPC Boundary Report", "", foundText files total, "", "## Summary by Boundary", "",
    "| Boundary | Calls |", "| --- | --- |"]

/-- A row of the table of labels as it is printed. -/
def tableText (counted : Label × Nat) : String :=
  "| " ++ counted.1.name ++ " | " ++ countCell counted.2 ++ " |"

/-- The row of a label in markdown. Its name needs no backslash. -/
theorem row_eq (counted : Label × Nat) :
    row [cell counted.1.name, countCell counted.2] = tableText counted := by
  have hcell : cell counted.1.name = counted.1.name := by
    cases counted.1 <;> decide
  rw [hcell]
  simp [row, tableText, String.append_assoc]

/-- The report starts with the lines above the table, its rows, and an empty line. -/
theorem markdownLines_eq (a : Analysis) :
    ∃ rest, markdownLines a =
      topTexts a.fileCount a.calls.length ++
        ((labelCounts a.calls).map tableText ++ "" :: rest) := by
  have hrows {cells : Label × Nat → List String}
      (hcells : ∀ counted, cells counted = [cell counted.1.name, countCell counted.2]) :
      ((labelCounts a.calls).map cells).map row = (labelCounts a.calls).map tableText := by
    rw [List.map_map]
    refine List.map_congr_left fun counted _ => ?_
    rw [Function.comp_apply, hcells, row_eq]
  have hcolumns : row ["Boundary", "Calls"] = "| Boundary | Calls |" ∧
      row (["Boundary", "Calls"].map fun _ => "---") = "| --- | --- |" := by decide
  rw [markdownLines, table, hrows fun _ => rfl, hcolumns.1, hcolumns.2]
  simp only [topTexts, foundText, List.append_assoc, List.cons_append, List.nil_append]
  exact ⟨_, rfl⟩

/-- The name of a label is a wording. -/
theorem isWording_name (l : Label) : isWording l.name.toList = true := by
  cases l <;> decide

/-- The cell of a count holds its digits. -/
theorem toList_countCell (n : Nat) : (countCell n).toList = Decimal.ofNat n :=
  String.toList_ofList

/-- The text about what was found has no escapes. -/
theorem escape_not_mem_foundText (files total : Nat) : '\x1b' ∉ (foundText files total).toList := by
  simp [foundText, toList_countCell, clean_ofNat]

/-- None of the lines falls into several. -/
theorem newline_not_mem_topTexts (files total : Nat) :
    ∀ t ∈ topTexts files total, '\n' ∉ t.toList := by
  simp [topTexts, foundText, toList_countCell, Decimal.newline_not_mem_ofNat]

/-- The row of a label has no line feeds. -/
theorem newline_not_mem_tableText (counted : Label × Nat) : '\n' ∉ (tableText counted).toList := by
  simp [tableText, toList_countCell, Decimal.newline_not_mem_ofNat,
    clean_words (isWording_name counted.1)]

/-- What is printed are the lines above the rows, the rows, and an empty line with what follows. -/
theorem printedLines_markdown (a : Analysis) :
    ∃ rest, printedLines (markdown a) =
      (topTexts a.fileCount a.calls.length).map String.toList ++
        (((labelCounts a.calls).map tableText).map String.toList ++ [] :: rest) := by
  obtain ⟨rest, hlines⟩ := markdownLines_eq a
  have hfeed : ∀ t ∈ (topTexts a.fileCount a.calls.length ++
      ((labelCounts a.calls).map tableText ++ [""])).map String.toList, '\n' ∉ t := by
    intro t ht
    obtain ⟨line, hline, rfl⟩ := List.mem_map.mp ht
    rcases List.mem_append.mp hline with hline | hline
    · exact newline_not_mem_topTexts _ _ line hline
    rcases List.mem_append.mp hline with hline | hline
    · obtain ⟨counted, -, rfl⟩ := List.mem_map.mp hline
      exact newline_not_mem_tableText counted
    · rw [List.mem_singleton.mp hline]
      exact List.not_mem_nil
  -- The empty line is put to the lines before it: what follows it may hold line feeds.
  have hsplit := splitOn_flatMap_append hfeed (rest.flatMap fun line => line.toList ++ ['\n'])
  rw [List.flatMap_map, ← List.flatMap_append] at hsplit
  refine ⟨(rest.flatMap fun line => line.toList ++ ['\n']).splitOn '\n', ?_⟩
  rw [printedLines, markdown, String.toList_ofList, hlines]
  simpa only [List.map_append, List.append_assoc, List.map_cons, List.map_nil,
    List.singleton_append, String.toList_empty] using hsplit

/-- The line states the number of modules and then the total. -/
theorem numbers_foundText (files total : Nat) :
    numbers (foundText files total).toList = [files, total] := by
  have hback := numbers_ofNat_words total (by decide : isWording
    "** network boundary crossings.".toList = true) (by decide)
  simp only [foundText, String.toList_append, toList_countCell, List.append_assoc]
  rw [numbers_append (by decide), numbers_ofNat_append files (by decide) (by decide), hback]

/-- The number in the row of a label is its count. -/
theorem numbers_tableText (counted : Label × Nat) :
    numbers (tableText counted).toList = [counted.2] := by
  have hback := numbers_ofNat_words counted.2 (by decide : isWording " |".toList = true)
    (by decide)
  simp only [tableText, String.toList_append, toList_countCell, List.append_assoc]
  rw [numbers_append (by decide), numbers_append (isWording_name counted.1),
    numbers_append (by decide), hback]

/-- The report in markdown states the number of calls and the numbers that make it up. -/
theorem totals_markdown (a : Analysis) :
    Totals (printedLines (markdown a)) 2 8 (foundText a.fileCount a.calls.length)
      ((labelCounts a.calls).map tableText) a.calls.length := by
  have hline : ((topTexts a.fileCount a.calls.length).map String.toList)[2]?.map unpainted =
      some (foundText a.fileCount a.calls.length).toList :=
    congrArg some (unpainted_of_not_mem (escape_not_mem_foundText _ _))
  have hstated : (numbers (foundText a.fileCount a.calls.length).toList).getLast? =
      some a.calls.length := by
    rw [numbers_foundText]
    rfl
  obtain ⟨rest, hlines⟩ := printedLines_markdown a
  rw [hlines]
  exact totals_of_rows (fun counted _ => numbers_tableText counted)
    (sum_labelCounts a.calls) hline hstated

/-- Calls are counted by procedure and by label without loss, and what is printed for the labels
adds up to the total that is printed. -/
theorem counts_add_up (a : Analysis) (view : View) (colour : Bool) :
    Collapsed a.calls (collapse a.calls) ∧
    labelCounts a.calls = tally (a.calls.map (·.boundary)) ∧
    ((labelCounts a.calls).map (·.2)).sum = a.calls.length ∧
    Totals (printedLines (console colour view a)) 3 4
      ("Total network boundary crossings: " ++ number a.calls.length)
      ((occurring (a.calls.map (·.boundary))).map rowText) a.calls.length ∧
    Totals (printedLines (markdown a)) 2 8
      ("Analyzed **" ++ countCell a.fileCount ++ "** files. Found **" ++
        countCell a.calls.length ++ "** network boundary crossings.")
      ((labelCounts a.calls).map tableText) a.calls.length := by
  refine ⟨collapsed_collapse a.calls, labelCounts_eq_tally a.calls, sum_labelCounts a.calls,
    ?_, ?_⟩
  · exact totals_console colour view a
  · exact totals_markdown a

end Crossing.Report
