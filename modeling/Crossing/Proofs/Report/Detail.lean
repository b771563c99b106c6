import Crossing.Proofs.Boundary.Token
import Crossing.Proofs.Report.Printed
import Crossing.Proofs.Report.Ranking
import Crossing.Proofs.Report.Table

/-!
# The table of calls is read back

The report in markdown ends with a table of all calls. If no text of a call holds a line feed, the
lines of the report are what is printed (`printedLines_markdown_of_avoids`), and each call is read
back from its row (`details_markdown`): the procedure, the method and the label from a cell each,
and the file and the line from the last one, which is cut at its last colon. So the report tells its
calls apart, whatever bars, backslashes, blanks and colons they hold, and whatever lines their files
look like: only the heading of the table is the line that is looked for.
-/

namespace Crossing.Report

open Text

/-- What the table of calls says of a call. -/
structure Detail where
  procedure : Procedure
  boundary : Label
  file : String
  line : UInt32
deriving DecidableEq, Inhabited

namespace Detail

/-- What there is to say of a call. -/
def ofCall (c : Call) : Detail :=
  ⟨c.procedure, c.boundary, c.file, c.line⟩

/-- What the four cells of a row say. The last one is cut at its last colon. -/
def ofCells? : List (List Char) → Option Detail
  | [path, method, boundary, place] => do
    let boundary ← Label.ofName? (.ofList boundary)
    let (line, file) ← cut? ':' place.reverse
    let line ← Decimal.toUInt32? line.reverse
    return ⟨⟨.ofList path, .ofList method⟩, boundary, .ofList file.reverse, line⟩
  | _ => none

/-- The texts in the cells of the row of a call. -/
def texts (c : Call) : List String :=
  [c.procedure.path, c.procedure.method, c.boundary.name,
    c.file ++ ":" ++ .ofList (Decimal.ofNat c.line.toNat)]

end Detail

/-- The heading of the table of calls. -/
def detailHeading : String := "## Detailed Call List"

/-- What the rows of the table of calls in a text say. -/
def details (text : String) : List (Option Detail) :=
  (tableRows detailHeading (printedLines text)).map fun row => Detail.ofCells? (cells row)

/-! ### Rows -/

/-- The digits of a line have no bar, so the whole last cell is written as one text. -/
theorem callRow_eq (c : Call) : callRow c = (Detail.texts c).map cell := by
  have hbar : '|' ∉ ':' :: Decimal.ofNat c.line.toNat := by
    rw [List.mem_cons, not_or]
    exact ⟨by decide, fun h => absurd (Decimal.isDigit_of_mem_ofNat h) (by decide)⟩
  have hplace : cell c.file ++ ":" ++ countCell c.line.toNat =
      cell (c.file ++ ":" ++ .ofList (Decimal.ofNat c.line.toNat)) := by
    have hescaped := escaped_append_of_not_mem hbar c.file.toList
    simp only [← String.toList_inj, String.toList_append, toList_cell, toList_countCell,
      String.toList_ofList, List.append_assoc]
    exact hescaped.symm
  rw [callRow, hplace]
  rfl

/-- The cells of a call are read as the call. -/
theorem ofCells?_texts (c : Call) :
    Detail.ofCells? ((Detail.texts c).map String.toList) = some (.ofCall c) := by
  -- The line has no colon, so the last colon is the one that was written before it.
  have hcolon : ':' ∉ (Decimal.ofNat c.line.toNat).reverse := fun h =>
    absurd (Decimal.isDigit_of_mem_ofNat (List.mem_reverse.mp h)) (by decide)
  have hplace : (c.file ++ ":" ++ .ofList (Decimal.ofNat c.line.toNat)).toList.reverse =
      (Decimal.ofNat c.line.toNat).reverse ++ ':' :: c.file.toList.reverse := by
    simp
  simp only [Detail.texts, List.map_cons, List.map_nil, Detail.ofCells?, hplace, cut?_append hcolon,
    String.ofList_toList, Label.ofName?_name, Option.bind_eq_bind, Option.bind_some,
    List.reverse_reverse, Decimal.toUInt32?_ofNat]
  rfl

/-! ### Lines -/

/-- A call without line feeds has none in its row. -/
theorem newline_not_mem_texts {c : Call} (h : c.Avoids '\n') :
    ∀ t ∈ Detail.texts c, '\n' ∉ t.toList := by
  obtain ⟨hpath, hmethod, hfile⟩ := h
  have hname : '\n' ∉ c.boundary.name.toList := by
    cases c.boundary <;> decide
  simp only [Detail.texts, List.forall_mem_cons, String.toList_append, String.toList_ofList,
    List.mem_append, not_or]
  exact ⟨hpath, hmethod, hname, ⟨⟨hfile, by decide⟩, Decimal.newline_not_mem_ofNat _⟩,
    fun _ ht => absurd ht List.not_mem_nil⟩

/-- The report ends with the table of calls, and no line before it is its heading. -/
theorem markdownLines_eq_append {a : Analysis} (h : ∀ c ∈ a.calls, c.Avoids '\n') :
    ∃ front, (∀ line ∈ front, '\n' ∉ line.toList ∧ line ≠ detailHeading) ∧
      markdownLines a = front ++
        table detailHeading ["Procedure", "Method", "Boundary", "File:Line"]
          (a.calls.map callRow) := by
  have htable {heading : String} {columns : List String} {rows : List (List String)}
      (hheading : '\n' ∉ heading.toList ∧ heading ≠ detailHeading)
      (hcolumns : ∀ t ∈ columns, '\n' ∉ t.toList)
      (hrows : ∀ cells ∈ rows, ∀ t ∈ cells, '\n' ∉ t.toList) :
      ∀ line ∈ table heading columns rows, '\n' ∉ line.toList ∧ line ≠ detailHeading :=
    fun line hline => ⟨newline_not_mem_table hheading.1 hcolumns hrows line hline,
      ne_heading_of_mem_table (by decide) hheading.2 (by decide) line hline⟩
  have hname (l : Label) : '\n' ∉ (cell l.name).toList :=
    newline_not_mem_cell (clean_words (isWording_name l)).2
  have hcount (n : Nat) : '\n' ∉ (countCell n).toList := by
    rw [toList_countCell]
    exact Decimal.newline_not_mem_ofNat n
  have hfound : '\n' ∉ (foundText a.fileCount a.calls.length).toList ∧
      foundText a.fileCount a.calls.length ≠ detailHeading := by
    have hmem : foundText a.fileCount a.calls.length ∈ topTexts a.fileCount a.calls.length := by
      simp [topTexts]
    refine ⟨newline_not_mem_topTexts _ _ _ hmem, fun heq => ?_⟩
    -- One starts with a letter and the other with the sign of a heading.
    have hhead := congrArg (·.toList.head?) heq
    simp [foundText, detailHeading] at hhead
  have htop : ∀ line ∈ ["# tRPC Boundary Report", "", foundText a.fileCount a.calls.length, ""],
      '\n' ∉ line.toList ∧ line ≠ detailHeading := by
    simp only [List.forall_mem_cons]
    exact ⟨by decide, by decide, hfound, by decide, fun _ hline => absurd hline List.not_mem_nil⟩
  have hgap : ∀ line ∈ [""], '\n' ∉ line.toList ∧ line ≠ detailHeading := by decide
  refine ⟨_, ?_, rfl⟩
  simp only [List.forall_mem_append]
  refine ⟨⟨⟨⟨htop, htable (by decide) (by decide) ?_⟩, hgap⟩,
    htable (by decide) (by decide) ?_⟩, hgap⟩
  · simp only [List.forall_mem_map, List.forall_mem_cons]
    exact fun counted _ => ⟨hname _, hcount _, fun _ ht => absurd ht List.not_mem_nil⟩
  · simp only [List.forall_mem_map, List.forall_mem_cons]
    intro f hf
    have hfile := (avoids_of_mem_ranking h (List.mem_of_mem_take hf)).1
    exact ⟨newline_not_mem_cell hfile, hname _, hcount _, fun _ ht => absurd ht List.not_mem_nil⟩

/-- The lines of the report are what is printed, if the texts of the calls are on one line each. -/
theorem printedLines_markdown_of_avoids {a : Analysis} (h : ∀ c ∈ a.calls, c.Avoids '\n') :
    ∃ front, (∀ line ∈ front, line ≠ detailHeading.toList) ∧
      printedLines (markdown a) = front ++
        ((table detailHeading ["Procedure", "Method", "Boundary", "File:Line"]
          (a.calls.map callRow)).map String.toList ++ [[]]) := by
  obtain ⟨front, hfront, hlines⟩ := markdownLines_eq_append h
  have hrows : ∀ cells ∈ a.calls.map callRow, ∀ t ∈ cells, '\n' ∉ t.toList := by
    simp only [List.forall_mem_map]
    intro c hc
    rw [callRow_eq, List.forall_mem_map]
    exact fun t ht => newline_not_mem_cell (newline_not_mem_texts (h c hc) t ht)
  have hfeed : ∀ t ∈ (markdownLines a).map String.toList, '\n' ∉ t := by
    rw [List.forall_mem_map, hlines, List.forall_mem_append]
    exact ⟨fun line hline => (hfront line hline).1,
      newline_not_mem_table (by decide) (by decide) hrows⟩
  refine ⟨front.map String.toList, ?_, ?_⟩
  · rw [List.forall_mem_map]
    exact fun line hline => mt String.toList_inj.mp (hfront line hline).2
  · have hsplit := splitOn_flatMap_append hfeed []
    rw [List.append_nil, List.flatMap_map, List.splitOn_nil] at hsplit
    rw [printedLines, markdown, String.toList_ofList, hsplit, hlines, List.map_append,
      List.append_assoc]

/-- The rows of the table are those of the calls. -/
theorem cells_markdown {a : Analysis} (h : ∀ c ∈ a.calls, c.Avoids '\n') :
    (tableRows detailHeading (printedLines (markdown a))).map cells =
      a.calls.map fun c => (Detail.texts c).map String.toList := by
  obtain ⟨front, hfront, hlines⟩ := printedLines_markdown_of_avoids h
  have hend : ∀ line ∈ [([] : List Char)].head?, startsRow line = false := by decide
  rw [hlines, tableRows_table hfront hend, List.map_map, List.map_map, List.map_map]
  refine List.map_congr_left fun c _ => ?_
  rw [Function.comp_apply, Function.comp_apply, Function.comp_apply, callRow_eq]
  exact cells_row (List.cons_ne_nil _ _)

/-- What the rows say is what there is to say of the calls. -/
theorem details_eq {a : Analysis} (h : ∀ c ∈ a.calls, c.Avoids '\n') :
    details (markdown a) = a.calls.map fun c => some (.ofCall c) := by
  have hcells := congrArg (List.map Detail.ofCells?) (cells_markdown h)
  rw [List.map_map, List.map_map] at hcells
  exact hcells.trans (List.map_congr_left fun c _ => ofCells?_texts c)

/-- If no text of a call holds a line feed, the table of calls has a row for each call, in the order
of the calls. Its four cells are the procedure, the method, the label, and the file and the line
with a colon between them, from which the call is read back. So reports of different calls
differ. -/
theorem details_markdown {a : Analysis} (h : ∀ c ∈ a.calls, c.Avoids '\n') :
    (tableRows "## Detailed Call List" (printedLines (markdown a))).map cells =
        a.calls.map (fun c => [c.procedure.path.toList, c.procedure.method.toList,
          c.boundary.name.toList, c.file.toList ++ ':' :: Decimal.ofNat c.line.toNat]) ∧
      details (markdown a) = a.calls.map (fun c => some (.ofCall c)) ∧
      ∀ b : Analysis, (∀ c ∈ b.calls, c.Avoids '\n') →
        a.calls.map Detail.ofCall ≠ b.calls.map Detail.ofCall → markdown a ≠ markdown b := by
  refine ⟨(cells_markdown h).trans ?_, details_eq h, fun b hb hne heq => hne ?_⟩
  · refine List.map_congr_left fun c _ => ?_
    simp [Detail.texts]
  · have hdetails : (a.calls.map Detail.ofCall).map some =
        (b.calls.map Detail.ofCall).map some := by
      rw [List.map_map, List.map_map]
      exact (details_eq h).symm.trans ((congrArg details heq).trans (details_eq hb))
    exact (List.map_inj_right fun _ _ => Option.some.inj).mp hdetails

/-- Calls whose texts hold bars, backslashes, blanks and colons, in files that are named like the
heading and like rows. -/
def awkwardCalls : List Call :=
  [⟨⟨"a|b\\", " \\| "⟩, .unknown, "## Detailed Call List", 7, .component⟩,
    ⟨⟨"", "|"⟩, .query, "| x | y |\\", 4294967295, .client⟩,
    ⟨⟨"\\\\|", "use:1"⟩, .query, "a:1: ", 0, .edge⟩]

/-- Each of them is read back from its row. -/
theorem details_markdown_awkward :
    (∀ c ∈ awkwardCalls, c.Avoids '\n') ∧
      details (markdown ⟨awkwardCalls, 2⟩) =
        [some ⟨⟨"a|b\\", " \\| "⟩, .component, "## Detailed Call List", 7⟩,
          some ⟨⟨"", "|"⟩, .client, "| x | y |\\", 4294967295⟩,
          some ⟨⟨"\\\\|", "use:1"⟩, .edge, "a:1: ", 0⟩] ∧
      markdown ⟨awkwardCalls, 2⟩ ≠ markdown ⟨awkwardCalls.reverse, 2⟩ := by
  have havoids : ∀ c ∈ awkwardCalls, c.Avoids '\n' := by
    unfold Call.Avoids
    decide
  obtain ⟨-, hdetails, hdiffer⟩ := @details_markdown ⟨awkwardCalls, 2⟩ havoids
  exact ⟨havoids, hdetails, hdiffer ⟨awkwardCalls.reverse, 2⟩
    (fun c hc => havoids c (List.mem_reverse.mp hc)) (by decide)⟩

end Crossing.Report
