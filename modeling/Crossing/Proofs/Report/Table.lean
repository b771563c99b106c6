import Crossing.Proofs.Report.Painted
import Crossing.Report.Markdown
import Mathlib.Data.List.Basic

/-!
# Tables are read back

A reader of tables that sees their lines alone. The bars of a line are the borders of its cells, but
for those with a backslash right before them (`bordered`). A cell stands between two borders with a
blank on each side, and a bar in it has its backslash (`cells`). The rows of a table are the first
lines under its heading that start with a bar, but for the first two of these, which name the
columns and rule them off (`tableRows`).

Backslashes are written as they are, so a text may end in one. It is the blank behind the text that
keeps the next bar a border then. The cells of a row are read back whatever their texts are
(`cells_row`), and so are the rows of a table in a longer text, if no line before it is its heading
(`tableRows_table`).
-/

namespace Crossing.Report

open Text

/-- The texts between the borders of a line, from behind a backslash or from anywhere else. -/
def bordered : (escaping : Bool) → List Char → List (List Char)
  | _, [] => [[]]
  | escaping, c :: rest =>
    if c = '|' ∧ escaping = false then [] :: bordered false rest
    else (bordered (c == '\\') rest).modifyHead (c :: ·)

/-- The text without a blank that it starts with. -/
def dropBlank : List Char → List Char
  | ' ' :: rest => rest
  | s => s

/-- The text without one blank on each side. -/
def unpadded (s : List Char) : List Char :=
  (dropBlank (dropBlank s).reverse).reverse

/-- The texts in the cells of a line. Cells stand between the first border and the last one, and a
bar in them comes without its backslash. -/
def cells (line : List Char) : List (List Char) :=
  ((bordered false line).drop 1).dropLast.map fun s => replacePair '\\' '|' '|' (unpadded s)

/-- Whether a line may be a row of a table. -/
def startsRow (line : List Char) : Bool :=
  line.head? == some '|'

/-- The rows of the table under the first line that is the heading. -/
def tableRows (heading : String) (lines : List (List Char)) : List (List Char) :=
  let below := (lines.dropWhile (· != heading.toList)).drop 1
  ((below.dropWhile (!startsRow ·)).takeWhile startsRow).drop 2

/-! ### Cells -/

/-- A text as it is written in a cell. -/
def escaped (s : List Char) : List Char :=
  s.flatMap fun c => if c = '|' then ['\\', '|'] else [c]

/-- A cell holds its text with the bars escaped. -/
theorem toList_cell (s : String) : (cell s).toList = escaped s.toList :=
  String.toList_ofList

/-- A bar is escaped. -/
theorem escaped_bar (s : List Char) : escaped ('|' :: s) = '\\' :: '|' :: escaped s :=
  rfl

/-- A character that is no bar stays as it is. -/
theorem escaped_cons {c : Char} (h : c ≠ '|') (s : List Char) :
    escaped (c :: s) = c :: escaped s := by
  rw [escaped, List.flatMap_cons, if_neg h, List.singleton_append, escaped]

/-- What holds no bar is written in a cell as it is. -/
theorem escaped_append_of_not_mem {t : List Char} (h : '|' ∉ t) (s : List Char) :
    escaped (s ++ t) = escaped s ++ t := by
  have hplain : escaped t = t := by
    have hstay (c : Char) (hc : c ∈ t) : (if c = '|' then ['\\', '|'] else [c]) = [c] := by
      rw [if_neg]
      rintro rfl
      exact h hc
    rw [escaped, List.flatMap_congr hstay, List.flatMap_singleton']
  rw [escaped, List.flatMap_append, ← escaped, ← escaped, hplain]

/-- A cell has no characters but those of its text and backslashes. -/
theorem not_mem_escaped {x : Char} (hx : x ≠ '\\') {s : List Char} (h : x ∉ s) : x ∉ escaped s := by
  intro hmem
  obtain ⟨c, hc, hmem⟩ := List.mem_flatMap.mp hmem
  split at hmem
  · next hbar =>
    rcases List.mem_cons.mp hmem with heq | hmem
    · exact hx heq
    · rw [List.mem_singleton.mp hmem] at h
      exact h (hbar ▸ hc)
  · rw [List.mem_singleton.mp hmem] at h
    exact h hc

/-- No bar stands first in a cell. -/
theorem head?_escaped (s : List Char) : (escaped s).head? ≠ some '|' := by
  cases s with
  | nil => exact nofun
  | cons c s =>
    by_cases hc : c = '|'
    · rw [hc, escaped_bar]
      exact fun h => absurd (Option.some.inj h) (by decide)
    · rw [escaped_cons hc]
      exact fun h => hc (Option.some.inj h)

/-- The text of a cell is read back. -/
theorem replacePair_escaped (s : List Char) : replacePair '\\' '|' '|' (escaped s) = s := by
  induction s with
  | nil => rfl
  | cons c s ih =>
    by_cases hc : c = '|'
    · rw [hc, escaped_bar, replacePair, if_pos ⟨rfl, rfl⟩, ih]
    · -- A backslash of the text stays: what is written behind it starts with no bar.
      rw [escaped_cons hc]
      cases hs : escaped s with
      | nil => rw [← ih, hs]; rfl
      | cons d rest =>
        have hd : d ≠ '|' := fun heq => head?_escaped s (by rw [hs, heq]; rfl)
        rw [replacePair, if_neg fun h => hd h.2, ← hs, ih]

/-- A blank on each side is taken off again. -/
theorem unpadded_padded (s : List Char) : unpadded (' ' :: (s ++ [' '])) = s := by
  rw [unpadded, dropBlank, List.reverse_append, List.reverse_singleton, List.singleton_append,
    dropBlank, List.reverse_reverse]

/-! ### Borders -/

/-- A character that is no bar belongs to the first cell. -/
theorem bordered_cons {c : Char} (h : c ≠ '|') (escaping : Bool) (rest : List Char) :
    bordered escaping (c :: rest) = (bordered (c == '\\') rest).modifyHead (c :: ·) := by
  rw [bordered, if_neg fun hc => h hc.1]

/-- A bar that is not escaped starts another cell. -/
theorem bordered_border (rest : List Char) :
    bordered false ('|' :: rest) = [] :: bordered false rest := by
  rw [bordered, if_pos ⟨rfl, rfl⟩]

/-- A cell has no border in it, and the blank behind it keeps the next bar a border. -/
theorem bordered_escaped (s : List Char) (escaping : Bool) (rest : List Char) :
    bordered escaping (escaped s ++ ' ' :: '|' :: rest) =
      (escaped s ++ [' ']) :: bordered false rest := by
  induction s generalizing escaping with
  | nil =>
    have hblank := bordered_cons (by decide : ' ' ≠ '|') escaping ('|' :: rest)
    rw [show (' ' == '\\') = false from rfl, bordered_border] at hblank
    exact hblank
  | cons c s ih =>
    by_cases hc : c = '|'
    · -- The backslash is no border, and neither is the bar behind it.
      rw [hc, escaped_bar, List.cons_append, List.cons_append, bordered_cons (by decide), bordered,
        if_neg (by simp), ih]
      rfl
    · rw [escaped_cons hc, List.cons_append, bordered_cons hc, ih]
      rfl

/-- A cell of a row, with the border behind it. -/
def boxed (t : String) : List Char :=
  ' ' :: (t.toList ++ [' ', '|'])

/-- A row is a border and then its cells, each with the border behind it. -/
theorem toList_row {cells : List String} (h : cells ≠ []) :
    (row cells).toList = '|' :: cells.flatMap boxed := by
  have hjoin : ∀ t ts, ' ' :: (List.intercalate [' ', '|', ' '] ((t :: ts).map String.toList) ++
      [' ', '|']) = (t :: ts).flatMap boxed := by
    intro t ts
    induction ts generalizing t with
    | nil => simp [boxed]
    | cons u ts ih =>
      rw [List.map_cons, List.map_cons, List.intercalate_cons_cons, ← List.map_cons,
        List.flatMap_cons, ← ih u]
      simp [boxed]
  obtain ⟨t, ts, rfl⟩ := List.exists_cons_of_ne_nil h
  rw [← hjoin, row, String.toList_append, String.toList_append, String.toList_intercalate]
  rfl

/-- The borders of written cells are those behind the cells. -/
theorem bordered_boxed (texts : List String) :
    bordered false ((texts.map cell).flatMap boxed) =
      (texts.map fun t => ' ' :: (escaped t.toList ++ [' '])) ++ [[]] := by
  induction texts with
  | nil => rfl
  | cons t texts ih =>
    have hcell := bordered_escaped t.toList false ((texts.map cell).flatMap boxed)
    rw [List.map_cons, List.flatMap_cons, boxed, toList_cell, List.cons_append, List.append_assoc,
      bordered_cons (by decide), show (' ' == '\\') = false from rfl]
    simp only [List.cons_append, List.nil_append]
    rw [hcell, ih]
    rfl

/-- The cells of a row are read back, if there are any. -/
theorem cells_row {texts : List String} (h : texts ≠ []) :
    cells (row (texts.map cell)).toList = texts.map String.toList := by
  rw [cells, toList_row (by simpa using h), bordered_border, bordered_boxed, List.drop_succ_cons,
    List.drop_zero, List.dropLast_concat, List.map_map]
  refine List.map_congr_left fun t _ => ?_
  rw [Function.comp_apply, unpadded_padded, replacePair_escaped]

/-! ### Tables -/

/-- A row starts with a border. -/
theorem startsRow_row (cells : List String) : startsRow (row cells).toList = true := by
  rw [row, String.toList_append, String.toList_append]
  rfl

/-- No row is a line that starts otherwise. -/
theorem ne_of_startsRow {line line' : List Char} (h : startsRow line = true)
    (h' : startsRow line' = false) : line ≠ line' := by
  rintro rfl
  rw [h] at h'
  contradiction

/-- The rows of a table are found, if no line before it is its heading and the line behind it, if
any, is no row. -/
theorem tableRows_table {heading : String} {front behind : List (List Char)}
    (hfront : ∀ line ∈ front, line ≠ heading.toList)
    (hbehind : ∀ line ∈ behind.head?, startsRow line = false) (columns : List String)
    (rows : List (List String)) :
    tableRows heading (front ++ ((table heading columns rows).map String.toList ++ behind)) =
      (rows.map row).map String.toList := by
  have hskip : ∀ line ∈ front, (line != heading.toList) = true := fun line hline =>
    bne_iff_ne.mpr (hfront line hline)
  have hrows : ∀ line ∈ (row columns).toList :: (row (columns.map fun _ => "---")).toList ::
      (rows.map row).map String.toList, startsRow line = true := by
    simp only [List.forall_mem_cons, List.forall_mem_map, startsRow_row, implies_true, and_self]
  have hend : behind.takeWhile startsRow = [] := by
    cases behind with
    | nil => rfl
    | cons line behind => rw [List.takeWhile_cons_of_neg (by simp [hbehind line rfl])]
  have htable : (table heading columns rows).map String.toList =
      heading.toList :: [] :: ((row columns).toList :: (row (columns.map fun _ => "---")).toList ::
        (rows.map row).map String.toList) := by
    simp [table]
  rw [tableRows, htable, List.dropWhile_append_of_pos hskip, List.cons_append,
    List.dropWhile_cons_of_neg (by simp), List.drop_succ_cons, List.drop_zero, List.cons_append,
    List.dropWhile_cons_of_pos (by rfl)]
  rw [List.cons_append, List.dropWhile_cons_of_neg (by simp [startsRow_row]), ← List.cons_append,
    List.takeWhile_append_of_pos hrows, hend, List.append_nil]
  rfl

/-! ### Lines -/

/-- A row is one line, if its cells are. -/
theorem newline_not_mem_row {cells : List String} (h : ∀ t ∈ cells, '\n' ∉ t.toList) :
    '\n' ∉ (row cells).toList := by
  by_cases hnone : cells = []
  · rw [hnone]
    decide
  · rw [toList_row hnone, List.mem_cons, List.mem_flatMap]
    rintro (hbar | ⟨t, ht, hmem⟩)
    · exact absurd hbar (by decide)
    · simp [boxed, h t ht] at hmem

/-- A cell is one line, if its text is. -/
theorem newline_not_mem_cell {s : String} (h : '\n' ∉ s.toList) : '\n' ∉ (cell s).toList := by
  rw [toList_cell]
  exact not_mem_escaped (by decide) h

/-- The lines of a table are lines each, if the heading and the cells are. -/
theorem newline_not_mem_table {heading : String} {columns : List String} {rows : List (List String)}
    (hheading : '\n' ∉ heading.toList) (hcolumns : ∀ t ∈ columns, '\n' ∉ t.toList)
    (hrows : ∀ cells ∈ rows, ∀ t ∈ cells, '\n' ∉ t.toList) :
    ∀ line ∈ table heading columns rows, '\n' ∉ line.toList := by
  have hrule : ∀ t ∈ columns.map fun _ => "---", '\n' ∉ t.toList := by
    simp only [List.forall_mem_map]
    exact fun _ _ => by decide
  simp only [table, List.forall_mem_append, List.forall_mem_cons, List.forall_mem_map]
  exact ⟨⟨hheading, by decide, newline_not_mem_row hcolumns, newline_not_mem_row hrule,
    fun _ h => absurd h List.not_mem_nil⟩,
    fun cells hcells => newline_not_mem_row (hrows cells hcells)⟩

/-- The heading of another table is no line of a table. -/
theorem ne_heading_of_mem_table {heading other : String} {columns : List String}
    {rows : List (List String)} (hother : startsRow other.toList = false) (hne : heading ≠ other)
    (hempty : other ≠ "") : ∀ line ∈ table heading columns rows, line ≠ other := by
  have hrow (cells : List String) : row cells ≠ other := fun heq =>
    ne_of_startsRow (startsRow_row cells) hother (congrArg String.toList heq)
  simp only [table, List.forall_mem_append, List.forall_mem_cons, List.forall_mem_map]
  exact ⟨⟨hne, hempty.symm, hrow _, hrow _, fun _ h => absurd h List.not_mem_nil⟩,
    fun _ _ => hrow _⟩

end Crossing.Report
