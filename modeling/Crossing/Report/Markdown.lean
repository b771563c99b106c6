import Crossing.Report.Summary
import Crossing.Text.Decimal

/-!
# The report as markdown

The totals, the calls by label, the files with the most calls, and a table of all calls. A bar in
a cell is written with a backslash before it.
-/

namespace Crossing.Report

open Text

/-- The files that the table of files holds at most. -/
def topFiles : Nat := 20

/-- A text in a cell of a table. -/
def cell (s : String) : String :=
  .ofList (s.toList.flatMap fun c => if c = '|' then ['\\', '|'] else [c])

/-- A count in a cell. -/
def countCell (n : Nat) : String := .ofList (Decimal.ofNat n)

/-- A row of a table. -/
def row (cells : List String) : String :=
  "| " ++ " | ".intercalate cells ++ " |"

/-- The lines of a table under its heading. -/
def table (heading : String) (columns : List String) (rows : List (List String)) : List String :=
  [heading, "", row columns, row (columns.map fun _ => "---")] ++ rows.map row

/-- The row of a call. -/
def callRow (c : Call) : List String :=
  [cell c.procedure.path, cell c.procedure.method, cell c.boundary.name,
    cell c.file ++ ":" ++ countCell c.line.toNat]

/-- The lines of the report. -/
def markdownLines (a : Analysis) : List String :=
  ["# tRPC Boundary Report", "",
    "Analyzed **" ++ countCell a.fileCount ++ "** files. Found **" ++
      countCell a.calls.length ++ "** network boundary crossings.", ""] ++
  table "## Summary by Boundary" ["Boundary", "Calls"]
    ((labelCounts a.calls).map fun (label, n) => [cell label.name, countCell n]) ++
  [""] ++
  table "## Top Files by tRPC Calls" ["File", "Boundary", "Calls"]
    (((ranking a.calls).take topFiles).map fun f =>
      [cell f.file, cell f.boundary.name, countCell f.count]) ++
  [""] ++
  table "## Detailed Call List" ["Procedure", "Method", "Boundary", "File:Line"]
    (a.calls.map callRow)

/-- The report as markdown. -/
def markdown (a : Analysis) : String :=
  .ofList ((markdownLines a).flatMap fun line => line.toList ++ ['\n'])

end Crossing.Report
