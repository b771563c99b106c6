import Crossing.Report.Paint
import Crossing.Report.Summary

/-!
# The report on the console

The number of calls, the number of them from each label that occurs, and the files with the most
calls. On demand all files are listed, with their calls by line or grouped by procedure.
-/

namespace Crossing.Report

open Text

/-- What the report on the console shows. -/
structure View where
  /-- All files, and not only those with the most calls. -/
  all : Bool := false
  /-- The calls of each file with their lines. -/
  details : Bool := false
  /-- The calls of each file by procedure. -/
  collapse : Bool := false
deriving DecidableEq, Inhabited

/-- The files that are shown unless all are asked for. -/
def hotspots : Nat := 5

/-- A number as text. -/
def number (n : Nat) : String := .ofList (Decimal.ofNat n)

/-- A text with blanks in front of it, at least `width` characters long. -/
def padLeft (width : Nat) (s : String) : String :=
  .ofList (List.replicate (width - s.toList.length) ' ' ++ s.toList)

/-- A text with blanks behind it, at least `width` characters long. -/
def padRight (width : Nat) (s : String) : String :=
  .ofList (s.toList ++ List.replicate (width - s.toList.length) ' ')

/-- The style of a file of a label. -/
def labelStyle : Label → Style
  | .client => .yellow
  | .component => .green
  | .edge => .magenta
  | .unknown => .white

/-- The style of a sort of communication. -/
def communicationStyle : Communication → Style
  | .query => .green
  | .mutation => .red
  | .subscription => .magenta
  | .utilities => .yellow
  | .unknown => .dimmed

/-- A sort of communication in brackets. -/
def communicationSpan (c : Communication) : Span :=
  .styled (communicationStyle c) ("[" ++ c.name ++ "]")

/-- The expression of a call; that of a hook has a style of its own. -/
def expressionSpan (p : Procedure) : Span :=
  .styled (if "use".toList.isPrefixOf p.method.toList then .cyan else .blue) p.expression

/-- The line of a group of calls of one procedure. -/
def repeatedLine (r : Repeated) : Line :=
  [.plain "         ", communicationSpan r.communication, .plain " ", expressionSpan r.procedure,
    .plain (if r.count > 1 then " (x" ++ number r.count ++ ")" else "")]

/-- The line of a call. -/
def callLine (c : Call) : Line :=
  [.plain "         ", .plain (padRight 5 ("L" ++ number c.line.toNat)), .plain " ",
    communicationSpan c.communication, .plain " ", expressionSpan c.procedure]

/-- The line of a file. -/
def fileLine (f : FileCalls) : Line :=
  [.plain ("  " ++ padLeft 4 (number f.count) ++ " "), .styled (labelStyle f.boundary) f.file,
    .plain "  ", .styled .dimmed ("[" ++ f.boundary.name ++ "]")]

/-- The lines of a file. -/
def fileLines (view : View) (f : FileCalls) : List Line :=
  fileLine f ::
    if view.collapse then (Report.collapse f.byLine).map repeatedLine
    else if view.details then f.byLine.map callLine
    else []

/-- The rows of the labels, in the order in which they are shown. -/
def labelRows : List (String × Label) :=
  [("Crossings from Browser (Client): ", .client),
    ("Crossings from Server (RSC):     ", .component),
    ("Crossings from Edge Runtime:     ", .edge),
    ("Crossings from unclassified code: ", .unknown)]

/-- The title of the report. -/
def title : String := "tRPC Network Boundary Inspection"

/-- The lines above the files. -/
def headLines (calls : List Call) : List Line :=
  [[], [.styled .bold title], [.plain (.ofList (List.replicate title.toList.length '='))],
    [.plain "Total network boundary crossings: ", .styled .bold (number calls.length)]] ++
  labelRows.filterMap fun (text, label) =>
    let count := countOf label (labelCounts calls)
    if count = 0 then none else some [.plain (text ++ number count)]

/-- The lines of the files. -/
def rankingLines (view : View) (files : List FileCalls) : List Line :=
  let everything := view.all || view.details
  let shown := if everything then files else files.take hotspots
  [[], [.styled .bold (if everything then "All hotspots:" else "Top hotspots:")]] ++
  shown.flatMap (fileLines view) ++
  if shown.length < files.length then
    [[.plain ("  ... and " ++ number (files.length - shown.length) ++
      " more files (use --all to list them)")]]
  else []

/-- The lines of the report. -/
def consoleLines (view : View) (a : Analysis) : List Line :=
  let files := ranking a.calls
  headLines a.calls ++ if files.isEmpty then [] else rankingLines view files

/-- The report for the console. -/
def console (colour : Bool) (view : View) (a : Analysis) : String :=
  write colour (consoleLines view a)

end Crossing.Report
