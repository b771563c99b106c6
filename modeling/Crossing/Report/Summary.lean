import Crossing.Call.Basic

/-!
# Summaries of calls

Counting and grouping the calls of an analysis: how many come from each label, which files hold
how many, and how often a file calls one procedure by one method. All three keep the order of
first occurrence; files are then ranked by their number of calls.
-/

namespace Crossing

/-- What a scan has found. -/
structure Analysis where
  /-- The calls, in the order of the modules and within a module in the order of the text. -/
  calls : List Call
  /-- The number of modules. -/
  fileCount : Nat
deriving DecidableEq, Inhabited

namespace Report

/-- The counts with one more of a label, which goes to the end if it is new. -/
def countLabel (label : Label) : List (Label × Nat) → List (Label × Nat)
  | [] => [(label, 1)]
  | (l, n) :: rest => if l = label then (l, n + 1) :: rest else (l, n) :: countLabel label rest

/-- The number of calls of each label that occurs, in the order of first occurrence. -/
def labelCounts (calls : List Call) : List (Label × Nat) :=
  calls.foldl (fun counts c => countLabel c.boundary counts) []

/-- The number of calls of a label. -/
def countOf (label : Label) (counts : List (Label × Nat)) : Nat :=
  ((counts.find? (·.1 = label)).map (·.2)).getD 0

/-- The calls of one file. -/
structure FileCalls where
  file : String
  /-- The label of the file's first call. -/
  boundary : Label
  calls : List Call
deriving DecidableEq, Inhabited

/-- The number of calls of a file. -/
def FileCalls.count (f : FileCalls) : Nat :=
  f.calls.length

/-- The calls of a file by their lines; calls on one line keep their order. -/
def FileCalls.byLine (f : FileCalls) : List Call :=
  f.calls.mergeSort fun a b => a.line ≤ b.line

/-- The groups with one more call, in the group of its file. -/
def addToFile (c : Call) : List FileCalls → List FileCalls
  | [] => [⟨c.file, c.boundary, [c]⟩]
  | f :: rest =>
    if f.file = c.file then { f with calls := f.calls ++ [c] } :: rest
    else f :: addToFile c rest

/-- The calls by file, in the order of first occurrence. -/
def byFile (calls : List Call) : List FileCalls :=
  calls.foldl (fun files c => addToFile c files) []

/-- The files by their number of calls, the most first; equal files keep their order. -/
def ranking (calls : List Call) : List FileCalls :=
  (byFile calls).mergeSort fun a b => b.count ≤ a.count

/-- The calls of one procedure by one method. -/
structure Repeated where
  procedure : Procedure
  /-- The communication of the first of them. -/
  communication : Communication
  count : Nat
deriving DecidableEq, Inhabited

/-- The groups with one more call, in the group of its procedure and method. -/
def addRepeated (c : Call) : List Repeated → List Repeated
  | [] => [⟨c.procedure, c.communication, 1⟩]
  | r :: rest =>
    if r.procedure = c.procedure then { r with count := r.count + 1 } :: rest
    else r :: addRepeated c rest

/-- The calls by procedure and method, in the order of first occurrence. -/
def collapse (calls : List Call) : List Repeated :=
  calls.foldl (fun groups c => addRepeated c groups) []

end Report

end Crossing
