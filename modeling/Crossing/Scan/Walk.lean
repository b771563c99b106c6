import Crossing.Notice
import Crossing.Scan.Project

/-!
# Walking a project

The modules below a directory, in the order of their paths: the entries of a directory go by
name, byte by byte, and what is below an entry follows it at once. An entry that is left out is
not entered, and the root itself is never left out. A directory that cannot be read is passed over
with a warning, unless it is the root.
-/

namespace Crossing.Scan

open Text

/-- Why a directory cannot be scanned. -/
inductive RootError where
  | inaccessible (root : String) (cause : FileError)
  | notDirectory (root : String)
  | unreadable (root : String)
deriving DecidableEq, Inhabited

/-- What is said of a directory that cannot be read. -/
def unreadable (path : String) : String :=
  "IO error for operation on " ++ path ++ ": " ++ FileError.denied.message

/-- The message, with the system's own behind what is said of it. -/
def RootError.message : RootError → String
  | inaccessible root cause => "Cannot access scan root: " ++ root ++ ": " ++ cause.message
  | notDirectory root => "Scan root is not a directory: " ++ root
  | unreadable root =>
    "Failed to traverse " ++ root ++ ": " ++ Scan.unreadable root ++ ": " ++ FileError.denied.message

/-- Whether a name comes before another, byte by byte. -/
def nameLE (a b : OsText) : Bool :=
  decide (a.bytes ≤ b.bytes)

/-- Whether names, the last one first, lead to a module at this node. -/
def isModuleAt (below : List OsText) (node : Node) : Bool :=
  node.isFile && Project.isModule ⟨below.headD ""⟩

section Walk

variable (ignore : Ignore) (isWanted : List OsText → Node → Bool)

mutual

/-- The names that lead to what is wanted at and below a node that is reached by the names `below`,
the last one first. What is wanted is no directory that can be read. -/
def foundAt (below : List OsText) : Node → List (List OsText)
  | .file bytes => if isWanted below (.file bytes) then [below.reverse] else []
  | .sealed => if isWanted below .sealed then [below.reverse] else []
  | .dir entries => foundIn below entries |>.mergeSort (fun a b => nameLE a.1 b.1) |>.flatMap (·.2)

/-- The entries of a directory with what is wanted at and below them. -/
def foundIn (below : List OsText) : List (OsText × Node) → List (OsText × List (List OsText))
  | [] => []
  | (name, node) :: rest =>
    let here := name :: below
    (if ignore.ignores (.ofNames here.reverse) then [] else [(name, foundAt here node)]) ++
      foundIn below rest

end

end Walk

/-- The names that lead to the modules at and below a node. -/
def modulesAt (ignore : Ignore) (node : Node) : List (List OsText) :=
  foundAt ignore isModuleAt [] node

/-- The warning about a directory that is passed over. -/
def skipping (path : Path) : Notice :=
  ⟨.warn, "Skipping unreadable entry: " ++ Scan.unreadable path.shown⟩

/-- The names that lead to the directories that are passed over, at and below a node. -/
def skippedAt (ignore : Ignore) (node : Node) : List (List OsText) :=
  foundAt ignore (fun _ node => node.isSealed) [] node

/-- The modules below a directory, and the warnings about directories below it that are passed
over. -/
def walk (disk : Disk) (ignore : Ignore) (root : Path) :
    Except RootError (List Path × List Notice) :=
  match disk.node? root with
  | .error cause => .error (.inaccessible root.shown cause)
  | .ok (.file _) => .error (.notDirectory root.shown)
  | .ok .sealed => .error (.unreadable root.shown)
  | .ok node => .ok ((modulesAt ignore node).map root.below,
      (skippedAt ignore node).map fun names => skipping (root.below names))

/-- The modules below a directory. -/
def modules (disk : Disk) (ignore : Ignore) (root : Path) : Except RootError (List Path) :=
  (walk disk ignore root).map (·.1)

end Crossing.Scan
