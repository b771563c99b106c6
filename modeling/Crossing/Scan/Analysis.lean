import Crossing.Boundary.Classify
import Crossing.Notice
import Crossing.Report.Summary
import Crossing.Scan.Walk
import Crossing.Script.Calls
import Crossing.Text.Decimal

/-!
# Analysis of a project

The calls of remote procedures in the modules of a project, with the label of the module that
each stands in. A module that cannot be read, or is no script, is passed over with a warning. What
reads scripts is a parameter of all but `analyze`.
-/

namespace Crossing.Scan

/-- The calls of a module's text, where `inner` is the path that classifies it. -/
def callsOf (reader : Script.Reader) (inner : Path) (file source : String) :
    Except String (List Call) :=
  match reader (.ofFile file) source.toList with
  | none => .error ("Syntax errors in " ++ file)
  | some script =>
    .ok ((Script.sites file script).filterMap (Call.ofSite? (.ofModule source inner)))

/-- The calls of a module, or a warning. `read` gives the text of a module. -/
def module (reader : Script.Reader) (disk : Disk) (read : Path → Except String String)
    (root path : Path) : List Call × List Notice :=
  let file := Path.display root path
  match read path >>= callsOf reader (Project.innerPath disk path) file with
  | .ok calls => (calls, [])
  | .error e => ([], [⟨.warn, "Skipping " ++ file ++ ": " ++ e⟩])

/-- The analysis of modules below a root. -/
def analyzeModules (reader : Script.Reader) (disk : Disk) (read : Path → Except String String)
    (root : Path) (modules : List Path) : Analysis × List Notice :=
  let found := modules.map (module reader disk read root)
  (⟨found.flatMap (·.1), modules.length⟩,
    ⟨.info, "Analyzing " ++ .ofList (Text.Decimal.ofNat modules.length) ++ " modules under " ++
      root.shown⟩ :: found.flatMap (·.2))

/-- The text of a module on a disk. -/
def readModule (disk : Disk) (path : Path) : Except String String :=
  (disk.readText path).mapError fun e =>
    "Failed to read source file: " ++ path.shown ++ ": " ++ e.message

/-- Why a directory cannot be analysed. -/
inductive ScanError where
  | ignore (cause : IgnoreError)
  | root (root : String) (cause : RootError)
deriving DecidableEq, Inhabited

/-- The message, with what failed in front of why. -/
def ScanError.message : ScanError → String
  | ignore cause => cause.message
  | root r cause => "Failed to scan " ++ r ++ ": " ++ cause.message

/-- The analysis of the modules below a directory, except those that match the patterns. -/
def analyzeWith (reader : Script.Reader) (disk : Disk) (patterns : List String) (root : Path) :
    Except ScanError (Analysis × List Notice) := do
  let ignore ← (Ignore.ofPatterns patterns).mapError .ignore
  let (paths, skipped) ← (walk disk ignore root).mapError (.root root.shown)
  let (analysis, notices) := analyzeModules reader disk (readModule disk) root paths
  return (analysis, skipped ++ notices)

/-- The analysis of the modules below a directory, with the reader of this project. -/
def analyze (disk : Disk) (patterns : List String) (root : Path) :
    Except ScanError (Analysis × List Notice) :=
  analyzeWith Script.parse? disk patterns root

end Crossing.Scan
