import Crossing.Command.Arguments
import Crossing.Report.Markdown
import Crossing.Scan.Analysis
import Crossing.Stamp.Transform

/-!
# Running a command

What a command writes to its two outputs, the exit code, and the disk afterwards. A scan writes
its report only if it succeeds; the report on the console comes before the file.
-/

namespace Crossing.Command

/-- What a run leaves behind. -/
structure Outcome where
  /-- Whether the run succeeded. -/
  ok : Bool
  out : String
  /-- The error of a run that failed. -/
  error : String
  notices : List Notice
  disk : Disk
deriving Inhabited

/-- The exit code of a run. -/
def Outcome.code (o : Outcome) : Nat :=
  if o.ok then 0 else 1

/-- A run that failed. -/
def failure (disk : Disk) (out error : String) (notices : List Notice) : Outcome :=
  ⟨false, out, "Error: " ++ error, notices, disk⟩

/-- The report of an analysis, on the console and in a file if one is asked for. -/
def report (disk : Disk) (terminal : Bool) (s : ScanArguments) (a : Analysis) (notices : List Notice) :
    Outcome :=
  let console := Report.console (terminal && !s.noColor) s.view a
  match s.output with
  | none => ⟨true, console, "", notices, disk⟩
  | some file =>
    match disk.writeText file (Report.markdown a) with
    | .ok disk =>
      ⟨true, console ++ "\nReport saved to " ++ file.shown ++ "\n", "", notices, disk⟩
    | .error e =>
      failure disk console ("Failed to write report: " ++ file.shown ++ ": " ++ e.message) notices

/-- Runs a scan. `terminal` says that the console takes colours. -/
def ScanArguments.run (disk : Disk) (terminal : Bool) (s : ScanArguments) : Outcome :=
  match disk.locate s.directory with
  | .error e =>
    failure disk "" ("Cannot resolve scan path: " ++ s.directory.shown ++ ": " ++ e.message) []
  | .ok place =>
    match Scan.analyze disk s.ignore place.path with
    | .error e => failure disk "" e.message []
    | .ok (analysis, notices) => report disk terminal s analysis notices

/-- Runs stamping. -/
def InjectArguments.run (disk : Disk) (i : InjectArguments) : Outcome :=
  match disk.readText i.module with
  | .error e =>
    failure disk "" ("Failed to read module: " ++ i.module.shown ++ ": " ++ e.message) []
  | .ok source =>
    let root := (i.root.map disk.current.absolute).getD disk.current
    let settings := (i.config.map Stamp.Settings.ofText).getD {}
    let (code, notices) :=
      (Stamp.Stamper.ofSettings root settings).transform (disk.current.absolute i.module) source
    ⟨true, code, "", notices, disk⟩

/-- Runs a command. -/
def run (disk : Disk) (terminal : Bool) : Command → Outcome
  | .scan s => s.run disk terminal
  | .inject i => i.run disk

end Crossing.Command
