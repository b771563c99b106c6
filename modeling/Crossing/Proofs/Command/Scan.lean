import Crossing.Command.Run
import Crossing.Proofs.FileTree.Write
import Crossing.Proofs.Scan.Ordered

/-!
# What a scan leaves behind

A scan that succeeds shows an analysis on the console, and if a report file is asked for, this file
has the report of the same analysis and is all that has changed on the disk. A scan that fails
leaves the disk as it was, and if there was nothing to report, it has printed nothing either
(`run_traceless`). All that can be refused is looked at before anything is printed (`run_cases`), so
only the writing of the report can fail behind it.
-/

namespace Crossing.Command.ScanArguments

/-- Whether a scan comes to an analysis of its directory. -/
def Analyzes (disk : Disk) (s : ScanArguments) (a : Analysis) : Prop :=
  ∃ place notices, disk.locate s.directory = .ok place ∧
    Scan.analyze disk s.ignore place.path = .ok (a, notices)

/-- Whether a scan has nothing to report. -/
inductive Refused (disk : Disk) (s : ScanArguments) : Prop
  /-- The path leads nowhere. -/
  | unresolvable {e : FileError} (h : disk.locate s.directory = .error e)
  /-- One of the patterns is none. -/
  | pattern {e : IgnoreError} (h : Ignore.ofPatterns s.ignore = .error e)
  /-- The path leads to something that is no directory, or is one that cannot be read. -/
  | noDirectory {place : Place} (h : disk.locate s.directory = .ok place)
      (hroot : ∀ entries, disk.node? place.path ≠ .ok (.dir entries))

/-- What is printed below a report that was written. -/
def saved (s : ScanArguments) : String :=
  match s.output with
  | none => ""
  | some file => "\nReport saved to " ++ file.shown ++ "\n"

/-- Whether an analysis is all that a run has printed and written. -/
structure Reports (disk : Disk) (terminal : Bool) (s : ScanArguments) (a : Analysis)
    (o : Outcome) : Prop where
  out : o.out = Report.console (terminal && !s.noColor) s.view a ++ s.saved
  disk_eq : s.output = none → o.disk = disk
  writes : ∀ file, s.output = some file → disk.Writes file (Report.markdown a) o.disk

/-- What is refused is not analysed. -/
theorem Refused.not_analyzes {disk : Disk} {s : ScanArguments} {a : Analysis} (h : s.Refused disk) :
    ¬ s.Analyzes disk a := by
  rintro ⟨place, notices, hplace, hanalyze⟩
  obtain ⟨ignore, entries, hignore, hroot⟩ := Scan.of_analyze hanalyze
  cases h with
  | unresolvable h =>
    rw [h] at hplace
    cases hplace
  | pattern h =>
    rw [h] at hignore
    cases hignore
  | noDirectory h hnone =>
    rw [h] at hplace
    cases hplace
    exact hnone entries hroot

/-- An analysis fails on a pattern, or since there is no directory. -/
theorem refused_of_analyze {disk : Disk} {s : ScanArguments} {place : Place} {e : Scan.ScanError}
    (hplace : disk.locate s.directory = .ok place)
    (h : Scan.analyze disk s.ignore place.path = .error e) : s.Refused disk := by
  cases hignore : Ignore.ofPatterns s.ignore with
  | error e => exact .pattern hignore
  | ok ignore =>
    refine .noDirectory hplace fun entries hroot => ?_
    obtain ⟨notices, hanalyze⟩ := Scan.analyze_eq Script.parse? hignore hroot
    rw [Scan.analyze, hanalyze] at h
    cases h

/-- A scan fails before it has printed anything, or reports an analysis. -/
theorem run_cases (disk : Disk) (terminal : Bool) (s : ScanArguments) :
    (s.Refused disk ∧ ∃ error, s.run disk terminal = failure disk "" error []) ∨
      ∃ a notices, s.Analyzes disk a ∧ s.run disk terminal = report disk terminal s a notices := by
  unfold run
  cases hplace : disk.locate s.directory with
  | error e => exact .inl ⟨.unresolvable hplace, _, rfl⟩
  | ok place =>
    cases hanalyze : Scan.analyze disk s.ignore place.path with
    | error e => exact .inl ⟨refused_of_analyze hplace hanalyze, e.message, by simp only [hanalyze]⟩
    | ok found =>
      obtain ⟨a, notices⟩ := found
      exact .inr ⟨a, notices, ⟨place, notices, hplace, hanalyze⟩, by simp only [hanalyze]⟩

/-- A report fails only if its file cannot be written, and then nothing is written. -/
theorem report_cases (disk : Disk) (terminal : Bool) (s : ScanArguments) (a : Analysis)
    (notices : List Notice) :
    ((report disk terminal s a notices).ok = true ∧
        s.Reports disk terminal a (report disk terminal s a notices)) ∨
      ((report disk terminal s a notices).ok = false ∧
        (report disk terminal s a notices).disk = disk ∧
        ∃ file e, s.output = some file ∧ disk.writeText file (Report.markdown a) = .error e) := by
  unfold report
  cases houtput : s.output with
  | none =>
    refine .inl ⟨rfl, ?_, fun _ => rfl, fun file heq => ?_⟩
    · simp [saved, houtput]
    · rw [houtput] at heq
      cases heq
  | some file =>
    dsimp only
    cases hwrite : disk.writeText file (Report.markdown a) with
    | error e => exact .inr ⟨rfl, rfl, file, e, rfl, hwrite⟩
    | ok after =>
      refine .inl ⟨rfl, ?_, fun heq => ?_, fun file' heq => ?_⟩
      · simp [saved, houtput, String.append_assoc]
      · rw [houtput] at heq
        cases heq
      · rw [houtput] at heq
        cases heq
        exact Disk.writes_of_writeText hwrite

/-- A scan that succeeds has printed an analysis and written its report, if a file is asked for, and
nothing else. One that fails has changed nothing: it was refused, or the file cannot be written. One
that is refused fails, and has printed nothing. -/
theorem run_traceless (disk : Disk) (terminal : Bool) (s : ScanArguments) :
    ((s.run disk terminal).ok = true →
        ∃ a, s.Analyzes disk a ∧ s.Reports disk terminal a (s.run disk terminal)) ∧
      ((s.run disk terminal).ok = false → (s.run disk terminal).disk = disk ∧
        (s.Refused disk ∨ ∃ a file e, s.Analyzes disk a ∧ s.output = some file ∧
          disk.writeText file (Report.markdown a) = .error e)) ∧
      (s.Refused disk → (s.run disk terminal).ok = false ∧ (s.run disk terminal).out = "") := by
  obtain ⟨hrefused, error, hrun⟩ | ⟨a, notices, hanalyzes, hrun⟩ := run_cases disk terminal s
  · rw [hrun]
    exact ⟨nofun, fun _ => ⟨rfl, .inl hrefused⟩, fun _ => ⟨rfl, rfl⟩⟩
  · have hnot : ¬ s.Refused disk := fun h => h.not_analyzes hanalyzes
    rw [hrun]
    obtain ⟨hok, hreports⟩ | ⟨hok, hdisk, file, e, houtput, hwrite⟩ :=
      report_cases disk terminal s a notices
    · rw [hok]
      exact ⟨fun _ => ⟨a, hanalyzes, hreports⟩, nofun, fun h => absurd h hnot⟩
    · rw [hok]
      exact ⟨nofun, fun _ => ⟨hdisk, .inr ⟨a, file, e, hanalyzes, houtput, hwrite⟩⟩,
        fun h => absurd h hnot⟩

/-- A scan of the sample project, with its report in a file. -/
def sample (file : String) : ScanArguments :=
  ⟨⟨"/repo"⟩, some ⟨file⟩, ["gen"], ⟨false, true, false⟩, true⟩

/-- The report of the sample project is written beside it and changes none of its modules. In a
directory that is missing no report can be written, and nothing is. -/
theorem run_traceless_sample :
    (∃ a, (sample "repo/../report.md").Analyzes Scan.sampleDisk a ∧
      Scan.sampleDisk.Writes ⟨"repo/../report.md"⟩ (Report.markdown a)
        ((sample "repo/../report.md").run Scan.sampleDisk false).disk) ∧
    ((sample "missing/report.md").run Scan.sampleDisk false).disk = Scan.sampleDisk := by
  have hok : ((sample "repo/../report.md").run Scan.sampleDisk false).ok = true := by decide +kernel
  have hfails : ((sample "missing/report.md").run Scan.sampleDisk false).ok = false := by
    decide +kernel
  obtain ⟨hsuccess, -, -⟩ := run_traceless Scan.sampleDisk false (sample "repo/../report.md")
  obtain ⟨-, hfailure, -⟩ := run_traceless Scan.sampleDisk false (sample "missing/report.md")
  obtain ⟨a, hanalyzes, hreports⟩ := hsuccess hok
  exact ⟨⟨a, hanalyzes, hreports.writes _ rfl⟩, (hfailure hfails).1⟩

end Crossing.Command.ScanArguments
