import Crossing.Proofs.Scan.Recorded
import Crossing.Proofs.Scan.Walk

/-!
# What an analysis holds

The calls of an analysis are those of the modules that the walk lists, one module after the other
(`analyze_eq`). Those of a module are what is recorded of the calls in its text, if it can be read
(`calls_module_eq`), and all of them have the module's file and label (`of_mem_calls_module`).
-/

namespace Crossing

open Script Text

namespace Scan

variable (read : Script.Reader)

/-- An analysis goes over the modules that the walk lists, one after the other. -/
theorem analyze_eq {disk : Disk} {patterns : List String} {ignore : Ignore} {root : Path}
    {entries : List (OsText × Node)} (hignore : Ignore.ofPatterns patterns = .ok ignore)
    (hroot : disk.node? root = .ok (.dir entries)) :
    ∃ notices, analyzeWith read disk patterns root = .ok
      (⟨(modulesAt ignore (.dir entries)).flatMap fun names =>
          (module read disk (readModule disk) root (root.below names)).1,
        (modulesAt ignore (.dir entries)).length⟩, notices) := by
  have hwalk := @walk_eq disk ignore root entries hroot
  refine ⟨(skippedAt ignore (.dir entries)).map (fun names => skipping (root.below names)) ++
    (analyzeModules read disk (readModule disk) root
      ((modulesAt ignore (.dir entries)).map root.below)).2, ?_⟩
  simp only [analyzeWith, hignore, Except.mapError, bind, Except.bind, hwalk, pure, Except.pure,
    analyzeModules, List.flatMap_map, List.length_map]

/-- What a scan records of a script, where `inner` is the path that classifies it. -/
def recordedIn (inner : Path) (file source : String) : List Call :=
  ((read (.ofFile file) source.toList).map fun script =>
    (calls script).filterMap (recorded? (.ofModule source inner) file)).getD []

variable {read}

/-- The calls of a module are those that are recorded of its text. -/
theorem calls_module_eq (disk : Disk) (readText : Path → Except String String) (root path : Path) :
    (module read disk readText root path).1 =
      ((readText path).toOption.map
        (recordedIn read (Project.innerPath disk path) (Path.display root path))).getD [] := by
  cases hsource : readText path with
  | error e => rw [module, hsource]; rfl
  | ok source =>
    cases hscript : read (.ofFile (Path.display root path)) source.toList with
    | none =>
      have hnothing :
          recordedIn read (Project.innerPath disk path) (Path.display root path) source = [] := by
        rw [recordedIn, hscript]
        rfl
      rw [module, hsource]
      simp only [bind, Except.bind, callsOf, hscript]
      exact hnothing.symm
    | some script =>
      rw [module_eq hsource hscript]
      change _ = recordedIn _ _ _ _
      rw [recordedIn, hscript]
      rfl

/-- What is recorded of a call tells the file, the label and the line. -/
theorem of_recorded? {label : Label} {file : String} {call : Spot × Tree} {c : Call}
    (h : recorded? label file call = some c) :
    c.file = file ∧ c.boundary = label ∧ c.line = call.1.lineNumber := by
  obtain ⟨chain, -, hsite⟩ := Option.bind_eq_some_iff.mp h
  obtain ⟨procedure, -, rfl⟩ := Option.map_eq_some_iff.mp hsite
  exact ⟨rfl, rfl, rfl⟩

/-- In another file, the same is recorded but the file. -/
theorem recorded?_file (label : Label) (file other : String) (call : Spot × Tree) :
    recorded? label other call =
      (recorded? label file call).map fun c => { c with file := other } := by
  unfold recorded? Call.ofSite?
  cases chain? call.2 with
  | none => rfl
  | some chain =>
    simp only [Option.bind_some, Option.map_map]
    rfl

/-- The calls that are recorded of a script have its file and its label. -/
theorem of_mem_recordedIn {inner : Path} {file source : String} {c : Call}
    (h : c ∈ recordedIn read inner file source) :
    c.file = file ∧ c.boundary = .ofModule source inner := by
  unfold recordedIn at h
  cases hscript : read (.ofFile file) source.toList with
  | none =>
    rw [hscript] at h
    exact absurd h List.not_mem_nil
  | some script =>
    rw [hscript] at h
    obtain ⟨call, -, hcall⟩ := List.mem_filterMap.mp h
    obtain ⟨hfile, hlabel, -⟩ := of_recorded? hcall
    exact ⟨hfile, hlabel⟩

/-- The calls of a module have its file, and one label. -/
theorem of_mem_calls_module (disk : Disk) (readText : Path → Except String String)
    (root path : Path) : ∃ label, ∀ c ∈ (module read disk readText root path).1,
      c.file = Path.display root path ∧ c.boundary = label := by
  rw [calls_module_eq]
  cases readText path with
  | error e => exact ⟨default, fun c hc => absurd hc List.not_mem_nil⟩
  | ok source => exact ⟨_, fun c hc => of_mem_recordedIn hc⟩

/-- The file that names lead to, as it is shown. -/
def shown (names : List OsText) : String :=
  "./" ++ .ofList (Path.readable names)

/-- Names are shown with a dot and a slash in front. -/
theorem toList_shown (names : List OsText) :
    (shown names).toList = "./".toList ++ Path.readable names :=
  String.toList_append.trans (congrArg _ String.toList_ofList)

/-- What is read of a name is a name. -/
theorem fileName_shown {name : OsText} (h : FileName name) : FileName (.ofString name.shown) := by
  have hlist : name.shown.toList = Utf8.decodeLossy name.bytes := String.toList_ofList
  have hdots {s : List Char} (hs : ∀ c ∈ s, c.toNat < 0x80)
      (heq : Utf8.encode name.shown.toList = Utf8.encode s) : name.bytes = Utf8.encode s := by
    rw [hlist] at heq
    have hread := Utf8.encode_injective heq
    rw [← hread]
    exact (Utf8.encode_of_ascii (by rwa [hread])).symm
  constructor
  · intro hnil
    have hread : name.shown.toList = [] := Utf8.encode_injective hnil
    rw [hlist] at hread
    exact h.ne_nil (Utf8.decodeLossy_eq_nil_iff.mp hread)
  · intro hslash
    have hread := (Utf8.mem_encode_iff (c := '/') (by decide)).mp hslash
    rw [hlist] at hread
    exact h.no_slash ((Utf8.mem_decodeLossy_iff (c := '/') (by decide)).mp hread)
  · exact fun hdot => h.ne_here (hdots (s := ['.']) (by simp) hdot)
  · exact fun hdots' => h.ne_up (hdots (s := ['.', '.']) (by simp) hdots')

/-- The name of a file decides the dialect, as far as it can be read. -/
theorem ofFile_shown {names : List OsText} {name : OsText}
    (hnames : ∀ n ∈ names ++ [name], FileName n) :
    Dialect.ofFile (shown (names ++ [name])) = Dialect.ofFile name.shown := by
  let readName (n : OsText) : OsText := .ofString n.shown
  have hread : ∀ n ∈ (names ++ [name]).map readName, FileName n := by
    intro n hn
    obtain ⟨m, hm, rfl⟩ := List.mem_map.mp hn
    exact fileName_shown (hnames m hm)
  have hhere : (Path.mk ".").text.bytes ≠ [] := by decide
  have hne : (names ++ [name]).map readName ≠ [] := by simp
  have hbelow : Path.below ⟨"."⟩ ((names ++ [name]).map readName) =
      ⟨shown (names ++ [name])⟩ := by
    have hbytes := Path.bytes_join hhere (Path.isAbsolute_ofNames hne hread)
    rw [← Path.below_eq_join hhere hne hread] at hbytes
    have hread : OsText.bytes ∘ readName = Utf8.encode ∘ fun n => Utf8.decodeLossy n.bytes :=
      funext fun n => congrArg Utf8.encode String.toList_ofList
    refine Path.ext (OsText.ext (hbytes.trans ?_))
    simp only [shown, OsText.ofString, String.toList_append, String.toList_ofList,
      Utf8.encode_append, Path.readable, Utf8.encode_join, Path.bytes_ofNames, List.map_map, hread]
    rfl
  have hextension : (Path.below ⟨"."⟩ ((names ++ [name]).map readName)).extension? =
      (Path.mk name.shown).extension? := by
    rw [Path.extension?, Path.extension?, Path.fileName?, Path.fileName?,
      Path.components_name (fileName_shown (hnames name (by simp))),
      Path.components_below hhere hread]
    simp [readName]
  rw [Dialect.ofFile, Dialect.ofFile, ← hbelow, hextension]

end Scan

end Crossing
