import Crossing.Proofs.FileTree.Holds
import Crossing.Proofs.Scan.Analysis
import Mathlib.Data.List.Find

/-!
# A project at another place

The analysis of a project can be read off its tree (`analyze_holds`): the walk, the texts and the
files that mark projects inside it are all in there, and the search for the project of a module ends
at the root at the latest. So it is the same wherever the tree is put (`analyze_relocated`).
-/

namespace Crossing

open Text

namespace Project

/-- Whether a directory in a tree holds a file that marks the root of a project. -/
def isMarked (tree : Node) (front : List OsText) : Bool :=
  markers.any fun m => ((tree.descend? (front ++ [.ofString m])).map Node.isFile).getD false

/-- The names that classify a module of a tree: those behind the nearest marked directory. -/
def innerNames (tree : Node) (front : List OsText) (name : OsText) : List OsText :=
  (front ++ [name]).drop (((front.inits.reverse.find? (isMarked tree)).map List.length).getD 0)

/-- The markers of a project are names of files. -/
theorem fileName_of_mem_markers : ∀ m ∈ markers, FileName (.ofString m) := by decide

/-- On the way to something there are directories. -/
theorem exists_dir_of_descend? {tree : Node} {front rest : List OsText} {n : Node}
    (h : tree.descend? (front ++ rest) = some n) (hrest : rest ≠ []) :
    ∃ entries, tree.descend? front = some (.dir entries) := by
  rw [Node.descend?_append] at h
  obtain ⟨m, hm, hn⟩ := Option.bind_eq_some_iff.mp h
  cases m with
  | dir entries => exact ⟨entries, hm⟩
  | file bytes =>
    rw [Node.descend?_file bytes hrest] at hn
    cases hn
  | sealed =>
    rw [Node.descend?_sealed hrest] at hn
    cases hn

/-- The project of a module in a marked tree is found in the tree. -/
theorem root?_holds {disk : Disk} {place : Path} {tree : Node} (h : disk.Holds place tree)
    (htree : tree.Proper) (hmarked : isMarked tree [] = true) {front : List OsText} {name : OsText}
    {n : Node} (hfile : tree.descend? (front ++ [name]) = some n) :
    ∃ k rest, front = k ++ rest ∧ front.inits.reverse.find? (isMarked tree) = some k ∧
      root? disk (place.below (front ++ [name])) = some (place.below k).trimmed := by
  have hnames := (htree.descend hfile).1
  have hseen : ∀ k ∈ front.inits.reverse,
      (markers.any fun m => disk.isFile ((place.below k).trimmed.join ⟨m⟩)) = isMarked tree k := by
    intro k hk
    rw [List.mem_reverse, List.mem_inits] at hk
    obtain ⟨rest, rfl⟩ := hk
    rw [List.append_assoc] at hfile
    obtain ⟨entries, hdir⟩ := exists_dir_of_descend? hfile (by simp)
    rw [Bool.eq_iff_iff, isMarked, List.any_eq_true, List.any_eq_true]
    refine exists_congr fun m => and_congr_right fun hm => ?_
    rw [h.isFile_join htree hdir (fileName_of_mem_markers m hm)]
  obtain ⟨k, hk⟩ : ∃ k, front.inits.reverse.find? (isMarked tree) = some k := by
    rw [← Option.isSome_iff_exists, List.find?_isSome]
    exact ⟨[], by simp, hmarked⟩
  obtain ⟨rest, rfl⟩ : k <+: front := by
    rw [← List.mem_inits, ← List.mem_reverse]
    exact List.mem_of_find?_eq_some hk
  refine ⟨k, rest, rfl, hk, ?_⟩
  have hp := Disk.ne_empty_of_node? h.found
  have hfind := List.find?_congr hseen
  rw [hk] at hfind
  rw [root?, Path.ancestors_below hp hnames, List.find?_append, List.find?_map]
  simp only [Function.comp_def]
  rw [hfind]
  rfl

/-- A module of a marked tree is classified by names in the tree. -/
theorem innerPath_holds {disk : Disk} {place : Path} {tree : Node} (h : disk.Holds place tree)
    (htree : tree.Proper) (hmarked : isMarked tree [] = true) {front : List OsText} {name : OsText}
    {n : Node} (hfile : tree.descend? (front ++ [name]) = some n) :
    innerPath disk (place.below (front ++ [name])) = .ofNames (innerNames tree front name) := by
  obtain ⟨k, rest, rfl, hk, hroot⟩ := root?_holds h htree hmarked hfile
  have hp := Disk.ne_empty_of_node? h.found
  have hnames := (htree.descend hfile).1
  rw [List.append_assoc] at hnames
  have hbefore : ∀ m ∈ k, FileName m := fun m hm => hnames m (List.mem_append_left _ hm)
  have hbehind : ∀ m ∈ rest ++ [name], FileName m := fun m hm => hnames m (List.mem_append_right _ hm)
  have hplace := Path.below_ne_empty hp hbefore
  have hstrip := Path.stripPrefix?_below (Path.components_trimmed hplace) hplace
    (by simp) hbehind
  rw [innerPath, hroot, List.append_assoc, Path.below_append, Option.bind_some, hstrip, innerNames,
    hk, List.append_assoc]
  simp

end Project

namespace Scan

variable (read : Script.Reader)

/-- What is recorded of a module of a tree. -/
def callsIn (tree : Node) (names : List OsText) : List Call :=
  ((tree.descend? names).bind fun n => n.text?.toOption.map (recordedIn read
    (.ofNames (Project.innerNames tree names.dropLast (names.getLastD ""))) (shown names))).getD []

/-- The calls of a module can be read off the tree. -/
theorem calls_module_holds {disk : Disk} {place : Path} {tree : Node} (h : disk.Holds place tree)
    (htree : tree.Proper) (hmarked : Project.isMarked tree [] = true) {names : List OsText} {n : Node}
    (hfile : tree.descend? names = some n) (hne : names ≠ []) :
    (module read disk (readModule disk) place (place.below names)).1 = callsIn read tree names := by
  have hp := Disk.ne_empty_of_node? h.found
  have hnames := (htree.descend hfile).1
  have hread : (readModule disk (place.below names)).toOption = n.text?.toOption := by
    rw [readModule, Disk.readText, h.node?_below htree hfile]
    change (n.text?.mapError _).toOption = _
    cases n.text? <;> rfl
  obtain ⟨front, name, rfl⟩ := (List.eq_nil_or_concat' names).resolve_left hne
  have hlast : (front ++ [name]).getLastD "" = name := by
    rw [List.getLastD_eq_getLast?, List.getLast?_concat, Option.getD_some]
  rw [calls_module_eq, hread, Project.innerPath_holds h htree hmarked hfile,
    Path.display_below rfl hp hne hnames, callsIn, hfile, List.dropLast_concat, hlast]
  rfl

/-- An analysis of a tree with a marked root can be read off the tree. -/
theorem analyze_holds {disk : Disk} {patterns : List String} {ignore : Ignore} {place : Path}
    {entries : List (OsText × Node)} (hignore : Ignore.ofPatterns patterns = .ok ignore)
    (htree : (Node.dir entries).Proper) (hmarked : Project.isMarked (.dir entries) [] = true)
    (h : disk.Holds place (.dir entries)) :
    ∃ notices, analyzeWith read disk patterns place = .ok
      (⟨(modulesAt ignore (.dir entries)).flatMap (callsIn read (.dir entries)),
        (modulesAt ignore (.dir entries)).length⟩, notices) := by
  obtain ⟨notices, hanalyze⟩ := analyze_eq read hignore h.found
  have hcalls : ((modulesAt ignore (.dir entries)).flatMap fun names =>
      (module read disk (readModule disk) place (place.below names)).1) =
      (modulesAt ignore (.dir entries)).flatMap (callsIn read (.dir entries)) := by
    refine List.flatMap_congr fun names hmem => ?_
    have hne := (named_of_mem_modulesAt htree hmem).1
    obtain ⟨⟨bytes, hfile⟩, -⟩ := (mem_modulesAt_iff htree).mp hmem
    exact calls_module_holds read h htree hmarked hfile hne
  exact ⟨notices, by rw [hanalyze, hcalls]⟩

/-- Wherever a project with a marker file in its root is put, its analysis is the same. -/
theorem analyze_relocated {first second : Disk} {here there : Path} {patterns : List String}
    {ignore : Ignore} {entries : List (OsText × Node)}
    (hignore : Ignore.ofPatterns patterns = .ok ignore) (htree : (Node.dir entries).Proper)
    (hmarker : ∃ m ∈ Project.markers, ∃ bytes, (Node.dir entries).child? m = some (.file bytes))
    (hhere : first.Holds here (.dir entries)) (hthere : second.Holds there (.dir entries)) :
    ∃ found hereNotices thereNotices,
      analyzeWith read first patterns here = .ok (found, hereNotices) ∧
      analyzeWith read second patterns there = .ok (found, thereNotices) := by
  obtain ⟨m, hm, bytes, hfile⟩ := hmarker
  have hmarked : Project.isMarked (.dir entries) [] = true := by
    refine List.any_eq_true.mpr ⟨m, hm, ?_⟩
    simp [Node.descend?, hfile, Node.isFile]
  obtain ⟨hereNotices, hfirst⟩ := analyze_holds read hignore htree hmarked hhere
  obtain ⟨thereNotices, hsecond⟩ := analyze_holds read hignore htree hmarked hthere
  exact ⟨_, hereNotices, thereNotices, hfirst, hsecond⟩

/-- A disk that holds the project below an application directory of another one. -/
def nestedDisk : Disk :=
  ⟨.dir [("app", .dir [("next.config.js", .file []), ("copy", sampleTree)])], ⟨"/app"⟩⟩

/-- The analysis of the project is the same at both places. -/
theorem analyze_relocated_sample : ∃ found hereNotices thereNotices,
    analyze sampleDisk ["gen/**"] ⟨"/repo"⟩ = .ok (found, hereNotices) ∧
    analyze nestedDisk ["gen/**"] ⟨"./copy//"⟩ = .ok (found, thereNotices) := by
  have hhere : sampleDisk.Holds ⟨"/repo"⟩ sampleTree :=
    Disk.holds_of_paths rfl (by decide +kernel)
  have hthere : nestedDisk.Holds ⟨"./copy//"⟩ sampleTree :=
    Disk.holds_of_paths rfl (by decide +kernel)
  obtain ⟨ignore, hignore⟩ : ∃ ignore, Ignore.ofPatterns ["gen/**"] = .ok ignore := ⟨_, rfl⟩
  exact analyze_relocated Script.parse? hignore proper_sampleTree
    ⟨"package.json", by decide, [], rfl⟩ hhere hthere

end Scan

end Crossing
