import Crossing.Proofs.FileTree.Proper

/-!
# A tree at a place

A tree stands at a place of a disk if it is found there and the system takes the paths into it
(`Disk.Holds`). Each path below the place then leads to what its names lead to in the tree
(`Holds.node?_below`), and whether there is a file in one of its directories is seen in the tree
(`Holds.isFile_join`), whatever the place is and however it is written.
-/

namespace Crossing

open Text

namespace Node

mutual

/-- All names that lead somewhere in a tree. -/
def paths : Node → List (List OsText)
  | file _ | sealed => [[]]
  | dir entries => [] :: pathsIn entries

/-- All names that lead to an entry or below one. -/
def pathsIn : List (OsText × Node) → List (List OsText)
  | [] => []
  | (name, n) :: rest => (paths n).map (name :: ·) ++ pathsIn rest

end

/-- The names that lead into an entry lead on from there. -/
theorem mem_pathsIn {entries : List (OsText × Node)} {name : OsText} {n : Node}
    {names : List OsText} (hentry : (name, n) ∈ entries) (hnames : names ∈ n.paths) :
    name :: names ∈ pathsIn entries := by
  induction entries with
  | nil => cases hentry
  | cons e entries ih =>
    obtain ⟨other, m⟩ := e
    rw [pathsIn, List.mem_append]
    rcases List.mem_cons.mp hentry with heq | hentry
    · cases heq
      exact .inl (List.mem_map_of_mem hnames)
    · exact .inr (ih hentry)

/-- Names that lead somewhere are among the paths of a node. -/
theorem mem_paths {n m : Node} {names : List OsText} (h : n.descend? names = some m) :
    names ∈ n.paths := by
  induction names generalizing n with
  | nil => cases n <;> simp [paths]
  | cons name names ih =>
    obtain ⟨k, hk, hm⟩ := Option.bind_eq_some_iff.mp h
    cases n with
    | file bytes => cases hk
    | sealed => cases hk
    | dir entries =>
      rw [paths]
      exact List.mem_cons_of_mem _ (mem_pathsIn (mem_of_child? hk) (ih hm))

end Node

namespace Disk

/-- Whether a tree stands at a place. Besides that it is found there, this says that the system's
limits on the lengths of paths and names are kept: under a path that is too long for the system, part
of the tree would be out of reach. Which names and which other files there are around the place does
not matter. -/
structure Holds (d : Disk) (place : Path) (tree : Node) : Prop where
  /-- The tree is what the place leads to. -/
  found : d.node? place = .ok tree
  /-- The paths into the tree can be given to the system, which takes none that is too long. -/
  fits : ∀ names n, tree.descend? names = some n → Fits (place.below names)
  /-- Nor does it take longer names than those in the tree. -/
  short : ∀ names n, tree.descend? names = some n →
    ∀ name ∈ names, name.bytes.length ≤ Place.maxName

instance (p : Path) : Decidable (Fits p) :=
  decidable_of_iff (p.text.bytes ≠ [] ∧ 0 ∉ p.text.bytes ∧ p.text.bytes.length ≤ maxPath)
    ⟨fun ⟨h₁, h₂, h₃⟩ => ⟨h₁, h₂, h₃⟩, fun ⟨h₁, h₂, h₃⟩ => ⟨h₁, h₂, h₃⟩⟩

/-- A tree stands where it is found if none of its paths and names is too long there. -/
theorem holds_of_paths {d : Disk} {place : Path} {tree : Node} (h : d.node? place = .ok tree)
    (hpaths : ∀ names ∈ tree.paths, Fits (place.below names) ∧
      ∀ name ∈ names, name.bytes.length ≤ Place.maxName) : d.Holds place tree :=
  ⟨h, fun _ _ hn => (hpaths _ (Node.mem_paths hn)).1, fun _ _ hn => (hpaths _ (Node.mem_paths hn)).2⟩

/-- The start of a text that the system takes is taken too. -/
theorem Fits.of_isPrefix {p q : Path} (hp : Fits p) (hq : q.text.bytes ≠ [])
    (h : q.text.bytes <+: p.text.bytes) : Fits q := by
  refine ⟨hq, fun hmem => hp.no_nul (h.mem hmem), ?_⟩
  obtain ⟨rest, hrest⟩ := h
  have hshort := hp.short
  rw [← hrest, List.length_append] at hshort
  exact Nat.le_trans (Nat.le_add_right _ _) hshort

/-- A directory is found without what is silent at the end of its path, too. -/
theorem node?_trimmed {d : Disk} {p : Path} {entries : List (OsText × Node)}
    (h : d.node? p = .ok (.dir entries)) : d.node? p.trimmed = .ok (.dir entries) := by
  have hp := ne_empty_of_node? h
  obtain ⟨place, hplace, hnode⟩ := node?_eq_ok_iff.mp h
  obtain ⟨hfits, hwalk, -⟩ := locate_eq_ok_iff.mp hplace
  refine node?_eq_ok_iff.mpr ⟨place, locate_eq_ok_iff.mpr ⟨?_, ?_, ?_⟩, hnode⟩
  · exact hfits.of_isPrefix (Path.trimmed_ne_empty hp) p.text_trimmed_isPrefix
  · rw [Path.components_join_congr d.current (Path.components_trimmed hp)]
    exact hwalk
  · rw [hnode]
    exact Bool.and_false _

/-- What is in a directory is found without what is silent at the end of the directory's path. -/
theorem node?_trimmed_join {d : Disk} {p : Path} {name : OsText} {n : Node} (hp : p.text.bytes ≠ [])
    (hname : FileName name) (h : d.node? (p.join ⟨name⟩) = .ok n) :
    d.node? (p.trimmed.join ⟨name⟩) = .ok n := by
  have htrimmed := Path.trimmed_ne_empty hp
  have habsolute := Path.isAbsolute_name hname
  have hdirectory {q : Path} (hq : q.text.bytes ≠ []) : namesDirectory (q.join ⟨name⟩) = false := by
    rw [namesDirectory, Path.segments_join hq habsolute, Path.segments_name hname,
      List.getLast?_concat]
    exact hname.not_silent
  obtain ⟨place, hplace, hnode⟩ := node?_eq_ok_iff.mp h
  obtain ⟨hfits, hwalk, -⟩ := locate_eq_ok_iff.mp hplace
  refine node?_eq_ok_iff.mpr ⟨place, locate_eq_ok_iff.mpr ⟨?_, ?_, ?_⟩, hnode⟩
  · obtain ⟨rest, hrest⟩ := p.stem_trimmed_isPrefix
    have hlong := Path.bytes_join hp habsolute
    have hshort := Path.bytes_join htrimmed habsolute
    refine ⟨Path.join_ne_empty htrimmed habsolute, fun hnul => hfits.no_nul ?_, ?_⟩
    · rw [hlong, ← hrest]
      rw [hshort] at hnul
      exact (List.mem_append.mp hnul).elim
        (fun hmem => List.mem_append_left _ (List.mem_append_left rest hmem))
        (fun hmem => List.mem_append_right _ hmem)
    · have hwidth := hfits.short
      rw [hlong, ← hrest, List.length_append, List.length_append] at hwidth
      rw [hshort, List.length_append]
      omega
  · have hcomponents : (p.trimmed.join ⟨name⟩).components = (p.join ⟨name⟩).components := by
      rw [Path.components_join htrimmed habsolute, Path.components_join hp habsolute,
        Path.components_trimmed hp]
    rw [Path.components_join_congr d.current hcomponents]
    exact hwalk
  · rw [hdirectory htrimmed, Bool.false_and]

/-- Names of the tree lead a walk down from where the tree is found. -/
theorem walk_of_descend? {place : Place} {n : Node} {names : List OsText}
    (h : place.node.descend? names = some n)
    (hshort : ∀ name ∈ names, name.bytes.length ≤ Place.maxName) :
    ∃ far, (names.map fun n => Path.Component.name n.bytes).foldlM Place.step place = .ok far ∧
      far.node = n := by
  induction names generalizing place with
  | nil => exact ⟨place, rfl, Option.some.inj h⟩
  | cons name names ih =>
    obtain ⟨m, hm, hn⟩ := Option.bind_eq_some_iff.mp h
    have hstep : place.step (.name name.bytes) = .ok ⟨place.root, (name, m) :: place.trail⟩ :=
      Place.step_name (hshort name List.mem_cons_self) hm
    obtain ⟨far, hfar, hnode⟩ := @ih ⟨place.root, (name, m) :: place.trail⟩ hn
      fun name hname => hshort name (List.mem_cons_of_mem _ hname)
    exact ⟨far, Place.walk_cons_iff.mpr ⟨_, hstep, hfar⟩, hnode⟩

/-- A path below the place leads to what its names lead to in the tree. -/
theorem Holds.node?_below {d : Disk} {place : Path} {tree : Node} (h : d.Holds place tree)
    (htree : tree.Proper) {names : List OsText} {n : Node} (hn : tree.descend? names = some n) :
    d.node? (place.below names) = .ok n := by
  by_cases hne : names = []
  · subst hne
    cases hn
    exact h.found
  have hp := ne_empty_of_node? h.found
  have hnames := (htree.descend hn).1
  obtain ⟨here, hhere, rfl⟩ := node?_eq_ok_iff.mp h.found
  obtain ⟨-, hwalk, -⟩ := locate_eq_ok_iff.mp hhere
  obtain ⟨far, hfar, hnode⟩ := walk_of_descend? hn (h.short names n hn)
  refine node?_eq_ok_iff.mpr ⟨far, locate_eq_ok_iff.mpr ⟨h.fits names n hn, ?_, ?_⟩, hnode⟩
  · rw [Path.components_join_below d.current hp hnames, List.foldlM_append, hwalk]
    exact hfar
  · have hlast := hnames _ (List.getLast_mem hne)
    rw [namesDirectory, Path.below_eq_join hp hne hnames,
      Path.segments_join hp (Path.isAbsolute_ofNames hne hnames), Path.segments_ofNames hne hnames,
      ← List.dropLast_concat_getLast hne, List.map_append, ← List.append_assoc]
    simp [hlast.not_silent]

/-- Whether there is a file of that name in a directory of the tree is seen in the tree. -/
theorem Holds.isFile_join {d : Disk} {place : Path} {tree : Node} (h : d.Holds place tree)
    (htree : tree.Proper) {front : List OsText} {entries : List (OsText × Node)}
    (hfront : tree.descend? front = some (.dir entries)) {name : OsText} (hname : FileName name) :
    d.isFile ((place.below front).trimmed.join ⟨name⟩) =
      ((tree.descend? (front ++ [name])).map Node.isFile).getD false := by
  have hdir := h.node?_below htree hfront
  have hp := Path.below_ne_empty (ne_empty_of_node? h.found) (htree.descend hfront).1
  cases hchild : tree.descend? (front ++ [name]) with
  | some n =>
    have hn := h.node?_below htree hchild
    rw [Path.below_concat] at hn
    rw [isFile, node?_trimmed_join hp hname hn]
    rfl
  | none =>
    cases hnode : d.node? ((place.below front).trimmed.join ⟨name⟩) with
    | error e =>
      rw [isFile, hnode]
      rfl
    | ok n =>
      have hone : ∀ m ∈ [name], FileName m := by simpa using hname
      have hfound := descend?_of_below hone (node?_trimmed hdir) hnode
      rw [Node.descend?_append, hfront, Option.bind_some, hfound] at hchild
      cases hchild

end Disk

end Crossing
