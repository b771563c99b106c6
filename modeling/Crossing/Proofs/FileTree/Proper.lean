import Crossing.FileTree.Basic
import Crossing.Proofs.Path.Below

/-!
# Trees of named files

The trees that a disk can hold (`Node.Proper`): the entries of a directory have names, and different
ones. Names lead down such a tree (`Node.descend?`), and paths on the disk lead where their names
do: below a directory, to what is there in its tree (`Disk.descend?_of_below`).
-/

namespace Crossing

namespace Node

/-- Whether a disk can hold a tree: each directory in it has entries with different names. -/
inductive Proper : Node → Prop
  | file (bytes : List UInt8) : Proper (.file bytes)
  | sealed : Proper .sealed
  | dir {entries : List (OsText × Node)}
      (distinct : (entries.map Prod.fst).Nodup)
      (named : ∀ e ∈ entries, FileName e.1)
      (nodes : ∀ e ∈ entries, Proper e.2) : Proper (.dir entries)

/-- Whether a node is a directory that can be looked into. -/
def isDir : Node → Bool
  | dir _ => true
  | file _ | sealed => false

/-- A directory that can be looked into is given by its entries. -/
theorem isDir_iff {n : Node} : n.isDir = true ↔ ∃ entries, n = dir entries := by
  cases n <;> simp [isDir]

/-- A directory that can be looked into is neither a file nor sealed. -/
theorem isDir_eq (n : Node) : n.isDir = (!n.isFile && !n.isSealed) := by
  cases n <;> rfl

/-- The node that names lead to. -/
def descend? : List OsText → Node → Option Node
  | [], n => some n
  | name :: names, n => (n.child? name).bind (descend? names)

/-- Under different names, an entry is found by its name. -/
theorem child?_eq_some_iff {entries : List (OsText × Node)} (h : (entries.map Prod.fst).Nodup)
    {name : OsText} {node : Node} :
    (dir entries).child? name = some node ↔ (name, node) ∈ entries := by
  induction entries with
  | nil => simp [child?]
  | cons e entries ih =>
    obtain ⟨hnew, hrest⟩ := List.nodup_cons.mp h
    have ih := ih hrest
    rw [child?] at ih ⊢
    rw [List.find?_cons, List.mem_cons]
    cases hname : e.1 == name with
    | true =>
      rw [beq_iff_eq] at hname
      subst hname
      constructor
      · intro heq
        exact .inl (Option.some.inj heq ▸ rfl)
      · rintro (heq | hmem)
        · exact congrArg some (congrArg Prod.snd heq).symm
        · exact absurd (List.mem_map_of_mem hmem) hnew
    | false =>
      rw [ih]
      refine ⟨.inr, fun hmem => hmem.resolve_left ?_⟩
      rintro rfl
      simp at hname

/-- A child of a directory is one of its entries. -/
theorem mem_of_child? {entries : List (OsText × Node)} {name : OsText} {node : Node}
    (h : (dir entries).child? name = some node) : (name, node) ∈ entries := by
  obtain ⟨e, he, rfl⟩ := Option.map_eq_some_iff.mp h
  have hname : e.1 = name := by simpa using List.find?_some he
  exact hname ▸ List.mem_of_find?_eq_some he

/-- A child of a proper node has the name of a file, and is proper. -/
theorem Proper.child {n m : Node} {name : OsText} (h : n.Proper) (hm : n.child? name = some m) :
    FileName name ∧ m.Proper := by
  cases h with
  | file bytes => cases hm
  | sealed => cases hm
  | dir distinct named nodes =>
    have hmem := mem_of_child? hm
    exact ⟨named _ hmem, nodes _ hmem⟩

/-- Joined names lead where the second ones lead from behind the first ones. -/
theorem descend?_append (names more : List OsText) (n : Node) :
    descend? (names ++ more) n = (descend? names n).bind (descend? more) := by
  induction names generalizing n with
  | nil => rfl
  | cons name names ih =>
    rw [List.cons_append, descend?, descend?, Option.bind_assoc]
    exact congrArg _ (funext ih)

/-- No name leads on from a file. -/
theorem descend?_file {names : List OsText} (bytes : List UInt8) (hne : names ≠ []) :
    descend? names (file bytes) = none := by
  obtain ⟨name, names, rfl⟩ := List.exists_cons_of_ne_nil hne
  rfl

/-- No name leads on from a sealed directory. -/
theorem descend?_sealed {names : List OsText} (hne : names ≠ []) :
    descend? names sealed = none := by
  obtain ⟨name, names, rfl⟩ := List.exists_cons_of_ne_nil hne
  rfl

/-- Only names of entries lead anywhere, and only to what a disk can hold. -/
theorem Proper.descend {n m : Node} {names : List OsText} (h : n.Proper)
    (hm : n.descend? names = some m) : (∀ name ∈ names, FileName name) ∧ m.Proper := by
  induction names generalizing n with
  | nil =>
    cases hm
    exact ⟨by simp, h⟩
  | cons name names ih =>
    obtain ⟨k, hk, hm⟩ := Option.bind_eq_some_iff.mp hm
    obtain ⟨hname, hproper⟩ := h.child hk
    obtain ⟨hnames, hm⟩ := ih hproper hm
    exact ⟨List.forall_mem_cons.mpr ⟨hname, hnames⟩, hm⟩

end Node

namespace Place

/-- Whether all that a walk came by can be on a disk. -/
def Proper (p : Place) : Prop :=
  p.root.Proper ∧ ∀ e ∈ p.trail, e.2.Proper

/-- The node at a proper place is proper. -/
theorem Proper.node {p : Place} (h : p.Proper) : p.node.Proper := by
  unfold Place.node
  split
  · next e trail heq => exact h.2 _ (by rw [heq]; exact List.mem_cons_self)
  · exact h.1

/-- What a step leads to: from a directory to an entry of it, or back. -/
theorem step_cases {p q : Place} {c : Path.Component} (h : p.step c = .ok q) :
    p.node.isDir = true ∧
      ((c = .root ∧ q = ⟨p.root, []⟩) ∨ (c = .here ∧ q = p) ∨
        (c = .up ∧ q = ⟨p.root, p.trail.tail⟩) ∨
        ∃ s n, c = .name s ∧ s.length ≤ maxName ∧ p.node.child? ⟨s⟩ = some n ∧
          q = ⟨p.root, (⟨s⟩, n) :: p.trail⟩) := by
  unfold step at h
  split at h
  · cases h
  split at h
  · cases h
  · next hfile hsealed =>
    refine ⟨by simp [Node.isDir_eq, hfile, hsealed], ?_⟩
    split at h
    · exact .inl ⟨rfl, (Except.ok.inj h).symm⟩
    · exact .inr (.inl ⟨rfl, (Except.ok.inj h).symm⟩)
    · exact .inr (.inr (.inl ⟨rfl, (Except.ok.inj h).symm⟩))
    · next s =>
      split at h
      · cases h
      · next hwidth =>
        split at h
        · next n hn =>
          exact .inr (.inr (.inr ⟨s, n, rfl, Nat.le_of_not_gt hwidth, hn, (Except.ok.inj h).symm⟩))
        · cases h

/-- A step leads to each entry whose name is short enough. -/
theorem step_name {p : Place} {s : Path.Segment} {n : Node} (hwidth : s.length ≤ maxName)
    (hchild : p.node.child? ⟨s⟩ = some n) :
    p.step (.name s) = .ok ⟨p.root, (⟨s⟩, n) :: p.trail⟩ := by
  have hfile : p.node.isFile = false ∧ p.node.isSealed = false := by
    cases hnode : p.node with
    | dir entries => exact ⟨rfl, rfl⟩
    | file bytes =>
      rw [hnode] at hchild
      cases hchild
    | sealed =>
      rw [hnode] at hchild
      cases hchild
  simp only [step, hfile.1, hfile.2, Bool.false_eq_true, if_false, if_neg (Nat.not_lt.mpr hwidth),
    hchild]

/-- A step from a proper place leads to a proper place. -/
theorem Proper.step {p q : Place} {c : Path.Component} (hp : p.Proper) (h : p.step c = .ok q) :
    q.Proper := by
  obtain ⟨-, ⟨-, rfl⟩ | ⟨-, rfl⟩ | ⟨-, rfl⟩ | ⟨s, n, -, -, hn, rfl⟩⟩ := step_cases h
  · exact ⟨hp.1, by simp⟩
  · exact hp
  · exact ⟨hp.1, fun e he => hp.2 e (List.mem_of_mem_tail he)⟩
  · exact ⟨hp.1, List.forall_mem_cons.mpr ⟨(hp.node.child hn).2, hp.2⟩⟩

/-- A walk goes one step, and on from there. -/
theorem walk_cons_iff {p q : Place} {c : Path.Component} {cs : List Path.Component} :
    (c :: cs).foldlM step p = .ok q ↔ ∃ r, p.step c = .ok r ∧ cs.foldlM step r = .ok q := by
  rw [List.foldlM_cons]
  cases p.step c with
  | error e => exact ⟨nofun, fun ⟨_, hc, _⟩ => nomatch hc⟩
  | ok r =>
    constructor
    · exact fun h => ⟨r, rfl, h⟩
    · rintro ⟨_, hc, h⟩
      cases hc
      exact h

/-- What each step keeps is kept by a walk. -/
theorem of_walk {P : Place → Prop}
    (hstep : ∀ {p q : Place} {c : Path.Component}, P p → p.step c = .ok q → P q) {p q : Place}
    {cs : List Path.Component} (hp : P p) (h : cs.foldlM step p = .ok q) : P q := by
  induction cs generalizing p with
  | nil =>
    cases h
    exact hp
  | cons c cs ih =>
    obtain ⟨r, hc, h⟩ := walk_cons_iff.mp h
    exact ih (hstep hp hc) h

/-- A walk stays on the disk. -/
theorem Proper.walk {p q : Place} {cs : List Path.Component} (hp : p.Proper)
    (h : cs.foldlM Place.step p = .ok q) : q.Proper :=
  of_walk Proper.step hp h

/-- Names lead a walk down the tree. -/
theorem descend?_of_walk {p q : Place} {names : List OsText}
    (h : (names.map fun n => Path.Component.name n.bytes).foldlM step p = .ok q) :
    p.node.descend? names = some q.node := by
  induction names generalizing p with
  | nil =>
    cases h
    rfl
  | cons n names ih =>
    rw [List.map_cons] at h
    obtain ⟨r, hc, h⟩ := walk_cons_iff.mp h
    obtain ⟨-, ⟨hc, -⟩ | ⟨hc, -⟩ | ⟨hc, -⟩ | ⟨s, m, hs, -, hm, rfl⟩⟩ := step_cases hc
    · cases hc
    · cases hc
    · cases hc
    · cases hs
      rw [Node.descend?, hm, Option.bind_some]
      exact ih h

end Place

namespace Disk

/-- Whether a path can be given to the system. -/
structure Fits (p : Path) : Prop where
  ne_empty : p.text.bytes ≠ []
  no_nul : 0 ∉ p.text.bytes
  short : p.text.bytes.length ≤ maxPath

/-- A path leads to where its components do. -/
theorem locate_eq_ok_iff {d : Disk} {p : Path} {place : Place} :
    d.locate p = .ok place ↔ Fits p ∧
      (d.current.join p).components.foldlM Place.step ⟨d.root, []⟩ = .ok place ∧
      (namesDirectory p && place.node.isFile) = false := by
  unfold locate
  split
  · next hempty =>
    refine ⟨nofun, fun ⟨hfits, _⟩ => absurd (by simpa using hempty) hfits.ne_empty⟩
  split
  · next hnul =>
    refine ⟨nofun, fun ⟨hfits, _⟩ => absurd (by simpa using hnul) hfits.no_nul⟩
  split
  · next hlong => exact ⟨nofun, fun ⟨hfits, _⟩ => absurd hfits.short (Nat.not_le_of_gt hlong)⟩
  · next hempty hnul hshort =>
    have hfits : Fits p := ⟨by simpa using hempty, by simpa using hnul, Nat.le_of_not_gt hshort⟩
    cases hwalk : (d.current.join p).components.foldlM Place.step ⟨d.root, []⟩ with
    | error e => exact ⟨nofun, nofun⟩
    | ok there =>
      cases hdir : namesDirectory p && there.node.isFile with
      | true =>
        simp only [hdir, bind, Except.bind, if_true]
        refine ⟨nofun, ?_⟩
        rintro ⟨-, heq, hnot⟩
        cases heq
        rw [hdir] at hnot
        cases hnot
      | false =>
        simp only [hdir, bind, Except.bind, pure, Except.pure, Bool.false_eq_true, if_false]
        refine ⟨fun heq => ⟨hfits, heq, ?_⟩, fun h => h.2.1⟩
        cases heq
        exact hdir

/-- The node at a path is the one at the place that the path leads to. -/
theorem node?_eq_ok_iff {d : Disk} {p : Path} {n : Node} :
    d.node? p = .ok n ↔ ∃ place, d.locate p = .ok place ∧ place.node = n := by
  unfold node?
  cases d.locate p <;> simp [Except.map]

/-- What a path leads to can be on a disk. -/
theorem proper_of_node? {d : Disk} {p : Path} {n : Node} (hd : d.root.Proper)
    (h : d.node? p = .ok n) : n.Proper := by
  obtain ⟨place, hplace, rfl⟩ := node?_eq_ok_iff.mp h
  have hstart : Place.Proper ⟨d.root, []⟩ := ⟨hd, by simp⟩
  exact (hstart.walk (locate_eq_ok_iff.mp hplace).2.1).node

/-- The empty path leads nowhere. -/
theorem ne_empty_of_node? {d : Disk} {p : Path} {n : Node} (h : d.node? p = .ok n) :
    p.text.bytes ≠ [] := by
  obtain ⟨place, hplace, -⟩ := node?_eq_ok_iff.mp h
  exact (locate_eq_ok_iff.mp hplace).1.ne_empty

/-- A path below a directory leads to what the names lead to from there. -/
theorem descend?_of_below {d : Disk} {p : Path} {n m : Node} {names : List OsText}
    (hnames : ∀ name ∈ names, FileName name) (hn : d.node? p = .ok n)
    (hm : d.node? (p.below names) = .ok m) : n.descend? names = some m := by
  have hp := ne_empty_of_node? hn
  obtain ⟨there, hthere, rfl⟩ := node?_eq_ok_iff.mp hn
  obtain ⟨end_, hend, rfl⟩ := node?_eq_ok_iff.mp hm
  obtain ⟨-, hwalk, -⟩ := locate_eq_ok_iff.mp hthere
  obtain ⟨-, hfar, -⟩ := locate_eq_ok_iff.mp hend
  rw [Path.components_join_below d.current hp hnames, List.foldlM_append, hwalk] at hfar
  exact Place.descend?_of_walk hfar

end Disk

end Crossing
