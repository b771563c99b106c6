import Crossing.Proofs.FileTree.Proper

/-!
# A file that is written

Writing a text into a file changes what is at one place of the tree and nothing else, though it may
make the file (`Disk.writes_of_writeText`). The way to the file goes through directories only, which
are still there afterwards, so the path that was written to leads to the new file
(`Place.Sound.follow`).
-/

namespace Crossing

open Text

namespace Node

/-- A file, or a directory without its entries. -/
def bare : Node → Node
  | file bytes => file bytes
  | dir _ => dir []
  | sealed => sealed

/-- What is at the end of names: a file, or a directory, whose entries are left out. -/
def at? (names : List OsText) (n : Node) : Option Node :=
  (n.descend? names).map bare

/-- The entry that was put is found under its name. -/
theorem child?_putEntry_self (name : OsText) (node : Node) (entries : List (OsText × Node)) :
    (dir (putEntry name node entries)).child? name = some node := by
  induction entries with
  | nil => simp [putEntry, child?]
  | cons e entries ih =>
    obtain ⟨other, old⟩ := e
    rw [putEntry]
    split
    · next heq => simp [child?, heq]
    · next hne =>
      have hother : (other == name) = false := by simpa using hne
      simp only [child?, List.find?_cons, hother] at ih ⊢
      exact ih

/-- The other entries stay. -/
theorem child?_putEntry_of_ne {name other : OsText} (hne : other ≠ name) (node : Node)
    (entries : List (OsText × Node)) :
    (dir (putEntry name node entries)).child? other = (dir entries).child? other := by
  induction entries with
  | nil => simp [putEntry, child?, Ne.symm hne]
  | cons e entries ih =>
    obtain ⟨here, old⟩ := e
    rw [putEntry]
    split
    · next heq =>
      have hhere : (here == other) = false := by simpa [heq] using Ne.symm hne
      simp [child?, hhere]
    · next hnot =>
      cases hhere : here == other with
      | true => simp [child?, hhere]
      | false =>
        simp only [child?, List.find?_cons, hhere] at ih ⊢
        exact ih

/-- Without its entries a node is an empty directory exactly if it is a directory. -/
theorem bare_eq_dir_iff {n : Node} : n.bare = dir [] ↔ n.isDir = true := by
  cases n <;> simp [bare, isDir]

/-- Without its entries a node is a file exactly if it is this file. -/
theorem bare_eq_file_iff {n : Node} {bytes : List UInt8} : n.bare = file bytes ↔ n = file bytes := by
  cases n <;> simp [bare]

/-- What is at a place is what is at the rest of the place in a child. -/
theorem at?_cons (name : OsText) (names : List OsText) (n : Node) :
    n.at? (name :: names) = (n.child? name).bind (at? names) := by
  rw [at?, descend?, Option.map_bind]
  rfl

/-- Nothing is below a file. -/
theorem at?_file (bytes : List UInt8) {names : List OsText} (hne : names ≠ []) :
    (file bytes).at? names = none := by
  rw [at?, descend?_file bytes hne]
  rfl

/-- Nor is anything seen below a sealed directory. -/
theorem at?_sealed {names : List OsText} (hne : names ≠ []) : sealed.at? names = none := by
  rw [at?, descend?_sealed hne]
  rfl

/-- What is one name further than a directory is an entry of it. -/
theorem exists_child?_of_at? {front : List OsText} {last : OsText} {n m k : Node}
    (hfront : n.descend? front = some m) (h : n.at? (front ++ [last]) = some k) :
    ∃ entry, m.child? last = some entry ∧ entry.bare = k := by
  rw [at?, descend?_append, hfront, Option.bind_some, Option.map_eq_some_iff] at h
  obtain ⟨entry, hentry, hbare⟩ := h
  obtain ⟨entry', hchild, heq⟩ := Option.bind_eq_some_iff.mp hentry
  cases heq
  exact ⟨entry, hchild, hbare⟩

/-- Only one place of a tree is another one after a file was put into a directory of it, under a name
that no directory there has. -/
theorem at?_put {front : List OsText} {last : OsText} {n : Node} {entries : List (OsText × Node)}
    (hfront : n.descend? front = some (dir entries))
    (hlast : ∀ below, (dir entries).child? last ≠ some (dir below)) (bytes : List UInt8)
    (names : List OsText) : (n.put (front ++ [last]) (file bytes)).at? names =
      if names = front ++ [last] then some (file bytes) else n.at? names := by
  induction front generalizing n names with
  | nil =>
    cases hfront
    cases names with
    | nil => rfl
    | cons name names =>
      rw [List.nil_append, put, at?_cons, at?_cons, put]
      by_cases hname : name = last
      · -- Neither the new file nor what was there before has anything below it.
        subst hname
        rw [child?_putEntry_self, Option.bind_some]
        cases names with
        | nil => rw [if_pos rfl]; rfl
        | cons next names =>
          rw [at?_file bytes (List.cons_ne_nil _ _), if_neg (by simp)]
          cases hold : (dir entries).child? name with
          | none => rfl
          | some old =>
            cases old with
            | file old => rw [Option.bind_some, at?_file old (List.cons_ne_nil _ _)]
            | sealed => rw [Option.bind_some, at?_sealed (List.cons_ne_nil _ _)]
            | dir below => exact absurd hold (hlast below)
      · rw [child?_putEntry_of_ne hname, if_neg (by simp [hname])]
  | cons here front ih =>
    obtain ⟨m, hm, hrest⟩ := Option.bind_eq_some_iff.mp hfront
    cases n with
    | file old => cases hm
    | sealed => cases hm
    | dir siblings =>
      cases names with
      | nil => rfl
      | cons name names =>
        rw [List.cons_append, put, at?_cons, at?_cons, hm, Option.getD_some]
        by_cases hname : name = here
        · subst hname
          rw [child?_putEntry_self, hm, Option.bind_some, Option.bind_some, ih hrest]
          simp
        · rw [child?_putEntry_of_ne hname, if_neg (by simp [hname])]

/-- Whether the directories of a tree are directories of another one. -/
def KeepsDirs (n m : Node) : Prop :=
  ∀ names, n.at? names = some (dir []) → m.at? names = some (dir [])

/-- A file that is put where no directory is takes the place of none. -/
theorem keepsDirs_put {front : List OsText} {last : OsText} {n : Node}
    {entries : List (OsText × Node)} (hfront : n.descend? front = some (dir entries))
    (hlast : ∀ below, (dir entries).child? last ≠ some (dir below)) (bytes : List UInt8) :
    n.KeepsDirs (n.put (front ++ [last]) (file bytes)) := by
  intro names hthere
  rw [at?_put hfront hlast]
  split
  · next heq =>
    obtain ⟨entry, hentry, hbare⟩ := exists_child?_of_at? hfront (heq ▸ hthere)
    cases entry with
    | file old => cases hbare
    | sealed => cases hbare
    | dir below => exact absurd hentry (hlast below)
  · exact hthere

end Node

namespace Place

/-- The way to an entry of a directory is the way to the directory, and the name of the entry. -/
theorem names_down (root : Node) (trail : List (OsText × Node)) (name : OsText) (n : Node) :
    names ⟨root, (name, n) :: trail⟩ = names ⟨root, trail⟩ ++ [name] := by
  simp [names]

/-- The way to the directory around a place is the way to the place without the last name. -/
theorem names_up (p : Place) : names ⟨p.root, p.trail.tail⟩ = p.names.dropLast := by
  simp [names, List.map_tail]

/-- Whether the nodes of a walk are those that its names lead to, one after the other. -/
def Traced (root : Node) : List (OsText × Node) → Prop
  | [] => True
  | (name, n) :: trail => Traced root trail ∧ (node ⟨root, trail⟩).child? name = some n

/-- The names of a walk lead to where it has come. -/
theorem Traced.descend? {root : Node} {trail : List (OsText × Node)} (h : Traced root trail) :
    root.descend? (names ⟨root, trail⟩) = some (node ⟨root, trail⟩) := by
  induction trail with
  | nil => rfl
  | cons e trail ih =>
    obtain ⟨name, n⟩ := e
    rw [names_down, Node.descend?_append, ih h.1, Option.bind_some, Node.descend?, h.2]
    rfl

/-- Whether a place was come to by a walk through a tree. -/
structure Sound (root : Node) (p : Place) : Prop where
  root_eq : p.root = root
  traced : Traced root p.trail

/-- The names that a walk came by lead to its place. -/
theorem Sound.descend? {root : Node} {p : Place} (h : p.Sound root) :
    root.descend? p.names = some p.node := by
  obtain ⟨rfl, htraced⟩ := h
  exact htraced.descend?

/-- At the names of a sound place there is its node. -/
theorem Sound.at? {root : Node} {p : Place} (h : p.Sound root) :
    root.at? p.names = some p.node.bare := by
  rw [Node.at?, h.descend?]
  rfl

/-- A step of a walk through a tree goes on through it. -/
theorem Sound.step {root : Node} {p q : Place} {c : Path.Component} (hp : p.Sound root)
    (h : p.step c = .ok q) : q.Sound root := by
  obtain ⟨hroot, htraced⟩ := hp
  obtain ⟨-, ⟨-, rfl⟩ | ⟨-, rfl⟩ | ⟨-, rfl⟩ | ⟨s, n, -, -, hn, rfl⟩⟩ := step_cases h
  · exact ⟨hroot, trivial⟩
  · exact ⟨hroot, htraced⟩
  · refine ⟨hroot, ?_⟩
    cases htrail : p.trail with
    | nil => trivial
    | cons e trail =>
      rw [htrail] at htraced
      exact htraced.1
  · subst hroot
    exact ⟨rfl, htraced, hn⟩

/-- A walk that starts in a tree stays in it. -/
theorem Sound.walk {root : Node} {p q : Place} {cs : List Path.Component} (hp : p.Sound root)
    (h : cs.foldlM Place.step p = .ok q) : q.Sound root :=
  of_walk Sound.step hp h

/-- A walk that ends in a directory has come by nothing but directories. -/
theorem isDir_of_walk {p q : Place} {cs : List Path.Component}
    (h : cs.foldlM Place.step p = .ok q) (hq : q.node.isDir = true) : p.node.isDir = true := by
  cases cs with
  | nil =>
    cases h
    exact hq
  | cons c cs =>
    obtain ⟨r, hc, -⟩ := walk_cons_iff.mp h
    exact (step_cases hc).1

section Follow

variable {root root' : Node} (hkeeps : root.KeepsDirs root')

include hkeeps

/-- Where a walk has come to a directory, another tree that keeps the directories has one too. -/
theorem Sound.isDir_of_names {p p' : Place} (hp : p.Sound root) (hp' : p'.Sound root')
    (hnames : p'.names = p.names) (hdir : p.node.isDir = true) : p'.node.isDir = true := by
  have hthere := hkeeps p.names (by rw [hp.at?, Node.bare_eq_dir_iff.mpr hdir])
  rw [← hnames, hp'.at?] at hthere
  exact Node.bare_eq_dir_iff.mp (Option.some.inj hthere)

/-- A step to a directory can be made in a tree that keeps the directories. -/
theorem Sound.follow_step {p p' q : Place} {c : Path.Component} (hp : p.Sound root)
    (hp' : p'.Sound root') (hnames : p'.names = p.names) (h : p.step c = .ok q)
    (hq : q.node.isDir = true) : ∃ q', p'.step c = .ok q' ∧ q'.names = q.names := by
  have hsound := hp.step h
  obtain ⟨hdir, hcases⟩ := step_cases h
  have hdir' := hp.isDir_of_names hkeeps hp' hnames hdir
  obtain ⟨hfile', hsealed'⟩ : p'.node.isFile = false ∧ p'.node.isSealed = false := by
    rw [Node.isDir_eq, Bool.and_eq_true] at hdir'
    simpa using hdir'
  obtain ⟨rfl, rfl⟩ | ⟨rfl, rfl⟩ | ⟨rfl, rfl⟩ | ⟨s, n, rfl, hwidth, hn, rfl⟩ := hcases
  · exact ⟨⟨p'.root, []⟩, by simp [Place.step, hfile', hsealed'], rfl⟩
  · exact ⟨p', by simp [Place.step, hfile', hsealed'], hnames⟩
  · exact ⟨⟨p'.root, p'.trail.tail⟩, by simp [Place.step, hfile', hsealed'],
      by rw [names_up, names_up, hnames]⟩
  · -- The entry that the step leads to is a directory, so the other tree has it.
    have hthere := hkeeps _ (by rw [hsound.at?, Node.bare_eq_dir_iff.mpr hq])
    rw [names_down] at hthere
    obtain ⟨entry, hentry, -⟩ := Node.exists_child?_of_at? (hnames ▸ hp'.descend?) hthere
    refine ⟨_, step_name hwidth hentry, ?_⟩
    rw [names_down, names_down]
    exact congrArg (· ++ [⟨s⟩]) hnames

/-- A walk to a directory can be made in a tree that keeps the directories. -/
theorem Sound.follow {p p' q : Place} {cs : List Path.Component} (hp : p.Sound root)
    (hp' : p'.Sound root') (hnames : p'.names = p.names) (h : cs.foldlM Place.step p = .ok q)
    (hq : q.node.isDir = true) :
    ∃ q', cs.foldlM Place.step p' = .ok q' ∧ q'.names = q.names := by
  induction cs generalizing p p' with
  | nil =>
    cases h
    exact ⟨p', rfl, hnames⟩
  | cons c cs ih =>
    -- All that the walk comes by is directories, so each step can be followed.
    obtain ⟨r, hc, h⟩ := walk_cons_iff.mp h
    obtain ⟨r', hr', hnames'⟩ := hp.follow_step hkeeps hp' hnames hc (isDir_of_walk h hq)
    obtain ⟨q', hq', hend⟩ := ih (hp.step hc) (hp'.step hr') hnames' h
    exact ⟨q', walk_cons_iff.mpr ⟨r', hr', hq'⟩, hend⟩

end Follow

end Place

namespace Disk

/-- A file that can be written stands in a directory, under a name that no directory there has. -/
theorem of_writeText {d after : Disk} {p : Path} {text : String}
    (h : d.writeText p text = .ok after) :
    ∃ front s above, Fits p ∧ (d.current.join p).components = front ++ [.name s] ∧
      front.foldlM Place.step ⟨d.root, []⟩ = .ok above ∧ above.node.isDir = true ∧
      namesDirectory p = false ∧ s.length ≤ Place.maxName ∧
      (∀ below, above.node.child? (⟨s⟩) ≠ some (.dir below)) ∧
      after = { d with
        root := d.root.put (above.names ++ [⟨s⟩]) (.file (Utf8.encode text.toList)) } := by
  simp only [writeText, bind, Except.bind, throw, throwThe, MonadExceptOf.throw] at h
  split at h
  · cases h
  next hempty =>
  split at h
  · cases h
  next hnul =>
  split at h
  · cases h
  next hshort =>
  have hfits : Fits p := ⟨by simpa using hempty, by simpa using hnul, Nat.le_of_not_gt hshort⟩
  split at h
  · cases h
  next above hwalk =>
  split at h
  · cases h
  next hfile =>
  split at h
  · cases h
  next hsealed =>
  split at h
  · next s hlast =>
    cases hdir : namesDirectory p with
    | true =>
      simp only [hdir, if_true] at h
      repeat' split at h
      all_goals cases h
    | false =>
      -- A path with a dot behind it names a directory.
      have hdot : p.segments.getLast? ≠ some [Path.dot] := by
        intro hdot
        rw [namesDirectory, hdot] at hdir
        exact absurd hdir (by decide)
      simp only [hdir, if_neg hdot, Bool.false_eq_true, if_false] at h
      split at h
      · cases h
      next hwidth =>
      split at h
      · cases h
      · cases h
      next hchild _ =>
      refine ⟨_, s, above, hfits, (List.dropLast_append_getLast? _ hlast).symm, hwalk, ?_, rfl,
        Nat.le_of_not_gt hwidth, hchild, (Except.ok.inj h).symm⟩
      simp [Node.isDir_eq, hfile, hsealed]
  · cases h

/-- Whether the only difference between two disks is that in one of them a text is in the file that a
path leads to. -/
structure Writes (before : Disk) (p : Path) (text : String) (after : Disk) : Prop where
  /-- Paths start from the same directory. -/
  current : after.current = before.current
  /-- The path leads to the text, and everywhere else is what was there before. -/
  place : ∃ place, after.locate p = .ok place ∧
    place.node = .file (Utf8.encode text.toList) ∧
    ∀ names, names ≠ place.names → after.root.at? names = before.root.at? names

/-- What is written is in the file that it was written to, and all other files stay as they were. -/
theorem writes_of_writeText {d after : Disk} {p : Path} {text : String}
    (h : d.writeText p text = .ok after) : d.Writes p text after := by
  obtain ⟨front, s, above, hfits, hparts, hwalk, hdir, hnames, hwidth, hchild, rfl⟩ := of_writeText h
  have hstart : Place.Sound d.root ⟨d.root, []⟩ := ⟨rfl, trivial⟩
  have habove := hstart.walk hwalk
  obtain ⟨entries, hentries⟩ := Node.isDir_iff.mp hdir
  have hthere := hentries ▸ habove.descend?
  have hput := Node.at?_put hthere (hentries ▸ hchild) (Utf8.encode text.toList)
  have hkeeps := Node.keepsDirs_put hthere (hentries ▸ hchild) (Utf8.encode text.toList)
  generalize d.root.put (above.names ++ [⟨s⟩]) (.file (Utf8.encode text.toList)) =
    root at hput hkeeps ⊢
  -- The way to the directory can still be gone, and from there a step leads to the new file.
  have hstart' : Place.Sound root ⟨root, []⟩ := ⟨rfl, trivial⟩
  obtain ⟨above', hwalk', hnames'⟩ := hstart.follow hkeeps hstart' rfl hwalk hdir
  have habove' := hstart'.walk hwalk'
  have hnew := hput (above.names ++ [⟨s⟩])
  rw [if_pos rfl, ← hnames'] at hnew
  obtain ⟨entry, hentry, hbare⟩ := Node.exists_child?_of_at? habove'.descend? hnew
  have hstep := Place.step_name hwidth hentry
  refine ⟨rfl, ⟨above'.root, (⟨s⟩, entry) :: above'.trail⟩,
    locate_eq_ok_iff.mpr ⟨hfits, ?_, by rw [hnames, Bool.false_and]⟩,
    Node.bare_eq_file_iff.mp hbare, fun names hne => ?_⟩
  · rw [hparts, List.foldlM_append, hwalk']
    exact (bind_pure _).trans hstep
  · rw [Place.names_down] at hne
    rw [hput, if_neg (hnames' ▸ hne)]

end Disk

end Crossing
