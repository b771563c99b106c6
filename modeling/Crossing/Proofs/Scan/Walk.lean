import Crossing.Proofs.FileTree.Proper
import Crossing.Proofs.Scan.Ignored
import Crossing.Proofs.Text.Bytes
import Crossing.Scan.Walk
import Mathlib.Data.List.Sort

/-!
# What a walk lists

A walk lists the modules below a directory that are not ignored, each once and in the order of their
paths (`modules_listed`), and warns of the directories that it cannot read (`walk_warns`): what it
finds is one induction over the tree (`mem_foundAt_iff`) and its order another (`pairwise_foundAt`).
A sorted list is given by its members, so a walk that does not enter ignored directories is the whole
walk without the modules that are ignored.
-/

namespace Crossing

open Text

namespace Path

/-- A name has an extension if something stands before the last dot. -/
theorem extensionOf?_eq_some_iff {name e : List UInt8} :
    extensionOf? name = some e ↔ dot ∉ e ∧ ∃ stem, stem ≠ [] ∧ name = stem ++ dot :: e := by
  constructor
  · intro h
    unfold extensionOf? at h
    split at h
    · cases h
    · cases h
    · next last c before hcut =>
      cases h
      have hname := congrArg List.reverse (eq_append_of_cut? hcut)
      rw [List.reverse_reverse] at hname
      refine ⟨by simpa using not_mem_of_cut? hcut, (c :: before).reverse, by simp, ?_⟩
      rw [hname]
      simp
  · rintro ⟨hdot, stem, hstem, rfl⟩
    have hcut : cut? dot (stem ++ dot :: e).reverse = some (e.reverse, stem.reverse) := by
      rw [List.reverse_append, List.reverse_cons, List.append_assoc]
      exact cut?_append (by simpa using hdot) _
    obtain ⟨c, before, hbefore⟩ := List.exists_cons_of_ne_nil (List.reverse_ne_nil_iff.mpr hstem)
    rw [extensionOf?, hcut, hbefore]
    exact congrArg some (List.reverse_reverse e)

end Path

namespace Scan

/-- Names that lead to a module in a tree: to a file with the extension `ts` or `tsx`. -/
structure LeadsToModule (tree : Node) (names : List OsText) : Prop where
  file : ∃ bytes, tree.descend? names = some (.file bytes)
  extension : ∃ front stem extension,
    names = front ++ [⟨stem ++ Path.dot :: Utf8.encode extension.toList⟩] ∧ stem ≠ [] ∧
      extension ∈ ["ts", "tsx"]

/-- The bytes of names, by which the walk orders them. -/
def bytesOf (names : List OsText) : List (List UInt8) :=
  names.map OsText.bytes

/-- A name is that of a module if its extension is `ts` or `tsx`. -/
theorem isModule_iff {name : OsText} (h : FileName name) :
    Project.isModule ⟨name⟩ = true ↔ ∃ stem extension,
      name = ⟨stem ++ Path.dot :: Utf8.encode extension.toList⟩ ∧ stem ≠ [] ∧
        extension ∈ ["ts", "tsx"] := by
  have hextension : Path.extension? ⟨name⟩ = Path.extensionOf? name.bytes := by
    rw [Path.extension?, Path.fileName?, Path.components_name h]
    rfl
  rw [Project.isModule, hextension]
  constructor
  · intro hmodule
    cases he : Path.extensionOf? name.bytes >>= Utf8.decode? with
    | none =>
      rw [he] at hmodule
      cases hmodule
    | some e =>
      rw [he] at hmodule
      obtain ⟨extension, hname, hdecode⟩ := Option.bind_eq_some_iff.mp he
      obtain ⟨-, stem, hstem, hname⟩ := Path.extensionOf?_eq_some_iff.mp hname
      have hmem : e ∈ Project.moduleExtensions := List.contains_iff_mem.mp hmodule
      -- Both extensions are ASCII, so they are read off their bytes alone.
      have hascii : Project.moduleExtensions.all (·.all (·.toNat < 0x80)) = true := by decide
      simp only [List.all_eq_true, decide_eq_true_eq] at hascii
      have hread := Utf8.decodeLossy_of_decode? hdecode
      have hbytes := @Utf8.encode_of_ascii extension (by rw [hread]; exact hascii e hmem)
      rw [hread] at hbytes
      refine ⟨stem, .ofList e, OsText.ext ?_, hstem, ?_⟩
      · rw [hname, String.toList_ofList, hbytes]
      · simpa [Project.moduleExtensions, ← String.toList_inj] using hmem
  · rintro ⟨stem, extension, rfl, hstem, hmem⟩
    have hknown : ∀ e ∈ ["ts", "tsx"], Path.dot ∉ Utf8.encode e.toList ∧
        Utf8.decode? (Utf8.encode e.toList) = some e.toList ∧
        Project.moduleExtensions.contains e.toList = true := by decide
    obtain ⟨hdot, hdecode, hcontains⟩ := hknown extension hmem
    have he : Path.extensionOf? (stem ++ Path.dot :: Utf8.encode extension.toList) =
        some (Utf8.encode extension.toList) :=
      Path.extensionOf?_eq_some_iff.mpr ⟨hdot, stem, hstem, rfl⟩
    dsimp only
    rw [he, Option.bind_eq_bind, Option.bind_some, hdecode]
    exact hcontains

section Walk

variable {ignore : Ignore} {isWanted : List OsText → Node → Bool}

/-! ### One directory -/

/-- The entries of a directory are gone through one by one, except those that are left out. -/
theorem foundIn_eq (below : List OsText) (entries : List (OsText × Node)) :
    foundIn ignore isWanted below entries =
      (entries.filter fun e => !ignore.ignores (.ofNames (e.1 :: below).reverse)).map
        fun e => (e.1, foundAt ignore isWanted (e.1 :: below) e.2) := by
  induction entries with
  | nil => rw [foundIn]; rfl
  | cons e entries ih =>
    obtain ⟨name, node⟩ := e
    rw [foundIn, ih]
    by_cases hignored : ignore.ignores (.ofNames (name :: below).reverse) = true
    · rw [if_pos hignored, List.filter_cons_of_neg (by simpa using hignored), List.nil_append]
    · rw [if_neg hignored, List.filter_cons_of_pos (by simpa using hignored)]
      rfl

/-- What is found in a directory is found at the entries that are not left out. -/
theorem mem_foundAt_dir_iff {below names : List OsText} {entries : List (OsText × Node)} :
    names ∈ foundAt ignore isWanted below (.dir entries) ↔ ∃ e ∈ entries,
      ignore.ignores (.ofNames (below.reverse ++ [e.1])) = false ∧
      names ∈ foundAt ignore isWanted (e.1 :: below) e.2 := by
  rw [foundAt, List.mem_flatMap]
  simp only [List.mem_mergeSort, foundIn_eq, List.mem_map, List.mem_filter,
    Bool.not_eq_true', List.reverse_cons]
  constructor
  · rintro ⟨-, ⟨e, ⟨he, hkept⟩, rfl⟩, hmem⟩
    exact ⟨e, he, hkept, hmem⟩
  · rintro ⟨e, he, hkept, hmem⟩
    exact ⟨_, ⟨e, ⟨he, hkept⟩, rfl⟩, hmem⟩

/-- A file or a sealed directory is found itself or not at all. -/
theorem foundAt_leaf {below : List OsText} {node : Node} (h : node.isDir = false) :
    foundAt ignore isWanted below node = if isWanted below node then [below.reverse] else [] := by
  cases node with
  | dir entries => cases h
  | file bytes => rw [foundAt]
  | sealed => rw [foundAt]

/-! ### The whole walk -/

/-- Whether names that come behind `below`, the last of these first, lead to something that is
wanted, by no directory that is left out. -/
structure Finds (ignore : Ignore) (isWanted : List OsText → Node → Bool) (below : List OsText)
    (tree : Node) (rest : List OsText) (node : Node) : Prop where
  leads : tree.descend? rest = some node
  leaf : node.isDir = false
  wanted : isWanted (rest.reverse ++ below) node = true
  kept : ∀ k, k ≠ [] → k <+: rest → ignore.ignores (.ofNames (below.reverse ++ k)) = false

/-- Behind the name of an entry that is kept, what is found in the entry is found. -/
theorem Finds.cons {below rest : List OsText} {entries : List (OsText × Node)} {n : OsText}
    {entry node : Node} (distinct : (entries.map Prod.fst).Nodup) (he : (n, entry) ∈ entries)
    (hkept : ignore.ignores (.ofNames (below.reverse ++ [n])) = false)
    (h : Finds ignore isWanted (n :: below) entry rest node) :
    Finds ignore isWanted below (.dir entries) (n :: rest) node := by
  refine ⟨?_, h.leaf, by simpa using h.wanted, fun k hk hinitial => ?_⟩
  · rw [Node.descend?, (Node.child?_eq_some_iff distinct).mpr he]
    exact h.leads
  · obtain ⟨m, k, rfl⟩ := List.exists_cons_of_ne_nil hk
    obtain ⟨rfl, hback⟩ := List.cons_prefix_cons.mp hinitial
    by_cases hnil : k = []
    · rw [hnil]
      exact hkept
    · have hdeep := h.kept k hnil hback
      rwa [List.reverse_cons, List.append_assoc] at hdeep

/-- What is found behind a name is found in the entry of that name. -/
theorem Finds.of_cons {below rest : List OsText} {entries : List (OsText × Node)} {n : OsText}
    {node : Node} (distinct : (entries.map Prod.fst).Nodup)
    (h : Finds ignore isWanted below (.dir entries) (n :: rest) node) :
    ∃ entry, (n, entry) ∈ entries ∧ ignore.ignores (.ofNames (below.reverse ++ [n])) = false ∧
      Finds ignore isWanted (n :: below) entry rest node := by
  obtain ⟨entry, hchild, hleads⟩ := Option.bind_eq_some_iff.mp h.leads
  refine ⟨entry, (Node.child?_eq_some_iff distinct).mp hchild, h.kept [n] (by simp) (by simp),
    hleads, h.leaf, by simpa using h.wanted, fun k _ hinitial => ?_⟩
  rw [List.reverse_cons, List.append_assoc]
  exact h.kept (n :: k) (by simp) (List.cons_prefix_cons.mpr ⟨rfl, hinitial⟩)

/-- A walk finds what is wanted and not left out. -/
theorem mem_foundAt_iff {tree : Node} (h : tree.Proper) {below names : List OsText} :
    names ∈ foundAt ignore isWanted below tree ↔ ∃ rest node, names = below.reverse ++ rest ∧
      Finds ignore isWanted below tree rest node := by
  have hleaf {tree : Node} (hdir : tree.isDir = false)
      (hend : ∀ {rest}, rest ≠ [] → tree.descend? rest = none) {below names : List OsText} :
      names ∈ foundAt ignore isWanted below tree ↔ ∃ rest node, names = below.reverse ++ rest ∧
        Finds ignore isWanted below tree rest node := by
    rw [foundAt_leaf hdir]
    constructor
    · intro hmem
      split at hmem
      · next hwanted =>
        obtain rfl := List.mem_singleton.mp hmem
        refine ⟨[], tree, by simp, rfl, hdir, hwanted, fun k hk hinitial => ?_⟩
        exact absurd (List.prefix_nil.mp hinitial) hk
      · exact absurd hmem List.not_mem_nil
    · rintro ⟨rest, node, rfl, hfinds⟩
      by_cases hrest : rest = []
      · subst hrest
        obtain rfl := Option.some.inj hfinds.leads
        rw [if_pos (by simpa using hfinds.wanted), List.append_nil]
        exact List.mem_singleton_self _
      · have hleads := hfinds.leads
        rw [hend hrest] at hleads
        cases hleads
  induction h generalizing below names with
  | file bytes => exact hleaf rfl fun hrest => Node.descend?_file bytes hrest
  | sealed => exact hleaf rfl fun hrest => Node.descend?_sealed hrest
  | @dir entries distinct named nodes ih =>
    rw [mem_foundAt_dir_iff]
    constructor
    · rintro ⟨e, he, hkept, hmem⟩
      obtain ⟨rest, node, rfl, hfinds⟩ := (ih e he).mp hmem
      exact ⟨e.1 :: rest, node, by simp, hfinds.cons distinct he hkept⟩
    · rintro ⟨rest, node, rfl, hfinds⟩
      cases rest with
      | nil =>
        obtain rfl := Option.some.inj hfinds.leads
        cases hfinds.leaf
      | cons n rest =>
        obtain ⟨entry, he, hkept, hfinds⟩ := hfinds.of_cons distinct
        exact ⟨(n, entry), he, hkept, (ih _ he).mpr ⟨rest, node, by simp, hfinds⟩⟩

/-! ### The order of a walk -/

/-- The bytes of joined names are those of the first ones and then those of the second. -/
theorem bytesOf_append (names more : List OsText) :
    bytesOf (names ++ more) = bytesOf names ++ bytesOf more :=
  List.map_append

/-- The entries of a directory are gone through in the order of their names. -/
theorem pairwise_sorted {α : Type} {entries : List (OsText × α)}
    (h : (entries.map Prod.fst).Nodup) :
    (entries.mergeSort fun a b => nameLE a.1 b.1).Pairwise fun a b => a.1.bytes < b.1.bytes := by
  have hsorted := @List.pairwise_mergeSort _ (fun a b : OsText × α => nameLE a.1 b.1)
    (fun a b c hab hbc => by
      simp only [nameLE, decide_eq_true_eq] at hab hbc ⊢
      exact List.le_trans hab hbc)
    (fun a b => by
      simp only [nameLE, Bool.or_eq_true, decide_eq_true_eq]
      exact List.le_total _ _) entries
  have hdistinct : (entries.mergeSort fun a b => nameLE a.1 b.1).Pairwise fun a b => a.1 ≠ b.1 :=
    List.pairwise_map.mp (((List.mergeSort_perm _ _).map Prod.fst).nodup_iff.mpr h)
  refine hsorted.imp₂ (fun a b hab hne => ?_) hdistinct
  rw [← List.not_le]
  intro hba
  exact hne (OsText.ext (List.le_antisymm (of_decide_eq_true hab) hba))

/-- A walk finds things in the order of their paths, name by name and byte by byte. -/
theorem pairwise_foundAt {tree : Node} (h : tree.Proper) {below : List OsText} :
    (foundAt ignore isWanted below tree).Pairwise (bytesOf · < bytesOf ·) := by
  have hleaf {tree : Node} (hdir : tree.isDir = false) {below : List OsText} :
      (foundAt ignore isWanted below tree).Pairwise (bytesOf · < bytesOf ·) := by
    rw [foundAt_leaf hdir]
    split
    · exact List.pairwise_singleton _ _
    · exact .nil
  induction h generalizing below with
  | file bytes => exact hleaf rfl
  | sealed => exact hleaf rfl
  | @dir entries distinct named nodes ih =>
    rw [foundAt, foundIn_eq, List.pairwise_flatMap]
    have hmem {e : OsText × List (List OsText)} (he : e ∈ ((entries.filter fun e =>
          !ignore.ignores (.ofNames (e.1 :: below).reverse)).map
          fun e => (e.1, foundAt ignore isWanted (e.1 :: below) e.2)).mergeSort
          fun a b => nameLE a.1 b.1) :
        ∃ node, (e.1, node) ∈ entries ∧ e.2 = foundAt ignore isWanted (e.1 :: below) node := by
      obtain ⟨⟨name, node⟩, hentry, rfl⟩ := List.mem_map.mp (List.mem_mergeSort.mp he)
      exact ⟨node, List.mem_of_mem_filter hentry, rfl⟩
    constructor
    · intro e he
      obtain ⟨node, hentry, hfound⟩ := hmem he
      rw [hfound]
      exact ih _ hentry
    · refine (pairwise_sorted ?_).imp_of_mem fun {a b} ha hb hab x hx y hy => ?_
      · rw [List.map_map]
        exact distinct.sublist ((List.filter_sublist).map Prod.fst)
      · -- What is below an entry starts with the name of the entry.
        have hstart {e : OsText × List (List OsText)} {names : List OsText}
            (he : ∃ node, (e.1, node) ∈ entries ∧
              e.2 = foundAt ignore isWanted (e.1 :: below) node)
            (hnames : names ∈ e.2) : ∃ rest, names = below.reverse ++ e.1 :: rest := by
          obtain ⟨node, hentry, hfound⟩ := he
          rw [hfound, mem_foundAt_iff (nodes _ hentry)] at hnames
          obtain ⟨rest, -, rfl, -⟩ := hnames
          exact ⟨rest, by simp⟩
        obtain ⟨restx, rfl⟩ := hstart (hmem ha) hx
        obtain ⟨resty, rfl⟩ := hstart (hmem hb) hy
        rw [bytesOf_append, bytesOf_append]
        exact List.append_left_lt (List.cons_lt_cons_iff.mpr (.inl hab))

end Walk

/-- A walk lists the files with the name of a module to which no directory that is left out leads. -/
theorem mem_modulesAt_iff {ignore : Ignore} {tree : Node} (h : tree.Proper) {names : List OsText} :
    names ∈ modulesAt ignore tree ↔ (∃ bytes, tree.descend? names = some (.file bytes)) ∧
      Project.isModule ⟨names.getLastD ""⟩ = true ∧
      ∀ k, k ≠ [] → k <+: names → ignore.ignores (.ofNames k) = false := by
  have hlast : (names.reverse ++ []).headD "" = names.getLastD "" := by
    rw [List.append_nil, List.getLastD_eq_getLast?, List.headD_eq_head?_getD, List.head?_reverse]
  rw [modulesAt, mem_foundAt_iff h]
  constructor
  · rintro ⟨names, node, rfl, hleads, hleaf, hwanted, hkept⟩
    rw [isModuleAt, Bool.and_eq_true, hlast] at hwanted
    cases node with
    | dir entries => cases hleaf
    | sealed => cases hwanted.1
    | file bytes => exact ⟨⟨bytes, hleads⟩, hwanted.2, hkept⟩
  · rintro ⟨⟨bytes, hfile⟩, hmodule, hkept⟩
    refine ⟨names, _, rfl, hfile, rfl, ?_, hkept⟩
    rw [isModuleAt, hlast, hmodule]
    rfl

/-- A walk lists the modules in the order of their paths, name by name and byte by byte. -/
theorem pairwise_modulesAt {ignore : Ignore} {tree : Node} (h : tree.Proper) :
    (modulesAt ignore tree).Pairwise (bytesOf · < bytesOf ·) :=
  pairwise_foundAt h

/-! ### The modules below a directory -/

/-- What an ignored path leads to is ignored. -/
theorem ignores_of_isPrefix {ignore : Ignore} (h : ignore.Hereditary) {front names : List OsText}
    (hfront : front ≠ []) (hinitial : front <+: names)
    (hignored : ignore.ignores (.ofNames front) = true) : ignore.ignores (.ofNames names) = true := by
  obtain ⟨more, rfl⟩ := hinitial
  by_cases hmore : more = []
  · rwa [hmore, List.append_nil]
  · have hdeep := h (Path.ofNames front).text.bytes (Path.ofNames more).text.bytes hignored
    rwa [← Path.bytes_ofNames_append hfront hmore] at hdeep

/-- A file in a directory is found by at least one name. -/
theorem named_of_descend? {entries : List (OsText × Node)} (h : (Node.dir entries).Proper)
    {names : List OsText} {bytes : List UInt8}
    (hfile : (Node.dir entries).descend? names = some (.file bytes)) :
    names ≠ [] ∧ ∀ n ∈ names, FileName n := by
  refine ⟨?_, (h.descend hfile).1⟩
  rintro rfl
  cases hfile

/-- A walk of a directory lists names. -/
theorem named_of_mem_modulesAt {ignore : Ignore} {entries : List (OsText × Node)}
    (h : (Node.dir entries).Proper) {names : List OsText}
    (hmem : names ∈ modulesAt ignore (.dir entries)) :
    names ≠ [] ∧ ∀ n ∈ names, FileName n := by
  obtain ⟨⟨bytes, hfile⟩, -⟩ := (mem_modulesAt_iff h).mp hmem
  exact named_of_descend? h hfile

/-- If all that is below an ignored path is ignored, a walk lists the modules that are not. -/
theorem mem_modulesAt_root_iff {ignore : Ignore} (hclosed : ignore.Hereditary)
    {entries : List (OsText × Node)} (h : (Node.dir entries).Proper) {names : List OsText} :
    names ∈ modulesAt ignore (.dir entries) ↔
      LeadsToModule (.dir entries) names ∧ ignore.ignores (.ofNames names) = false := by
  have hlast {bytes : List UInt8} (hfile : (Node.dir entries).descend? names = some (.file bytes)) :
      ∃ front name, names = front ++ [name] ∧ FileName name := by
    obtain ⟨hne, hnamed⟩ := named_of_descend? h hfile
    exact ⟨_, _, (List.dropLast_concat_getLast hne).symm, hnamed _ (List.getLast_mem hne)⟩
  rw [mem_modulesAt_iff h]
  constructor
  · rintro ⟨⟨bytes, hfile⟩, hmodule, hinitial⟩
    obtain ⟨front, name, rfl, hname⟩ := hlast hfile
    rw [List.getLastD_eq_getLast?, List.getLast?_concat] at hmodule
    obtain ⟨stem, extension, rfl, hstem, hextension⟩ := (isModule_iff hname).mp hmodule
    exact ⟨⟨⟨bytes, hfile⟩, front, stem, extension, rfl, hstem, hextension⟩,
      hinitial _ (by simp) List.prefix_rfl⟩
  · rintro ⟨⟨⟨bytes, hfile⟩, front, stem, extension, rfl, hstem, hextension⟩, hkept⟩
    refine ⟨⟨bytes, hfile⟩, ?_, fun k hk hinitial => ?_⟩
    · obtain ⟨front', name, hnames, hname⟩ := hlast hfile
      rw [← List.singleton_inj.mp (List.append_inj_right' hnames rfl)] at hname
      rw [List.getLastD_eq_getLast?, List.getLast?_concat]
      exact (isModule_iff hname).mpr ⟨stem, extension, rfl, hstem, hextension⟩
    · rw [← Bool.not_eq_true] at hkept ⊢
      exact mt (ignores_of_isPrefix hclosed hk hinitial) hkept

/-- The walk orders modules strictly. -/
instance : Std.Irrefl fun names more : List OsText => bytesOf names < bytesOf more :=
  ⟨fun _ => List.lt_irrefl _⟩

instance : Std.Antisymm fun names more : List OsText => bytesOf names < bytesOf more :=
  ⟨fun _ _ hlt hgt => absurd hgt (List.lt_asymm hlt)⟩

/-- Leaving out directories on the way is the same as leaving out modules of a whole walk. -/
theorem modulesAt_eq_filter {ignore : Ignore} (hclosed : ignore.Hereditary)
    {entries : List (OsText × Node)} (h : (Node.dir entries).Proper) :
    modulesAt ignore (.dir entries) =
      (modulesAt ⟨[]⟩ (.dir entries)).filter fun names => !ignore.ignores (.ofNames names) := by
  have hnone : Ignore.Hereditary ⟨[]⟩ := by
    intro d x h
    cases h
  refine (pairwise_modulesAt h).eq_of_mem_iff ((pairwise_modulesAt h).filter _) fun names => ?_
  rw [List.mem_filter, mem_modulesAt_root_iff hclosed h, mem_modulesAt_root_iff hnone h]
  simp [Ignore.ignores]

/-- A walk of a directory finds its modules, and passes over what cannot be read. -/
theorem walk_eq {disk : Disk} {ignore : Ignore} {root : Path} {entries : List (OsText × Node)}
    (hroot : disk.node? root = .ok (.dir entries)) :
    walk disk ignore root = .ok ((modulesAt ignore (.dir entries)).map root.below,
      (skippedAt ignore (.dir entries)).map fun names => skipping (root.below names)) := by
  rw [walk, hroot]

/-- A walk finds the directory's modules at the paths that their names lead to. -/
theorem modules_eq {disk : Disk} {ignore : Ignore} {root : Path} {entries : List (OsText × Node)}
    (hroot : disk.node? root = .ok (.dir entries)) :
    modules disk ignore root = .ok ((modulesAt ignore (.dir entries)).map root.below) := by
  rw [modules, walk_eq hroot]
  rfl

/-- Besides the modules, a walk warns of each sealed directory that is not ignored, in the order of
their paths. -/
theorem walk_warns {disk : Disk} {ignore : Ignore} {root : Path} {entries : List (OsText × Node)}
    (hclosed : ignore.Hereditary) (hroot : disk.node? root = .ok (.dir entries))
    (htree : (Node.dir entries).Proper) :
    ∃ skipped : List (List OsText),
      walk disk ignore root = .ok ((modulesAt ignore (.dir entries)).map root.below,
        skipped.map fun names => skipping (root.below names)) ∧
      (∀ names, names ∈ skipped ↔ (Node.dir entries).descend? names = some .sealed ∧
        ignore.ignores (.ofNames names) = false) ∧ skipped.Pairwise (bytesOf · < bytesOf ·) := by
  refine ⟨_, walk_eq hroot, fun names => ?_, pairwise_foundAt htree⟩
  rw [skippedAt, mem_foundAt_iff htree]
  constructor
  · rintro ⟨names, node, rfl, hleads, -, hsealed, hkept⟩
    obtain rfl : node = .sealed := by cases node <;> first | rfl | cases hsealed
    refine ⟨hleads, hkept names ?_ List.prefix_rfl⟩
    rintro rfl
    cases hleads
  · rintro ⟨hleads, hkept⟩
    refine ⟨names, .sealed, rfl, hleads, rfl, rfl, fun k hk hinitial => ?_⟩
    rw [← Bool.not_eq_true] at hkept
    exact Bool.eq_false_iff.mpr (mt (ignores_of_isPrefix hclosed hk hinitial) hkept)

/-- The modules below a directory are listed, each once and in the order of their paths, except those
that are ignored. Ignored directories are passed over, which leaves out nothing else, since all that
is below them is ignored too. -/
theorem modules_listed {disk : Disk} {patterns : List String} {ignore : Ignore} {root : Path}
    {entries : List (OsText × Node)} (hignore : Ignore.ofPatterns patterns = .ok ignore)
    (hroot : disk.node? root = .ok (.dir entries)) (htree : (Node.dir entries).Proper) :
    ∃ found : List (List OsText), modules disk ignore root = .ok (found.map root.below) ∧
      (∀ names, names ∈ found ↔
        LeadsToModule (.dir entries) names ∧ ignore.ignores (.ofNames names) = false) ∧
      (∀ names ∈ found, root.stripPrefix? (root.below names) = some (.ofNames names)) ∧
      found.Pairwise (bytesOf · < bytesOf ·) ∧ (found.map root.below).Nodup ∧
      (∃ all : List (List OsText), modules disk ⟨[]⟩ root = .ok (all.map root.below) ∧
        found = all.filter fun names => !ignore.ignores (.ofNames names)) ∧
      ignore.Hereditary := by
  have hclosed := Ignore.hereditary_ofPatterns hignore
  have hp := Disk.ne_empty_of_node? hroot
  have hfound (names : List OsText) : names ∈ modulesAt ignore (.dir entries) ↔
      LeadsToModule (.dir entries) names ∧ ignore.ignores (.ofNames names) = false :=
    mem_modulesAt_root_iff hclosed htree
  have hnamed (names : List OsText) (hnames : names ∈ modulesAt ignore (.dir entries)) :=
    named_of_mem_modulesAt htree hnames
  refine ⟨_, modules_eq hroot, hfound, fun names hnames => ?_, pairwise_modulesAt htree, ?_,
    ⟨_, modules_eq hroot, modulesAt_eq_filter hclosed htree⟩, hclosed⟩
  · exact Path.stripPrefix?_below rfl hp (hnamed names hnames).1 (hnamed names hnames).2
  · rw [List.nodup_map_iff_inj_on (pairwise_modulesAt htree).nodup]
    exact fun names hnames more hmore =>
      Path.below_injective hp (hnamed names hnames).2 (hnamed more hmore).2

/-- A project with two modules, and a directory of generated ones. -/
def sampleTree : Node :=
  .dir [("package.json", .file []),
    ("src", .dir [("page.tsx", .file (Utf8.encode "\napi.post.mutate(\napi.user.query());\n".toList)),
      ("gen", .dir [("c.ts", .file [])])]),
    ("a.ts", .file (Utf8.encode "api.user.query();\n".toList))]

/-- The sample is proper. -/
theorem proper_sampleTree : sampleTree.Proper := by
  refine .dir (by decide) (by decide) ?_
  simp only [List.forall_mem_cons]
  refine ⟨.file _, .dir (by decide) (by decide) ?_, .file _, List.forall_mem_nil _⟩
  simp only [List.forall_mem_cons]
  refine ⟨.file _, .dir (by decide) (by decide) ?_, List.forall_mem_nil _⟩
  simp [Node.Proper.file]

/-- A disk that holds the project. -/
def sampleDisk : Disk := ⟨.dir [("repo", sampleTree)], ⟨"/"⟩⟩

/-- The disk with the sample is proper. -/
theorem proper_sampleDisk : sampleDisk.root.Proper := by
  refine .dir (by decide) (by decide) ?_
  simp only [List.forall_mem_cons]
  exact ⟨proper_sampleTree, List.forall_mem_nil _⟩

/-- The sample is at its place. -/
theorem node?_sampleDisk : sampleDisk.node? ⟨"/repo"⟩ = .ok sampleTree := rfl

/-- The walk of the project passes over the directory of generated modules. -/
theorem modules_listed_sample : ∃ ignore, ∃ found : List (List OsText),
    Ignore.ofPatterns ["gen"] = .ok ignore ∧
    modules sampleDisk ignore ⟨"/repo"⟩ = .ok (found.map (Path.below ⟨"/repo"⟩)) ∧
    (["a.ts"] : List OsText) ∈ found ∧ (["src", "page.tsx"] : List OsText) ∈ found ∧
    (["src", "gen", "c.ts"] : List OsText) ∉ found := by
  obtain ⟨ignore, hignore, hfirst, hpage, hgen⟩ : ∃ ignore, Ignore.ofPatterns ["gen"] = .ok ignore ∧
      ignore.ignores (.ofNames ["a.ts"]) = false ∧
      ignore.ignores (.ofNames ["src", "page.tsx"]) = false ∧
      ignore.ignores (.ofNames ["src", "gen", "c.ts"]) = true :=
    ⟨_, rfl, by decide +kernel, by decide +kernel, by decide +kernel⟩
  obtain ⟨found, hmodules, hfound, -⟩ :=
    modules_listed hignore node?_sampleDisk proper_sampleTree
  refine ⟨ignore, found, hignore, hmodules, (hfound _).mpr ⟨⟨⟨_, rfl⟩, ?_⟩, hfirst⟩,
    (hfound _).mpr ⟨⟨⟨_, rfl⟩, ?_⟩, hpage⟩, fun hmem => ?_⟩
  · exact ⟨[], Utf8.encode "a".toList, "ts", rfl, by decide, by decide⟩
  · exact ⟨["src"], Utf8.encode "page".toList, "tsx", rfl, by decide, by decide⟩
  · rw [((hfound _).mp hmem).2] at hgen
    cases hgen

end Scan

end Crossing
