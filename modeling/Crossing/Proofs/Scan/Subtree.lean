import Crossing.Proofs.Scan.Analysis
import Mathlib.Data.List.Infix

/-!
# Scanning a directory of a project

Under patterns that are plain names, the analysis of a directory below the root is that of the root
restricted to the directory (`analyze_below`): the walk lists the same modules there
(`modulesAt_below`), at the same paths, and what is recorded of a module depends on its path alone,
but for the way in which its file is shown (`calls_module_below`). The calls of the directory can be
told by their files unless another directory is shown as this one is (`calls_module_elsewhere`).
-/

namespace Crossing

open Text

/-- The call, with its file as it is shown from the directory of that lead, if it stands in there. -/
def Call.within? (lead : List Char) (c : Call) : Option Call :=
  (after? lead c.file.toList).map fun rest => { c with file := .ofList ("./".toList ++ rest) }

namespace Scan

/-- What the files below a directory start with, seen from the root of a scan. -/
def leadOf (names : List OsText) : List Char :=
  "./".toList ++ names.flatMap fun n => Utf8.decodeLossy n.bytes ++ ['/']

/-- Patterns that are names without special signs. -/
def PlainNames (patterns : List String) : Prop :=
  ∀ p ∈ patterns, ∀ c ∈ p.toList, c ≠ '/' ∧ c ∉ Glob.signs

instance (patterns : List String) : Decidable (PlainNames patterns) :=
  decidable_of_iff (patterns.all fun p => p.toList.all fun c => c != '/' && !Glob.signs.contains c)
    (by simp [PlainNames])

/-! ### Plain names -/

/-- A name has no slashes around it. -/
theorem trimmed_of_no_slash {p : String} (h : '/' ∉ p.toList) : Ignore.trimmed p = p.toList := by
  have hends : ∀ c ∈ p.toList, (c == '/') = false := by
    intro c hc
    rw [beq_eq_false_iff_ne]
    exact fun heq => h (heq ▸ hc)
  rw [Ignore.trimmed, trimBy, dropWhile_eq_self_iff.mpr fun c hc => hends c (List.mem_of_head? hc)]
  exact trimEndBy_eq_self_iff.mpr fun c hc => hends c (List.mem_of_getLast? hc)

/-- Plain names stay plain with those of dependencies among them. -/
theorem PlainNames.withDependencies {patterns : List String} (h : PlainNames patterns) :
    PlainNames (dependencyNames ++ patterns) := by
  have hnames : PlainNames dependencyNames := by decide
  intro p hp
  exact (List.mem_append.mp hp).elim (hnames p) (h p)

/-- Plain names are plain patterns. -/
theorem PlainNames.plain {patterns : List String} (h : PlainNames patterns) :
    Ignore.Plain patterns := by
  intro p hp c hc
  have hslash : '/' ∉ p.toList := fun hmem => (h p hp _ hmem).1 rfl
  rw [trimmed_of_no_slash hslash] at hc
  exact (h p hp c hc).2

/-- Plain names ignore the paths that go through one of them. -/
theorem ignores_iff_of_plainNames {patterns : List String} {ignore : Ignore}
    (hignore : Ignore.ofPatterns patterns = .ok ignore) (hplain : PlainNames patterns)
    {names : List OsText} (hnames : ∀ n ∈ names, FileName n) :
    ignore.ignores (.ofNames names) = true ↔
      ∃ n ∈ names, ∃ p ∈ dependencyNames ++ patterns, n = .ofString p := by
  rw [Ignore.ignores_ofNames_iff hignore hplain.plain hnames]
  have hruns {p : String} (hp : p ∈ dependencyNames ++ patterns) :
      Ignore.RunsIn names p ↔ p.toList ≠ [] ∧ OsText.ofString p ∈ names := by
    have hslash : '/' ∉ p.toList := fun hmem => (hplain.withDependencies p hp _ hmem).1 rfl
    rw [Ignore.RunsIn, trimmed_of_no_slash hslash, List.splitOn_eq_singleton hslash,
      List.map_singleton, List.singleton_infix_iff, List.mem_map]
    refine and_congr_right fun _ => ⟨?_, fun hmem => ⟨_, hmem, rfl⟩⟩
    rintro ⟨n, hn, hbytes⟩
    rwa [← show n = .ofString p from OsText.ext hbytes]
  constructor
  · rintro ⟨p, hp, hrun⟩
    exact ⟨_, ((hruns hp).mp hrun).2, p, hp, rfl⟩
  · rintro ⟨_, hn, p, hp, rfl⟩
    refine ⟨p, hp, (hruns hp).mpr ⟨fun hnil => (hnames _ hn).ne_nil ?_, hn⟩⟩
    rw [OsText.ofString, hnil]
    rfl

/-! ### The modules of a directory -/

/-- Names lead to a module from above a directory if they lead to it from there. -/
theorem leadsToModule_append_iff {tree more : Node} {names rest : List OsText}
    (hmore : tree.descend? names = some more) (hne : rest ≠ []) :
    LeadsToModule tree (names ++ rest) ↔ LeadsToModule more rest := by
  have hdescend : tree.descend? (names ++ rest) = more.descend? rest := by
    rw [Node.descend?_append, hmore, Option.bind_some]
  constructor
  · rintro ⟨hfile, front, stem, extension, heq, hstem⟩
    refine ⟨hdescend ▸ hfile, rest.dropLast, stem, extension, ?_, hstem⟩
    have hlast := List.dropLast_concat_getLast hne
    rw [← hlast, ← List.append_assoc] at heq
    rw [← List.append_inj_right' heq rfl, hlast]
  · rintro ⟨hfile, front, stem, extension, rfl, hstem⟩
    exact ⟨hdescend ▸ hfile, names ++ front, stem, extension, (List.append_assoc _ _ _).symm, hstem⟩

/-- Plain names ignore the same on both sides of names that they do not ignore. -/
theorem ignores_append_of_plainNames {patterns : List String} {ignore : Ignore}
    (hignore : Ignore.ofPatterns patterns = .ok ignore) (hplain : PlainNames patterns)
    {names rest : List OsText} (hnames : ∀ n ∈ names, FileName n) (hrest : ∀ n ∈ rest, FileName n)
    (hkept : ∀ n ∈ names, ∀ p ∈ dependencyNames ++ patterns, n ≠ .ofString p) :
    ignore.ignores (.ofNames (names ++ rest)) = ignore.ignores (.ofNames rest) := by
  have hall : ∀ n ∈ names ++ rest, FileName n := List.forall_mem_append.mpr ⟨hnames, hrest⟩
  rw [Bool.eq_iff_iff, ignores_iff_of_plainNames hignore hplain hall,
    ignores_iff_of_plainNames hignore hplain hrest]
  constructor
  · rintro ⟨n, hn, p, hp, heq⟩
    exact ⟨n, (List.mem_append.mp hn).resolve_left fun h => hkept n h p hp heq, p, hp, heq⟩
  · rintro ⟨n, hn, hp⟩
    exact ⟨n, List.mem_append_right names hn, hp⟩

/-- A walk of the directory that names lead to lists what a walk from above lists there. -/
theorem modulesAt_below {patterns : List String} {ignore : Ignore}
    (hignore : Ignore.ofPatterns patterns = .ok ignore) (hplain : PlainNames patterns)
    {entries more : List (OsText × Node)} (htree : (Node.dir entries).Proper) {names : List OsText}
    (hmore : (Node.dir entries).descend? names = some (.dir more))
    (hkept : ∀ n ∈ names, ∀ p ∈ dependencyNames ++ patterns, n ≠ .ofString p) :
    (modulesAt ignore (.dir more)).map (names ++ ·) =
      (modulesAt ignore (.dir entries)).filter (names.isPrefixOf ·) := by
  have hclosed := Ignore.hereditary_ofPatterns hignore
  obtain ⟨hnames, hproper⟩ := htree.descend hmore
  have hmem (rest : List OsText) : names ++ rest ∈ modulesAt ignore (.dir entries) ↔
      rest ∈ modulesAt ignore (.dir more) := by
    rw [mem_modulesAt_root_iff hclosed htree, mem_modulesAt_root_iff hclosed hproper]
    by_cases hne : rest = []
    · -- The directory itself is no module.
      rw [hne, List.append_nil]
      constructor
      · rintro ⟨⟨⟨bytes, hfile⟩, -⟩, -⟩
        rw [hmore] at hfile
        cases hfile
      · rintro ⟨⟨⟨bytes, hfile⟩, -⟩, -⟩
        cases hfile
    · rw [leadsToModule_append_iff hmore hne]
      refine and_congr_right fun ⟨⟨bytes, hfile⟩, _⟩ => ?_
      rw [ignores_append_of_plainNames hignore hplain hnames (hproper.descend hfile).1 hkept]
  refine List.Pairwise.eq_of_mem_iff (r := (bytesOf · < bytesOf ·)) ?_
    ((pairwise_modulesAt htree).filter _) fun ns => ?_
  · rw [List.pairwise_map]
    refine (pairwise_modulesAt hproper).imp fun h => ?_
    rw [bytesOf_append, bytesOf_append]
    exact List.append_left_lt h
  · rw [List.mem_map, List.mem_filter, List.isPrefixOf_iff_prefix]
    constructor
    · rintro ⟨rest, hrest, rfl⟩
      exact ⟨(hmem rest).mpr hrest, List.prefix_append _ _⟩
    · rintro ⟨hns, rest, rfl⟩
      exact ⟨rest, (hmem rest).mp hns, rfl⟩

/-! ### The files of a directory -/

/-- What names lead to is shown with the lead of the directory in front. -/
theorem toList_shown_append (names : List OsText) {rest : List OsText} (hne : rest ≠ []) :
    (shown (names ++ rest)).toList = leadOf names ++ Path.readable rest := by
  have hjoin : Path.readable (names ++ rest) =
      (names.flatMap fun n => Utf8.decodeLossy n.bytes ++ ['/']) ++ Path.readable rest := by
    induction names with
    | nil => rfl
    | cons n names ih =>
      have hmore : (names ++ rest).map (fun n => Utf8.decodeLossy n.bytes) ≠ [] := by simp [hne]
      have hcons := join_append (c := '/') (List.cons_ne_nil (Utf8.decodeLossy n.bytes) []) hmore
      rw [List.flatMap_cons, List.append_assoc, ← ih]
      exact hcons.trans (by simp [join, Path.readable])
  rw [toList_shown, hjoin, leadOf, List.append_assoc]

/-- What is shown with the lead of a directory stands in it, or in one that is shown alike. -/
theorem isPrefix_of_lead {names ns : List OsText} (hnames : ∀ n ∈ names, FileName n)
    (hns : ∀ n ∈ ns, FileName n) (hne : ns ≠ []) {rest : List Char}
    (h : (shown ns).toList = leadOf names ++ rest) :
    names.map OsText.shown <+: ns.map OsText.shown := by
  have hslash {names : List OsText} (hnames : ∀ n ∈ names, FileName n) :
      ∀ s ∈ names.map fun n => Utf8.decodeLossy n.bytes, '/' ∉ s := by
    intro s hs
    obtain ⟨n, hn, rfl⟩ := List.mem_map.mp hs
    exact mt (Utf8.mem_decodeLossy_iff (c := '/') (by decide)).mp (hnames n hn).no_slash
  rw [toList_shown, leadOf, List.append_assoc] at h
  have hsplit := congrArg (List.splitOn '/') (List.append_cancel_left h)
  rw [Path.readable, splitOn_join (by simpa using hne) (hslash hns), ← List.flatMap_map
      (fun n : OsText => Utf8.decodeLossy n.bytes) (fun s => s ++ ['/']),
    splitOn_flatMap_append (hslash hnames)] at hsplit
  have hread : names.map (fun n => Utf8.decodeLossy n.bytes) <+:
      ns.map fun n => Utf8.decodeLossy n.bytes := by
    rw [hsplit]
    exact List.prefix_append _ _
  have hshown := hread.map String.ofList
  rwa [List.map_map, List.map_map] at hshown

/-- Names without a replacement character are shown differently from all others. -/
theorem isPrefix_of_shown {names ns : List OsText}
    (hread : ∀ n ∈ names, Utf8.replacement ∉ n.shown.toList)
    (h : names.map OsText.shown <+: ns.map OsText.shown) : names <+: ns := by
  induction names generalizing ns with
  | nil => exact List.nil_prefix
  | cons n names ih =>
    cases ns with
    | nil => exact absurd (List.prefix_nil.mp h) (List.cons_ne_nil _ _)
    | cons m ns =>
      rw [List.map_cons, List.map_cons, List.cons_prefix_cons] at h
      rw [List.cons_prefix_cons]
      have hn := hread n List.mem_cons_self
      exact ⟨OsText.shown_inj hn h.1, ih (fun k hk => hread k (List.mem_cons_of_mem n hk)) h.2⟩

/-! ### The calls of a directory -/

variable {read : Script.Reader}

/-- What is recorded of a module is the same from below, but for the way its file is shown. -/
theorem recordedIn_within {names rest : List OsText} (hnames : ∀ n ∈ names, FileName n)
    (hrest : ∀ n ∈ rest, FileName n) (hne : rest ≠ []) (inner : Path) (source : String) :
    (recordedIn read inner (shown (names ++ rest)) source).map (Call.within? (leadOf names)) =
      (recordedIn read inner (shown rest) source).map some := by
  obtain ⟨front, name, rfl⟩ := (List.eq_nil_or_concat' rest).resolve_left hne
  have hall : ∀ n ∈ (names ++ front) ++ [name], FileName n := by
    rw [List.append_assoc]
    exact List.forall_mem_append.mpr ⟨hnames, hrest⟩
  have hdialect : Script.Dialect.ofFile (shown (names ++ (front ++ [name]))) =
      Script.Dialect.ofFile (shown (front ++ [name])) := by
    rw [← List.append_assoc, ofFile_shown hall, ofFile_shown hrest]
  have hshown : String.ofList ("./".toList ++ Path.readable (front ++ [name])) =
      shown (front ++ [name]) := by
    rw [String.ofList_append, String.ofList_toList, shown]
  unfold recordedIn
  rw [hdialect]
  cases read (.ofFile (shown (front ++ [name]))) source.toList with
  | none => rfl
  | some script =>
    simp only [Option.map_some, Option.getD_some, List.map_filterMap]
    refine List.filterMap_congr fun call _ => ?_
    rw [recorded?_file _ (shown (names ++ (front ++ [name]))) (shown (front ++ [name]))]
    cases hcall : recorded? (.ofModule source inner) (shown (names ++ (front ++ [name]))) call with
    | none => rfl
    | some c =>
      obtain ⟨hfile, -⟩ := of_recorded? hcall
      rw [Option.map_some, Call.within?, hfile, toList_shown_append names hne, after?_append,
        Option.map_some, hshown]
      rfl

/-- The calls of a module are the same from a directory that it stands in. -/
theorem calls_module_below (disk : Disk) (readText : Path → Except String String) {root : Path}
    (hroot : root.text.bytes ≠ []) {names rest : List OsText} (hnames : ∀ n ∈ names, FileName n)
    (hrest : ∀ n ∈ rest, FileName n) (hne : rest ≠ []) :
    (module read disk readText root (root.below (names ++ rest))).1.map
        (Call.within? (leadOf names)) =
      (module read disk readText (root.below names) ((root.below names).below rest)).1.map some := by
  have hall : ∀ n ∈ names ++ rest, FileName n := List.forall_mem_append.mpr ⟨hnames, hrest⟩
  have hbelow := Path.below_ne_empty hroot hnames
  rw [calls_module_eq, calls_module_eq, Path.display_below rfl hroot (by simp [hne]) hall,
    Path.display_below rfl hbelow hne hrest, ← Path.below_append]
  cases readText (root.below (names ++ rest)) with
  | error e => rfl
  | ok source => exact recordedIn_within hnames hrest hne _ source

/-- The calls of a module that stands elsewhere are not in the directory, unless the directory is
shown as one that it stands in. -/
theorem calls_module_elsewhere (disk : Disk) (readText : Path → Except String String) {root : Path}
    (hroot : root.text.bytes ≠ []) {names ns : List OsText} (hnames : ∀ n ∈ names, FileName n)
    (hns : ∀ n ∈ ns, FileName n) (hne : ns ≠ [])
    (helse : ¬names.map OsText.shown <+: ns.map OsText.shown) :
    (module read disk readText root (root.below ns)).1.filterMap (Call.within? (leadOf names)) =
      [] := by
  obtain ⟨label, hcalls⟩ := @of_mem_calls_module read disk readText root (root.below ns)
  rw [List.filterMap_eq_nil_iff]
  intro c hc
  rw [Call.within?, Option.map_eq_none_iff, (hcalls c hc).1,
    Path.display_below rfl hroot hne hns]
  cases h : after? (leadOf names) ("./" ++ String.ofList (Path.readable ns)).toList with
  | none => rfl
  | some rest => exact absurd (isPrefix_of_lead hnames hns hne (eq_append_of_after? h)) helse

/-- What gives nothing may be left out. -/
theorem flatMap_filter_of_nil {α β : Type} {p : α → Bool} {f : α → List β} {xs : List α}
    (h : ∀ x ∈ xs, p x = false → f x = []) : (xs.filter p).flatMap f = xs.flatMap f := by
  induction xs with
  | nil => rfl
  | cons x xs ih =>
    have hrest := ih fun y hy => h y (List.mem_cons_of_mem x hy)
    cases hx : p x with
    | true => rw [List.filter_cons_of_pos hx, List.flatMap_cons, List.flatMap_cons, hrest]
    | false =>
      rw [List.filter_cons_of_neg (by simp [hx]), List.flatMap_cons, h x List.mem_cons_self hx,
        List.nil_append, hrest]

/-- Under patterns that are plain names, the calls of a directory are those of the modules of the
root that stand in the directory, in the same order and the same in all but the lead of their files,
if no name on the way to the directory is ignored. They are all calls of the root with this lead
unless another directory is shown as this one is. -/
theorem analyze_below {disk : Disk} {patterns : List String} {root : Path} {names : List OsText}
    {entries more : List (OsText × Node)} (hplain : PlainNames patterns)
    (hdisk : disk.root.Proper) (hnames : ∀ n ∈ names, FileName n)
    (hroot : disk.node? root = .ok (.dir entries))
    (hbelow : disk.node? (root.below names) = .ok (.dir more))
    (hkept : ∀ ignore, Ignore.ofPatterns patterns = .ok ignore →
      ∀ n ∈ names, ignore.ignores ⟨n⟩ = false) :
    ∃ ignore, ∃ found : List (List OsText), ∃ whole part wholeNotices partNotices,
      Ignore.ofPatterns patterns = .ok ignore ∧
      modules disk ignore root = .ok (found.map root.below) ∧
      analyzeWith read disk patterns root = .ok (whole, wholeNotices) ∧
      analyzeWith read disk patterns (root.below names) = .ok (part, partNotices) ∧
      whole.calls = found.flatMap (fun ns =>
        (module read disk (readModule disk) root (root.below ns)).1) ∧
      part.calls.map some = ((found.filter (names.isPrefixOf ·)).flatMap fun ns =>
        (module read disk (readModule disk) root (root.below ns)).1).map
          (Call.within? (leadOf names)) ∧
      ((∀ ns ∈ found, names.map OsText.shown <+: ns.map OsText.shown → names <+: ns) →
        part.calls = whole.calls.filterMap (Call.within? (leadOf names))) := by
  obtain ⟨ignore, hignore⟩ := Ignore.ofPatterns_plain hplain.plain
  have hp := Disk.ne_empty_of_node? hroot
  have htree := Disk.proper_of_node? hdisk hroot
  have hmore := Disk.descend?_of_below hnames hroot hbelow
  have hproper := Disk.proper_of_node? hdisk hbelow
  have hallowed : ∀ n ∈ names, ∀ p ∈ dependencyNames ++ patterns, n ≠ .ofString p := by
    intro n hn p hp heq
    have hname : ∀ m ∈ [n], FileName m := by simpa using hnames n hn
    have hignores := (ignores_iff_of_plainNames hignore hplain hname).mpr
      ⟨n, List.mem_singleton_self n, p, hp, heq⟩
    rw [Path.ofNames_singleton, hkept ignore hignore n hn] at hignores
    cases hignores
  obtain ⟨wholeNotices, hwhole⟩ := analyze_eq read hignore hroot
  obtain ⟨partNotices, hpart⟩ := analyze_eq read hignore hbelow
  have hlisted := modulesAt_below hignore hplain htree hmore hallowed
  have hcalls : ((modulesAt ignore (.dir more)).flatMap fun rest =>
      (module read disk (readModule disk) (root.below names)
        ((root.below names).below rest)).1).map some =
      (((modulesAt ignore (.dir entries)).filter (names.isPrefixOf ·)).flatMap fun ns =>
        (module read disk (readModule disk) root (root.below ns)).1).map
          (Call.within? (leadOf names)) := by
    rw [← hlisted, List.flatMap_map, List.map_flatMap, List.map_flatMap]
    refine List.flatMap_congr fun rest hrest => ?_
    obtain ⟨hne, hnamed⟩ := named_of_mem_modulesAt hproper hrest
    exact (calls_module_below disk _ hp hnames hnamed hne).symm
  refine ⟨ignore, _, _, _, _, _, hignore, modules_eq hroot, hwhole, hpart, rfl, hcalls,
    fun halone => ?_⟩
  -- What the modules outside give is left out, and what those inside give is left as it is.
  have hkeep := congrArg (List.filterMap id) hcalls
  rw [List.filterMap_map, List.filterMap_map] at hkeep
  rw [← List.filterMap_some (l := (modulesAt ignore (.dir more)).flatMap _)]
  refine hkeep.trans ?_
  simp only [Function.id_comp, List.filterMap_flatMap]
  refine flatMap_filter_of_nil fun ns hns helse => ?_
  obtain ⟨hne, hnamed⟩ := named_of_mem_modulesAt htree hns
  rw [← Bool.not_eq_true, List.isPrefixOf_iff_prefix] at helse
  exact calls_module_elsewhere disk _ hp hnames hnamed hne (mt (halone ns hns) helse)

/-- Seen from its source directory, the project has two calls, which the whole project has too. -/
theorem analyze_below_sample : ∃ whole part wholeNotices partNotices,
    analyze sampleDisk ["gen"] ⟨"/repo"⟩ = .ok (whole, wholeNotices) ∧
    analyze sampleDisk ["gen"] (Path.below ⟨"/repo"⟩ ["src"]) = .ok (part, partNotices) ∧
    part.calls = whole.calls.filterMap (Call.within? (leadOf ["src"])) ∧ part.calls.length = 2 := by
  have hplain : PlainNames ["gen"] := by decide
  have hnames : ∀ n ∈ (["src"] : List OsText), FileName n := by decide
  have hread : ∀ n ∈ (["src"] : List OsText), Utf8.replacement ∉ n.shown.toList := by decide
  have hkept : ∀ ignore, Ignore.ofPatterns ["gen"] = .ok ignore →
      ∀ n ∈ (["src"] : List OsText), ignore.ignores ⟨n⟩ = false := by
    intro ignore hignore n hn
    obtain rfl := List.mem_singleton.mp hn
    have hiff := ignores_iff_of_plainNames hignore hplain hnames
    rw [← Bool.not_eq_true, ← Path.ofNames_singleton]
    exact mt hiff.mp (by decide)
  obtain ⟨ignore, found, whole, part, wholeNotices, partNotices, -, -, hwhole, hpart, -, -, hcalls⟩ :=
    @analyze_below Script.parse? _ _ _ _ _ _ hplain proper_sampleDisk hnames node?_sampleDisk rfl
      hkept
  have hcount : ((analyze sampleDisk ["gen"] (Path.below ⟨"/repo"⟩ ["src"])).toOption.map
      fun found => found.1.calls.length) = some 2 := by
    decide +kernel
  rw [analyze, hpart] at hcount
  exact ⟨whole, part, wholeNotices, partNotices, hwhole, hpart,
    hcalls fun _ _ => isPrefix_of_shown hread, Option.some.inj hcount⟩

end Scan

end Crossing
