import Crossing.Proofs.Report.Ranking
import Crossing.Proofs.Scan.Analysis
import Crossing.Proofs.Script.Order

/-!
# The order of an analysis

The calls of an analysis follow one another module by module, in the order of the modules, those of a
module have one file and one label, and their lines do not decrease. A report goes by the file that
is shown. So it has the calls of each module by themselves exactly if no two modules are shown alike
(`analyze_ordered`), and that they are not is up to their names: two names that are not UTF-8 can be
read alike (`analyze_alike`).
-/

namespace Crossing.Scan

open Script Text

variable {read : Script.Reader}

/-- The calls that are recorded of a text do not decrease in line, if its lines can be numbered. -/
theorem pairwise_recordedIn (hread : read.Spec) {inner : Path} {file source : String}
    (h : source.toList.count '\n' + 1 < UInt32.size) :
    (recordedIn read inner file source).Pairwise (·.line ≤ ·.line) := by
  unfold recordedIn
  cases hscript : read (.ofFile file) source.toList with
  | none => exact .nil
  | some script =>
    rw [Option.map_some, Option.getD_some, List.pairwise_filterMap]
    rw [← hread.text hscript] at h
    refine (pairwise_lineNumber h).imp fun hle c hc d hd => ?_
    rw [(of_recorded? hc).2.2, (of_recorded? hd).2.2]
    exact hle

/-- Modules below a directory are shown alike exactly if each of their names is. -/
theorem display_eq_iff {ignore : Ignore} {root : Path} {entries : List (OsText × Node)}
    (hroot : root.text.bytes ≠ []) (htree : (Node.dir entries).Proper) {names more : List OsText}
    (hnames : names ∈ modulesAt ignore (.dir entries))
    (hmore : more ∈ modulesAt ignore (.dir entries)) :
    Path.display root (root.below names) = Path.display root (root.below more) ↔
      names.map OsText.shown = more.map OsText.shown := by
  obtain ⟨hne, hnames⟩ := named_of_mem_modulesAt htree hnames
  obtain ⟨hmne, hmore⟩ := named_of_mem_modulesAt htree hmore
  rw [Path.display_below rfl hroot hne hnames, Path.display_below rfl hroot hmne hmore,
    ← Path.readable_eq_iff hne hmne hnames hmore]
  constructor
  · intro heq
    have hlist := congrArg String.toList heq
    rw [← shown, ← shown, toList_shown, toList_shown] at hlist
    exact List.append_cancel_left hlist
  · exact fun heq => by rw [heq]

/-! ### Calls file by file -/

section Blocks

variable {paths : List Path} {shown : Path → String} {block : Path → List Call}

/-- Where each file has a block of calls, the calls of a file are those of its block. -/
theorem filter_file_flatMap (hblock : ∀ p ∈ paths, ∀ c ∈ block p, c.file = shown p)
    (hdistinct : (paths.map shown).Nodup) {p : Path} (hp : p ∈ paths) :
    (paths.flatMap block).filter (·.file = shown p) = block p := by
  induction paths with
  | nil => cases hp
  | cons q paths ih =>
    obtain ⟨hnew, hrest⟩ := List.nodup_cons.mp hdistinct
    have hfirst := hblock q List.mem_cons_self
    have hlater : ∀ r ∈ paths, ∀ c ∈ block r, c.file = shown r := fun r hr =>
      hblock r (List.mem_cons_of_mem q hr)
    rw [List.flatMap_cons, List.filter_append]
    rcases List.mem_cons.mp hp with rfl | hp
    · have hself : (block p).filter (·.file = shown p) = block p :=
        List.filter_eq_self.mpr fun c hc => by simp [hfirst c hc]
      have hothers : (paths.flatMap block).filter (·.file = shown p) = [] := by
        refine List.filter_eq_nil_iff.mpr fun c hc heq => hnew ?_
        obtain ⟨r, hr, hc⟩ := List.mem_flatMap.mp hc
        rw [decide_eq_true_eq, hlater r hr c hc] at heq
        exact heq ▸ List.mem_map_of_mem hr
      rw [hself, hothers, List.append_nil]
    · have hnone : (block q).filter (·.file = shown p) = [] := by
        refine List.filter_eq_nil_iff.mpr fun c hc heq => hnew ?_
        rw [decide_eq_true_eq, hfirst c hc] at heq
        exact heq ▸ List.mem_map_of_mem hp
      rw [hnone, List.nil_append, ih hlater hrest hp]

/-- A call stands in the block of another one, if both have the same file. -/
theorem mem_block_of_file (hblock : ∀ p ∈ paths, ∀ c ∈ block p, c.file = shown p)
    (hdistinct : (paths.map shown).Nodup) {p : Path} (hp : p ∈ paths) {c d : Call}
    (hc : c ∈ block p) (hd : d ∈ paths.flatMap block) (heq : c.file = d.file) : d ∈ block p := by
  rw [← filter_file_flatMap hblock hdistinct hp, List.mem_filter, decide_eq_true_eq, ← heq]
  exact ⟨hd, hblock p hp c hc⟩

/-- The calls of a file are in an order that the calls of every block are in. -/
theorem pairwise_filter_file (hblock : ∀ p ∈ paths, ∀ c ∈ block p, c.file = shown p)
    (hdistinct : (paths.map shown).Nodup) {r : Call → Call → Prop}
    (hordered : ∀ p ∈ paths, (block p).Pairwise r) (file : String) :
    ((paths.flatMap block).filter (·.file = file)).Pairwise r := by
  by_cases hknown : ∃ p ∈ paths, shown p = file
  · obtain ⟨p, hp, rfl⟩ := hknown
    rw [filter_file_flatMap hblock hdistinct hp]
    exact hordered p hp
  · have hnone : (paths.flatMap block).filter (·.file = file) = [] := by
      refine List.filter_eq_nil_iff.mpr fun c hc heq => hknown ?_
      obtain ⟨p, hp, hcp⟩ := List.mem_flatMap.mp hc
      rw [decide_eq_true_eq, hblock p hp c hcp] at heq
      exact ⟨p, hp, heq⟩
    rw [hnone]
    exact .nil

end Blocks

/-! ### The calls of an analysis -/

/-- The calls of a module do not decrease in line, if the lines of its text can be numbered. -/
theorem pairwise_calls_module (hread : read.Spec) {disk : Disk} {root path : Path}
    (h : ∀ text, disk.readText path = .ok text → text.toList.count '\n' + 1 < UInt32.size) :
    (module read disk (readModule disk) root path).1.Pairwise (·.line ≤ ·.line) := by
  rw [calls_module_eq, readModule]
  cases htext : disk.readText path with
  | error e => exact .nil
  | ok text => exact pairwise_recordedIn hread (h text htext)

/-- An analysis succeeds on directories alone, under patterns that are accepted. -/
theorem of_analyze {disk : Disk} {patterns : List String} {root : Path} {analysis : Analysis}
    {notices : List Notice} (h : analyzeWith read disk patterns root = .ok (analysis, notices)) :
    ∃ ignore entries, Ignore.ofPatterns patterns = .ok ignore ∧
      disk.node? root = .ok (.dir entries) := by
  unfold analyzeWith at h
  cases hignore : Ignore.ofPatterns patterns with
  | error e =>
    rw [hignore] at h
    cases h
  | ok ignore =>
    rw [hignore] at h
    cases hroot : disk.node? root with
    | error e =>
      simp only [walk, hroot] at h
      cases h
    | ok node =>
      cases node with
      | dir entries => exact ⟨ignore, entries, rfl, rfl⟩
      | file bytes | sealed =>
        simp only [walk, hroot] at h
        cases h

/-- Modules whose names are UTF-8 are shown differently. -/
theorem nodup_shown {found : List (List OsText)} (h : found.Nodup)
    (hutf8 : ∀ names ∈ found, ∀ n ∈ names, n = .ofString n.shown) :
    (found.map (·.map OsText.shown)).Nodup := by
  rw [List.nodup_map_iff_inj_on h]
  intro names hnames more hmore heq
  have hback {names : List OsText} (hnames : names ∈ found) :
      (names.map OsText.shown).map OsText.ofString = names := by
    rw [List.map_map]
    exact (List.map_congr_left fun n hn => (hutf8 names hnames n hn).symm).trans (List.map_id _)
  rw [← hback hnames, heq, hback hmore]

/-- What a report relies on in the analysis of some modules. -/
structure Ordered (root : Path) (paths : List Path) (analysis : Analysis) : Prop where
  /-- Different modules are shown differently. -/
  distinct : (paths.map (Path.display root)).Nodup
  /-- The calls of a file follow one another, and the files are in the order of the modules. -/
  grouped : analysis.calls =
    paths.flatMap fun p => analysis.calls.filter (·.file = Path.display root p)
  /-- The calls of a file have one label. -/
  labelled : ∀ c ∈ analysis.calls, ∀ d ∈ analysis.calls, c.file = d.file → c.boundary = d.boundary
  /-- The ranking has the calls of a file, and their label. -/
  ranked : ∀ g ∈ Report.ranking analysis.calls, (∀ c ∈ g.calls, c.boundary = g.boundary) ∧
    g.calls = analysis.calls.filter (·.file = g.file)

section Labelled

variable {root : Path} {paths : List Path} {block : Path → List Call} {analysis : Analysis}

/-- The calls of a module that have its file and one label have its file. -/
theorem file_of_labelled
    (hblock : ∀ p ∈ paths, ∃ label, ∀ c ∈ block p,
      c.file = Path.display root p ∧ c.boundary = label) :
    ∀ p ∈ paths, ∀ c ∈ block p, c.file = Path.display root p := by
  intro p hp c hc
  obtain ⟨_, hlabel⟩ := hblock p hp
  exact (hlabel c hc).1

/-- If no two modules are shown alike, the calls of an analysis are what a report relies on. -/
theorem Ordered.of_nodup
    (hblock : ∀ p ∈ paths, ∃ label, ∀ c ∈ block p,
      c.file = Path.display root p ∧ c.boundary = label)
    (hdistinct : (paths.map (Path.display root)).Nodup)
    (hcalls : analysis.calls = paths.flatMap block) : Ordered root paths analysis := by
  have hfile := file_of_labelled hblock
  have hlabel : ∀ c ∈ paths.flatMap block, ∀ d ∈ paths.flatMap block,
      c.file = d.file → c.boundary = d.boundary := by
    intro c hc d hd heq
    obtain ⟨p, hp, hcp⟩ := List.mem_flatMap.mp hc
    have hdp := mem_block_of_file hfile hdistinct hp hcp hd heq
    obtain ⟨_, hlabel⟩ := hblock p hp
    rw [(hlabel c hcp).2, (hlabel d hdp).2]
  rw [← hcalls] at hlabel
  refine ⟨hdistinct, ?_, hlabel, fun g hg => ?_⟩
  · conv_lhs => rw [hcalls]
    rw [hcalls]
    exact List.flatMap_congr fun p hp => (filter_file_flatMap hfile hdistinct hp).symm
  · obtain ⟨hgroup, c, hc, hboundary⟩ := Report.calls_of_mem_ranking hg
    refine ⟨fun d hd => ?_, hgroup⟩
    rw [hgroup, List.mem_filter, decide_eq_true_eq] at hc hd
    rw [← hboundary]
    exact hlabel d hd.1 c hc.1 (hd.2.trans hc.2.symm)

/-- If no two modules are shown alike and the calls of each do not decrease in line, then those of a
file do not, and sorting them by line leaves them as they are. -/
theorem sorted_of_nodup (hfile : ∀ p ∈ paths, ∀ c ∈ block p, c.file = Path.display root p)
    (hdistinct : (paths.map (Path.display root)).Nodup)
    (hlines : ∀ p ∈ paths, (block p).Pairwise (·.line ≤ ·.line))
    (hcalls : analysis.calls = paths.flatMap block) :
    (∀ file, (analysis.calls.filter (·.file = file)).Pairwise (·.line ≤ ·.line)) ∧
      ∀ g ∈ Report.ranking analysis.calls, g.byLine = g.calls := by
  have hsorted := pairwise_filter_file hfile hdistinct hlines
  rw [← hcalls] at hsorted
  refine ⟨hsorted, fun g hg => Report.byLine_eq_calls ?_⟩
  rw [(Report.calls_of_mem_ranking hg).1]
  exact hsorted g.file

end Labelled

/-- The calls of an analysis come module by module, in the order of the modules; those of a module
have its file, one label, and lines that do not decrease. Two modules have one file if each of their
names is read alike, and if no two are, and only then, the analysis is what a report relies on, and
sorting the calls of a file by line leaves them as they are. So it is if all names are UTF-8. What is
said of lines needs that the lines of the modules can be numbered: a line has a number of 32 bits. -/
theorem analyze_ordered (hread : read.Spec) {disk : Disk} {patterns : List String} {root : Path}
    {analysis : Analysis} {notices : List Notice} (hdisk : disk.root.Proper)
    (h : analyzeWith read disk patterns root = .ok (analysis, notices)) :
    ∃ ignore, ∃ found : List (List OsText), Ignore.ofPatterns patterns = .ok ignore ∧
      modules disk ignore root = .ok (found.map root.below) ∧
      analysis.calls = (found.map root.below).flatMap (fun p =>
        (module read disk (readModule disk) root p).1) ∧
      (∀ p ∈ found.map root.below, ∃ label, ∀ c ∈ (module read disk (readModule disk) root p).1,
        c.file = Path.display root p ∧ c.boundary = label) ∧
      (∀ names ∈ found, ∀ more ∈ found,
        Path.display root (root.below names) = Path.display root (root.below more) ↔
          names.map OsText.shown = more.map OsText.shown) ∧
      (Ordered root (found.map root.below) analysis ↔ (found.map (·.map OsText.shown)).Nodup) ∧
      ((∀ names ∈ found, ∀ n ∈ names, n = .ofString n.shown) →
        Ordered root (found.map root.below) analysis) ∧
      ((∀ p ∈ found.map root.below, ∀ text, disk.readText p = .ok text →
          text.toList.count '\n' + 1 < UInt32.size) →
        (∀ p ∈ found.map root.below,
          (module read disk (readModule disk) root p).1.Pairwise (·.line ≤ ·.line)) ∧
        ((found.map (·.map OsText.shown)).Nodup →
          (∀ file, (analysis.calls.filter (·.file = file)).Pairwise (·.line ≤ ·.line)) ∧
          ∀ g ∈ Report.ranking analysis.calls, g.byLine = g.calls)) := by
  obtain ⟨ignore, entries, hignore, hroot⟩ := of_analyze h
  have htree := Disk.proper_of_node? hdisk hroot
  have hshown (names : List OsText) (hnames : names ∈ modulesAt ignore (.dir entries))
      (more : List OsText) (hmore : more ∈ modulesAt ignore (.dir entries)) :=
    display_eq_iff (Disk.ne_empty_of_node? hroot) htree hnames hmore
  have hfound := (@pairwise_modulesAt ignore _ htree).nodup
  obtain ⟨_, hanalyze⟩ := analyze_eq read hignore hroot
  rw [hanalyze] at h
  have hcalls : analysis.calls = ((modulesAt ignore (.dir entries)).map root.below).flatMap fun p =>
      (module read disk (readModule disk) root p).1 := by
    rw [← (Prod.mk.inj (Except.ok.inj h)).1, List.flatMap_map]
  have hmodules := @modules_eq disk ignore root entries hroot
  clear h hanalyze
  generalize modulesAt ignore (.dir entries) = found at hshown hfound hmodules hcalls
  have hblock (p : Path) (_ : p ∈ found.map root.below) :=
    @of_mem_calls_module read disk (readModule disk) root p
  -- The files differ exactly if what is read of the names does.
  have hnodup : ((found.map root.below).map (Path.display root)).Nodup ↔
      (found.map (·.map OsText.shown)).Nodup := by
    rw [List.map_map, List.nodup_map_iff_inj_on hfound, List.nodup_map_iff_inj_on hfound]
    exact forall₄_congr fun names hnames more hmore => imp_congr_left (hshown names hnames more hmore)
  have hordered : Ordered root (found.map root.below) analysis ↔
      (found.map (·.map OsText.shown)).Nodup :=
    ⟨fun h => hnodup.mp h.distinct, fun h => .of_nodup hblock (hnodup.mpr h) hcalls⟩
  refine ⟨ignore, found, hignore, hmodules, hcalls, hblock, hshown, hordered,
    fun hutf8 => hordered.mpr (nodup_shown hfound hutf8), fun hshort => ?_⟩
  have hlines (p : Path) (hp : p ∈ found.map root.below) :=
    @pairwise_calls_module read hread disk root p (hshort p hp)
  exact ⟨hlines, fun hdistinct =>
    sorted_of_nodup (file_of_labelled hblock) (hnodup.mpr hdistinct) hlines hcalls⟩

/-- If two calls of a file have different labels, a file of the ranking has the wrong one for a
call. -/
theorem exists_mislabelled {calls : List Call} {c d : Call} (hc : c ∈ calls) (hd : d ∈ calls)
    (hfile : c.file = d.file) (hlabel : c.boundary ≠ d.boundary) :
    ∃ g ∈ Report.ranking calls, ∃ e ∈ g.calls, e.boundary ≠ g.boundary := by
  refine ⟨_, Report.mem_ranking_iff.mpr ⟨c, hc, rfl⟩, ?_⟩
  have hmem (e : Call) (he : e ∈ calls) (heq : e.file = c.file) :
      e ∈ (Report.fileCalls (calls.filter (·.file = c.file))).calls :=
    List.mem_filter.mpr ⟨he, decide_eq_true heq⟩
  generalize Report.fileCalls (calls.filter (·.file = c.file)) = g at *
  by_cases h : c.boundary = g.boundary
  · exact ⟨d, hmem d hd hfile.symm, h ▸ hlabel.symm⟩
  · exact ⟨c, hmem c hc rfl, h⟩

/-- The name of a module that is not UTF-8, if the byte is none of ASCII. -/
def alikeName (b : UInt8) : OsText :=
  ⟨[b, 0x2E, 0x74, 0x73]⟩

/-- Two modules whose names are read alike. Only the first of them is one of a client. -/
def alikeModules : List (OsText × Node) :=
  [(alikeName 0xFE, .file (Utf8.encode "'use client'; api.u.query();".toList)),
    (alikeName 0xFF, .file (Utf8.encode "api.v.query();".toList))]

/-- A disk with these modules alone. -/
def alikeDisk : Disk :=
  ⟨.dir alikeModules, ⟨"/"⟩⟩

/-- The tree of the two modules is proper. -/
theorem proper_alikeDisk : alikeDisk.root.Proper := by
  refine .dir (by decide) (by decide) ?_
  simp only [alikeModules, List.forall_mem_cons]
  exact ⟨.file _, .file _, List.forall_mem_nil _⟩

/-- Two modules that are shown alike are one file of the report, which has the label of one of them
for the calls of both. -/
theorem analyze_alike : ∃ analysis notices ignore,
    analyze alikeDisk [] ⟨"/"⟩ = .ok (analysis, notices) ∧ Ignore.ofPatterns [] = .ok ignore ∧
    modules alikeDisk ignore ⟨"/"⟩ =
      .ok [Path.below ⟨"/"⟩ [alikeName 0xFE], Path.below ⟨"/"⟩ [alikeName 0xFF]] ∧
    analysis.calls.map (fun c => (c.file, c.boundary)) =
      [("./\uFFFD.ts", .client), ("./\uFFFD.ts", .unknown)] ∧
    ¬ Ordered ⟨"/"⟩ [Path.below ⟨"/"⟩ [alikeName 0xFE], Path.below ⟨"/"⟩ [alikeName 0xFF]] analysis ∧
    ∃ g ∈ Report.ranking analysis.calls, ∃ c ∈ g.calls, c.boundary ≠ g.boundary := by
  obtain ⟨ignore, hignore, hfound⟩ : ∃ ignore, Ignore.ofPatterns [] = .ok ignore ∧
      foundIn ignore isModuleAt [] alikeModules =
        [(alikeName 0xFE, [[alikeName 0xFE]]), (alikeName 0xFF, [[alikeName 0xFF]])] :=
    ⟨_, rfl, by decide +kernel⟩
  have hmodules : modules alikeDisk ignore ⟨"/"⟩ =
      .ok [Path.below ⟨"/"⟩ [alikeName 0xFE], Path.below ⟨"/"⟩ [alikeName 0xFF]] := by
    refine (@modules_eq _ _ _ alikeModules rfl).trans ?_
    rw [modulesAt, foundAt, hfound, List.mergeSort_of_pairwise (by decide)]
    rfl
  obtain ⟨notices, hanalyze⟩ := @analyze_eq parse? alikeDisk _ _ ⟨"/"⟩ alikeModules hignore rfl
  generalize Analysis.mk _ _ = analysis at hanalyze
  obtain ⟨ignore', found, hignore', hmodules', hcalls, -⟩ :=
    analyze_ordered spec_parse? proper_alikeDisk hanalyze
  cases hignore.symm.trans hignore'
  rw [← Except.ok.inj (hmodules.symm.trans hmodules')] at hcalls
  -- Each module gives one call, which tells of the file and of the label.
  have hmade : ([Path.below ⟨"/"⟩ [alikeName 0xFE], Path.below ⟨"/"⟩ [alikeName 0xFF]].flatMap
      fun p => (module parse? alikeDisk (readModule alikeDisk) ⟨"/"⟩ p).1).map
        (fun c => (c.file, c.boundary)) = [("./\uFFFD.ts", .client), ("./\uFFFD.ts", .unknown)] := by
    decide +kernel
  rw [← hcalls] at hmade
  obtain ⟨c, rest, hfirst, hc, hrest⟩ := List.map_eq_cons_iff.mp hmade
  obtain ⟨d, none, rfl, hd, -⟩ := List.map_eq_cons_iff.mp hrest
  obtain ⟨hcfile, hclabel⟩ := Prod.mk.inj hc
  obtain ⟨hdfile, hdlabel⟩ := Prod.mk.inj hd
  have hcmem : c ∈ analysis.calls := by simp [hfirst]
  have hdmem : d ∈ analysis.calls := by simp [hfirst]
  have hfile : c.file = d.file := hcfile.trans hdfile.symm
  have hlabel : c.boundary ≠ d.boundary := by
    rw [hclabel, hdlabel]
    decide
  exact ⟨analysis, notices, ignore, hanalyze, hignore, hmodules, hmade,
    fun h => hlabel (h.labelled c hcmem d hdmem hfile),
    exists_mislabelled hcmem hdmem hfile hlabel⟩

end Crossing.Scan
