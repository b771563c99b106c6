import Crossing.Proofs.Glob.Match
import Crossing.Proofs.Glob.Pattern
import Crossing.Proofs.Path.Below
import Crossing.Scan.Ignore

/-!
# What is ignored

Everything below an ignored path is ignored too, whatever the patterns are
(`hereditary_ofPatterns`): the two globs of a pattern complement each other. Patterns without
special signs are always accepted (`ofPatterns_plain`), and ignore the paths in which they stand as
neighbouring segments (`ignores_plain_iff`). Of the paths made of names these are the ones in which
the names of a pattern are a run, whole names and one behind the other (`ignores_runs`).
-/

namespace Crossing.Ignore

open Text Glob

/-- The results of a list of readings that all succeed. -/
theorem mem_mapM_iff {α β ε : Type} {f : α → Except ε β} {xs : List α} {ys : List β}
    (h : xs.mapM f = .ok ys) {y : β} : y ∈ ys ↔ ∃ x ∈ xs, f x = .ok y := by
  induction xs generalizing ys with
  | nil =>
    cases h
    simp
  | cons x xs ih =>
    rw [List.mapM_cons] at h
    cases hx : f x with
    | error e =>
      rw [hx] at h
      cases h
    | ok z =>
      cases hxs : xs.mapM f with
      | error e =>
        rw [hx, hxs] at h
        cases h
      | ok zs =>
        rw [hx, hxs] at h
        cases h
        simp [ih hxs, hx, eq_comm]

/-- A list of readings succeeds if each of them does. -/
theorem exists_mapM {α β ε : Type} {f : α → Except ε β} {xs : List α}
    (h : ∀ x ∈ xs, ∃ y, f x = .ok y) : ∃ ys, xs.mapM f = .ok ys := by
  induction xs with
  | nil => exact ⟨[], rfl⟩
  | cons x xs ih =>
    obtain ⟨y, hy⟩ := h x List.mem_cons_self
    obtain ⟨ys, hys⟩ := ih fun x hx => h x (List.mem_cons_of_mem _ hx)
    exact ⟨y :: ys, by rw [List.mapM_cons, hy, hys]; rfl⟩

/-- A pattern without the slashes around it. -/
def trimmed (pattern : String) : List Char :=
  trimBy (· == '/') pattern.toList

/-- A trimmed pattern does not end with a slash. -/
theorem getLast?_trimmed (pattern : String) : (trimmed pattern).getLast? ≠ some '/' := by
  intro h
  unfold trimmed trimBy trimEndBy at h
  rw [List.getLast?_reverse] at h
  have hnot := List.head?_dropWhile_not (· == '/') (pattern.toList.dropWhile (· == '/')).reverse
  rw [h] at hnot
  simp at hnot

/-- A glob for a name does not end in a slash. -/
theorem getLast?_anchored {pattern : String} (h : trimmed pattern ≠ []) :
    ("**/".toList ++ trimmed pattern).getLast? ≠ some '/' := by
  rw [List.getLast?_append, Option.or_of_isSome (List.getLast?_isSome.mpr h)]
  exact getLast?_trimmed pattern

/-- A pattern stands for what is below it and for itself, at any depth; slashes alone stand for
nothing. -/
theorem ofPattern_eq (pattern : String) :
    ofPattern pattern = if trimmed pattern = [] then .ok [] else
      ["**/".toList ++ trimmed pattern ++ "/**".toList, "**/".toList ++ trimmed pattern].mapM
        (parseGlob (trimmed pattern)) := by
  by_cases hnil : trimmed pattern = []
  · rw [if_pos hnil]
    exact if_pos (List.isEmpty_iff.mpr hnil)
  · rw [if_neg hnil]
    exact if_neg (mt List.isEmpty_iff.mp hnil)

/-- The glob of a pattern is read as the tokens that it is read as by itself. -/
theorem parseGlob_eq_ok_iff {pattern glob : List Char} {ts : List Token} :
    parseGlob pattern glob = .ok ts ↔ parse glob = .ok ts := by
  unfold parseGlob
  cases parse glob <;> simp [Except.mapError]

/-- An accepted pattern has a glob for its name and one for what is below, unless it is empty. -/
theorem ofPattern_eq_ok_iff {pattern : String} {globs : List (List Token)}
    (hpattern : trimmed pattern ≠ []) :
    ofPattern pattern = .ok globs ↔ ∃ name below, globs = [below, name] ∧
      parse ("**/".toList ++ trimmed pattern) = .ok name ∧
      parse ("**/".toList ++ trimmed pattern ++ "/**".toList) = .ok below := by
  rw [ofPattern_eq, if_neg hpattern]
  simp only [← @parseGlob_eq_ok_iff (trimmed pattern)]
  generalize parseGlob (trimmed pattern) = read
  rw [List.mapM_cons, List.mapM_cons]
  cases read ("**/".toList ++ trimmed pattern ++ "/**".toList) with
  | error e => exact ⟨nofun, nofun⟩
  | ok below =>
    cases read ("**/".toList ++ trimmed pattern) with
    | error e => exact ⟨nofun, nofun⟩
    | ok name =>
      change Except.ok [below, name] = _ ↔ _
      simp [eq_comm]

/-- The globs of an accepted pattern complement each other. -/
theorem below_of_mem {pattern : String} {globs : List (List Token)} {glob : List Token}
    (h : ofPattern pattern = .ok globs) (hglob : glob ∈ globs) :
    ∃ name, ∃ below ∈ globs, Below name below ∧ (glob = below ∨ glob = name) := by
  by_cases hnil : trimmed pattern = []
  · rw [ofPattern_eq, if_pos hnil] at h
    cases h
    exact absurd hglob List.not_mem_nil
  · obtain ⟨name, below, rfl, hname, hbelow⟩ := (ofPattern_eq_ok_iff hnil).mp h
    obtain ⟨us, hus, hrel⟩ := parse_below (getLast?_anchored hnil) hname
    cases hbelow.symm.trans hus
    exact ⟨name, below, List.mem_cons_self, hrel, by simpa using hglob⟩

/-- The globs of accepted patterns are those of the patterns, together. -/
theorem mem_globs_iff {patterns : List String} {i : Ignore} (h : ofPatterns patterns = .ok i)
    {glob : List Token} : glob ∈ i.globs ↔
      ∃ pattern ∈ dependencyNames ++ patterns, ∃ globs, ofPattern pattern = .ok globs ∧
        glob ∈ globs := by
  unfold ofPatterns at h
  cases hread : (dependencyNames ++ patterns).mapM ofPattern with
  | error e =>
    rw [hread] at h
    cases h
  | ok all =>
    rw [hread] at h
    cases h
    rw [List.mem_flatten]
    simp only [mem_mapM_iff hread]
    constructor
    · rintro ⟨globs, ⟨p, hp, hglobs⟩, hmem⟩
      exact ⟨p, hp, globs, hglobs, hmem⟩
    · rintro ⟨p, hp, globs, hglobs, hmem⟩
      exact ⟨globs, ⟨p, hp, hglobs⟩, hmem⟩

/-- A pattern for what is in a directory is no name. -/
theorem isName_concat_trailing (ts : List Token) : isName (ts ++ [.trailing]) = false := by
  unfold isName
  split
  · next rest heq =>
    cases ts with
    | nil => cases heq
    | cons t ts =>
      obtain ⟨-, rfl⟩ := List.cons.inj heq
      simp
  · rfl

/-- A glob that takes a text takes what is below it, or the one that complements it does. -/
theorem exists_isMatch_below {name below glob : List Token} (hbelow : Below name below)
    (hglob : glob = below ∨ glob = name) {d : List UInt8} (h : isMatch glob d = true)
    (x : List UInt8) : isMatch below (d ++ Path.slash :: x) = true ∧ isName below = false := by
  cases hbelow with
  | more hne =>
    refine ⟨?_, isName_concat_trailing name⟩
    rcases hglob with rfl | rfl
    · exact isMatch_trailing_append h x
    · exact isMatch_trailing hne h x
  | all heq =>
    subst heq
    exact ⟨rfl, rfl⟩
  | same us heq =>
    subst heq
    rw [or_self] at hglob
    subst hglob
    exact ⟨isMatch_trailing_append h x, isName_concat_trailing us⟩

/-- Everything below a path that is ignored is ignored too. -/
def Hereditary (i : Ignore) : Prop :=
  ∀ d x, i.ignores ⟨⟨d⟩⟩ = true → i.ignores ⟨⟨d ++ Path.slash :: x⟩⟩ = true

/-- Whatever the patterns are, they ignore all that is below a path that they ignore. -/
theorem hereditary_ofPatterns {patterns : List String} {i : Ignore}
    (hi : ofPatterns patterns = .ok i) : i.Hereditary := by
  intro d x h
  obtain ⟨glob, hglob, htakes⟩ := List.any_eq_true.mp h
  obtain ⟨pattern, hpattern, globs, hglobs, hmem⟩ := (mem_globs_iff hi).mp hglob
  obtain ⟨name, below, hbelow, hrel, hor⟩ := below_of_mem hglobs hmem
  obtain ⟨hmatch, hnamed⟩ := exists_isMatch_below hrel hor (Bool.and_eq_true_iff.mp htakes).2 x
  have hglob : below ∈ i.globs :=
    (mem_globs_iff hi).mpr ⟨pattern, hpattern, globs, hglobs, hbelow⟩
  refine List.any_eq_true.mpr ⟨below, hglob, ?_⟩
  rw [hnamed, Bool.and_false, Bool.not_false, Bool.true_and]
  simpa using hmatch

/-! ### Patterns without special signs -/

/-- The globs of a pattern without special signs. -/
def plainGlobs (p : List Char) : List (List Token) :=
  if p = [] then [] else [.leading :: p.map .literal ++ [.trailing], .leading :: p.map .literal]

/-- A pattern without special signs is accepted. -/
theorem ofPattern_plain {pattern : String} (h : ∀ c ∈ trimmed pattern, c ∉ signs) :
    ofPattern pattern = .ok (plainGlobs (trimmed pattern)) := by
  by_cases hnil : trimmed pattern = []
  · rw [ofPattern_eq, plainGlobs, if_pos hnil, if_pos hnil]
  · rw [plainGlobs, if_neg hnil, ofPattern_eq_ok_iff hnil]
    obtain ⟨us, hus, hrel⟩ := parse_below (getLast?_anchored hnil) (parse_plain h)
    refine ⟨_, _, rfl, parse_plain h, hus.trans (congrArg Except.ok ?_)⟩
    exact hrel.plain hnil

/-- No special sign stands in the patterns, slashes around them aside. -/
def Plain (patterns : List String) : Prop :=
  ∀ p ∈ patterns, ∀ c ∈ trimmed p, c ∉ signs

instance (patterns : List String) : Decidable (Plain patterns) :=
  decidable_of_iff (patterns.all fun p => (trimmed p).all fun c => !signs.contains c)
    (by simp [Plain])

/-- Plain patterns stay plain with the names of dependencies among them. -/
theorem Plain.withDependencies {patterns : List String} (h : Plain patterns) :
    Plain (dependencyNames ++ patterns) := by
  have hnames : Plain dependencyNames := by decide
  intro p hp
  exact (List.mem_append.mp hp).elim (hnames p) (h p)

/-- Patterns without special signs are accepted. -/
theorem ofPatterns_plain {patterns : List String} (h : Plain patterns) :
    ∃ i, ofPatterns patterns = .ok i := by
  have hread : ∀ p ∈ dependencyNames ++ patterns, ∃ globs, ofPattern p = .ok globs :=
    fun p hp => ⟨_, ofPattern_plain (h.withDependencies p hp)⟩
  obtain ⟨all, hall⟩ := exists_mapM hread
  exact ⟨⟨all.flatten⟩, by rw [ofPatterns, hall]; rfl⟩

/-- Patterns without special signs ignore the paths in which they stand as neighbouring segments. -/
theorem ignores_plain_iff {patterns : List String} {i : Ignore} (hi : ofPatterns patterns = .ok i)
    (h : Plain patterns) {path : Path} (hpath : path.segments.getLast? ≠ some [Path.dot, Path.dot]) :
    i.ignores path = true ↔ ∃ p ∈ dependencyNames ++ patterns,
      trimmed p ≠ [] ∧ ((trimmed p).splitOn '/').map Utf8.encode <:+: path.segments := by
  have hnamed : (path.segments.getLast? == some [Path.dot, Path.dot]) = false :=
    beq_eq_false_iff_ne.mpr hpath
  simp only [ignores, hnamed, Bool.false_and, Bool.not_false, Bool.true_and, List.any_eq_true,
    mem_globs_iff hi]
  constructor
  · rintro ⟨glob, ⟨p, hp, globs, hglobs, hmem⟩, hmatch⟩
    rw [ofPattern_plain (h.withDependencies p hp)] at hglobs
    cases hglobs
    unfold plainGlobs at hmem
    split at hmem
    · exact absurd hmem List.not_mem_nil
    · next hnil =>
      refine ⟨p, hp, hnil, (isMatch_plain_iff hnil).mp ?_⟩
      rcases List.mem_cons.mp hmem with rfl | hmem
      · exact .inl hmatch
      · rw [List.mem_singleton.mp hmem] at hmatch
        exact .inr hmatch
  · rintro ⟨p, hp, hnil, hinfix⟩
    have hglobs := ofPattern_plain (h.withDependencies p hp)
    rw [plainGlobs, if_neg hnil] at hglobs
    rcases (isMatch_plain_iff hnil).mpr hinfix with hmatch | hmatch
    · exact ⟨_, ⟨p, hp, _, hglobs, List.mem_cons_self⟩, hmatch⟩
    · exact ⟨_, ⟨p, hp, _, hglobs, List.mem_cons_of_mem _ List.mem_cons_self⟩, hmatch⟩

/-! ### Paths made of names -/

/-- Whether the bytes of the segments of a pattern are neighbours among names. A pattern of slashes
alone has none. -/
def RunsIn (names : List OsText) (pattern : String) : Prop :=
  trimmed pattern ≠ [] ∧ ((trimmed pattern).splitOn '/').map Utf8.encode <:+: names.map OsText.bytes

instance (names : List OsText) (pattern : String) : Decidable (RunsIn names pattern) :=
  inferInstanceAs (Decidable (_ ∧ _))

/-- Patterns without special signs ignore the paths of names in which they are a run. -/
theorem ignores_ofNames_iff {patterns : List String} {i : Ignore}
    (hi : ofPatterns patterns = .ok i) (h : Plain patterns) {names : List OsText}
    (hnames : ∀ n ∈ names, FileName n) :
    i.ignores (.ofNames names) = true ↔ ∃ p ∈ dependencyNames ++ patterns, RunsIn names p := by
  rw [ignores_plain_iff hi h (Path.getLast?_segments_ofNames hnames)]
  refine exists_congr fun p => and_congr_right fun _ => and_congr_right fun hp => ?_
  by_cases hnil : names = []
  · -- The empty path has one segment, which is empty, as no pattern is.
    subst hnil
    have hsegments : (Path.ofNames []).segments = [[]] := by decide
    have hne := List.splitOn_ne_nil Path.slash (Utf8.encode (trimmed p))
    rw [hsegments, ← Utf8.splitOn_encode]
    refine iff_of_false (fun hinfix => hp ?_) (fun hinfix => hne (List.infix_nil.mp hinfix))
    have hsplit := (List.sublist_singleton.mp hinfix.sublist).resolve_left hne
    apply Utf8.encode_injective
    rw [← join_splitOn (c := Path.slash) (Utf8.encode (trimmed p)), hsplit]
    rfl
  · rw [Path.segments_ofNames hnil hnames]

/-- Patterns without special signs are accepted, and ignore exactly the paths of names in which one
of them, or the name of the directories of dependencies, is a run of whole names. -/
theorem ignores_runs {patterns : List String} (h : Plain patterns) :
    ∃ i, ofPatterns patterns = .ok i ∧ ∀ names : List OsText, (∀ n ∈ names, FileName n) →
      (i.ignores (.ofNames names) = true ↔ ∃ p ∈ "node_modules" :: patterns, RunsIn names p) := by
  obtain ⟨i, hi⟩ := ofPatterns_plain h
  exact ⟨i, hi, fun _ hnames => ignores_ofNames_iff hi h hnames⟩

/-- A pattern of two names takes what is below these two and not what is below a longer name. -/
theorem ignores_runs_sample : Plain ["/gen/api/", "//"] ∧
    ∃ i, ofPatterns ["/gen/api/", "//"] = .ok i ∧
      i.ignores (.ofNames ["src", "gen", "api", "x.ts"]) = true ∧
      i.ignores (.ofNames ["gen", "apis"]) = false := by
  have hplain : Plain ["/gen/api/", "//"] := by decide
  obtain ⟨i, hi, hruns⟩ := ignores_runs hplain
  refine ⟨hplain, i, hi, ?_, ?_⟩
  · exact (hruns ["src", "gen", "api", "x.ts"] (by decide)).mpr
      ⟨"/gen/api/", by decide, by decide +kernel⟩
  · rw [← Bool.not_eq_true, hruns ["gen", "apis"] (by decide)]
    decide +kernel

end Crossing.Ignore
