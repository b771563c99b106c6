import Crossing.Proofs.Path.Join
import Crossing.Proofs.Text.Lossy
import Mathlib.Data.List.Infix
import Mathlib.Data.List.Induction

/-!
# Paths below a path

What names lead to from a path (`below`). Its components are those of the path and then the names
(`components_below`), so whatever has the components of the path is cut off it (`stripPrefix?_below`)
and it is shown as the names (`display_below`), as far as these can be read: different names are
shown alike exactly if each of them is (`readable_eq_iff`). The paths above it are those that fewer
names lead to, and then those above the path (`ancestors_below`).
-/

namespace Crossing

open Text

/-- Whether bytes can name an entry of a directory. -/
structure FileName (name : OsText) : Prop where
  ne_nil : name.bytes ≠ []
  no_slash : Path.slash ∉ name.bytes
  ne_here : name.bytes ≠ [Path.dot]
  ne_up : name.bytes ≠ [Path.dot, Path.dot]

instance (name : OsText) : Decidable (FileName name) :=
  decidable_of_iff (name.bytes ≠ [] ∧ Path.slash ∉ name.bytes ∧ name.bytes ≠ [Path.dot] ∧
      name.bytes ≠ [Path.dot, Path.dot])
    ⟨fun ⟨h₁, h₂, h₃, h₄⟩ => ⟨h₁, h₂, h₃, h₄⟩, fun ⟨h₁, h₂, h₃, h₄⟩ => ⟨h₁, h₂, h₃, h₄⟩⟩

/-- The name of a file counts as a component. -/
theorem FileName.not_silent {name : OsText} (h : FileName name) :
    Path.isSilent name.bytes = false := by
  simp [Path.isSilent, h.ne_nil, h.ne_here]

namespace Path

/-- A path below a path below a path. -/
theorem below_append (p : Path) (names more : List OsText) :
    p.below (names ++ more) = (p.below names).below more :=
  List.foldl_append

/-- The last name is joined last. -/
theorem below_concat (p : Path) (names : List OsText) (name : OsText) :
    p.below (names ++ [name]) = (p.below names).join ⟨name⟩ :=
  List.foldl_append

/-! ### Paths that are made of names -/

/-- The bytes of a path of names have the byte of a slash between those of the names. -/
theorem bytes_ofNames (names : List OsText) :
    (ofNames names).text.bytes = Text.join [slash] (names.map OsText.bytes) := rfl

/-- The path of one name is the name. -/
theorem ofNames_singleton (name : OsText) : ofNames [name] = ⟨name⟩ := rfl

/-- Further names go on behind a slash. -/
theorem bytes_ofNames_append {names more : List OsText} (hnames : names ≠ []) (hmore : more ≠ []) :
    (ofNames (names ++ more)).text.bytes =
      (ofNames names).text.bytes ++ slash :: (ofNames more).text.bytes := by
  rw [bytes_ofNames, List.map_append]
  exact join_append (by simpa using hnames) (by simpa using hmore)

/-- The segments of a path made of names are the names. -/
theorem segments_ofNames {names : List OsText} (hne : names ≠ [])
    (hnames : ∀ n ∈ names, FileName n) : (ofNames names).segments = names.map OsText.bytes := by
  rw [segments, bytes_ofNames]
  refine splitOn_join (by simpa using hne) fun s hs => ?_
  obtain ⟨n, hn, rfl⟩ := List.mem_map.mp hs
  exact (hnames n hn).no_slash

/-- A path that is made of names does not end in `..`. -/
theorem getLast?_segments_ofNames {names : List OsText} (hnames : ∀ n ∈ names, FileName n) :
    (ofNames names).segments.getLast? ≠ some [dot, dot] := by
  by_cases hnil : names = []
  · subst hnil
    decide
  · rw [segments_ofNames hnil hnames]
    intro h
    obtain ⟨n, hn, heq⟩ := List.mem_map.mp (List.mem_of_getLast? h)
    exact (hnames n hn).ne_up heq

/-- A path made of names is not absolute. -/
theorem isAbsolute_ofNames {names : List OsText} (hne : names ≠ [])
    (hnames : ∀ n ∈ names, FileName n) : (ofNames names).isAbsolute = false := by
  rw [Bool.eq_false_iff, Ne, isAbsolute_iff, segments_ofNames hne hnames]
  rintro ⟨s, rest, heq⟩
  obtain ⟨n, names, rfl⟩ := List.exists_cons_of_ne_nil hne
  exact (hnames n List.mem_cons_self).ne_nil (List.cons.inj heq).1

/-- Names that are segments are components. -/
theorem inner_names {names : List OsText} (hnames : ∀ n ∈ names, FileName n) :
    inner (names.map OsText.bytes) = names.map fun n => .name n.bytes := by
  induction names with
  | nil => rfl
  | cons n names ih =>
    have hn := hnames n List.mem_cons_self
    have hrest := ih fun m hm => hnames m (List.mem_cons_of_mem n hm)
    rw [List.map_cons, List.map_cons, ← hrest]
    simp [inner, hn.not_silent, hn.ne_up]

/-- A name alone is no absolute path. -/
theorem isAbsolute_name {name : OsText} (h : FileName name) :
    Path.isAbsolute ⟨name⟩ = false := by
  have hnames : ∀ n ∈ [name], FileName n := by simpa using h
  exact isAbsolute_ofNames (List.cons_ne_nil name []) hnames

/-- A name alone is the only segment of its path. -/
theorem segments_name {name : OsText} (h : FileName name) :
    Path.segments ⟨name⟩ = [name.bytes] := by
  have hnames : ∀ n ∈ [name], FileName n := by simpa using h
  exact segments_ofNames (List.cons_ne_nil name []) hnames

/-- A path below one that is not empty is not empty. -/
theorem below_ne_empty {p : Path} (hp : p.text.bytes ≠ []) {names : List OsText}
    (hnames : ∀ n ∈ names, FileName n) : (p.below names).text.bytes ≠ [] := by
  induction names using List.reverseRecOn with
  | nil => exact hp
  | append_singleton names n ih =>
    rw [below_concat]
    exact join_ne_empty (ih fun m hm => hnames m (List.mem_append_left [n] hm))
      (isAbsolute_name (hnames n (by simp)))

/-- The components of a path below another are those of the other and the names. -/
theorem components_below {p : Path} (hp : p.text.bytes ≠ []) {names : List OsText}
    (hnames : ∀ n ∈ names, FileName n) :
    (p.below names).components = p.components ++ names.map fun n => .name n.bytes := by
  induction names using List.reverseRecOn with
  | nil => exact (List.append_nil _).symm
  | append_singleton names n ih =>
    have hbefore : ∀ m ∈ names, FileName m := fun m hm => hnames m (List.mem_append_left [n] hm)
    have hn : FileName n := hnames n (by simp)
    have hinner := @inner_names [n] (by simpa using hn)
    rw [below_concat, components_join (below_ne_empty hp hbefore) (isAbsolute_name hn),
      segments_name hn, ih hbefore, List.map_append, List.append_assoc]
    exact congrArg _ (congrArg _ hinner)

/-- Different names lead to different paths. -/
theorem below_injective {p : Path} (hp : p.text.bytes ≠ []) {names more : List OsText}
    (hnames : ∀ n ∈ names, FileName n) (hmore : ∀ n ∈ more, FileName n)
    (h : p.below names = p.below more) : names = more := by
  have hcomponents := congrArg components h
  rw [components_below hp hnames, components_below hp hmore] at hcomponents
  refine List.map_injective_iff.mpr ?_ (List.append_cancel_left hcomponents)
  exact fun n m hnm => OsText.ext (Component.name.inj hnm)

/-- Seen from a directory, a path below another has the names behind the components of the other. -/
theorem components_join_below (base : Path) {p : Path} (hp : p.text.bytes ≠ []) {names : List OsText}
    (hnames : ∀ n ∈ names, FileName n) :
    (base.join (p.below names)).components =
      (base.join p).components ++ names.map fun n => .name n.bytes := by
  have hbelow := components_below hp hnames
  by_cases hbase : base.text.bytes = []
  · simpa [join, hbase] using hbelow
  have hne := components_ne_nil hp
  have habsolute : (p.below names).isAbsolute = p.isAbsolute := by
    rw [Bool.eq_iff_iff, isAbsolute_iff_head?, isAbsolute_iff_head?, hbelow,
      List.head?_append_of_ne_nil _ hne]
  cases hroot : p.isAbsolute with
  | true =>
    rw [hroot] at habsolute
    simpa [join, hroot, habsolute] using hbelow
  | false =>
    rw [hroot] at habsolute
    rw [components_join hbase hroot, components_join hbase habsolute, inner_segments hroot,
      inner_segments habsolute, hbelow, List.filter_append, List.append_assoc]
    congr 2
    exact List.filter_eq_self.mpr (by simp)

/-- Names lead on one after the other as they do at once. -/
theorem below_eq_join {p : Path} (hp : p.text.bytes ≠ []) {names : List OsText} (hne : names ≠ [])
    (hnames : ∀ n ∈ names, FileName n) : p.below names = p.join (ofNames names) := by
  induction names generalizing p with
  | nil => contradiction
  | cons n names ih =>
    have hn : FileName n := hnames n List.mem_cons_self
    have hrest : ∀ m ∈ names, FileName m := fun m hm => hnames m (List.mem_cons_of_mem n hm)
    by_cases hnil : names = []
    · subst hnil
      rfl
    · have hend : n.bytes.getLast? ≠ some slash :=
        fun h => hn.no_slash (List.mem_of_getLast? h)
      have hcons : (ofNames (n :: names)).text.bytes =
          n.bytes ++ slash :: (ofNames names).text.bytes :=
        bytes_ofNames_append (List.cons_ne_nil n []) hnil
      calc (p.join ⟨n⟩).below names = (p.join ⟨n⟩).join (ofNames names) :=
            ih (join_ne_empty hp (isAbsolute_name hn)) hnil hrest
        _ = p.join ⟨⟨n.bytes ++ slash :: (ofNames names).text.bytes⟩⟩ :=
            join_join hp (isAbsolute_name hn) hend (isAbsolute_ofNames hnil hrest) hn.ne_nil
        _ = p.join (ofNames (n :: names)) := by rw [← hcons]

/-! ### What is left below a path -/

/-- The components of a path made of names are the names. -/
theorem components_ofNames {names : List OsText} (hne : names ≠ [])
    (hnames : ∀ n ∈ names, FileName n) :
    (ofNames names).components = names.map fun n => .name n.bytes := by
  have hstart : start (names.map OsText.bytes) = ([], names.map OsText.bytes) := by
    obtain ⟨n, names, rfl⟩ := List.exists_cons_of_ne_nil hne
    have hn := hnames n List.mem_cons_self
    unfold start
    split
    · next heq => exact absurd (List.cons.inj heq).1 hn.ne_nil
    · next heq => exact absurd (List.cons.inj heq).1 hn.ne_here
    · rfl
  rw [components_eq, segments_ofNames hne hnames, hstart, List.nil_append, inner_names hnames]

/-- A name alone is the only component of its path. -/
theorem components_name {name : OsText} (h : FileName name) :
    Path.components ⟨name⟩ = [.name name.bytes] := by
  have hnames : ∀ n ∈ [name], FileName n := by simpa using h
  exact components_ofNames (List.cons_ne_nil name []) hnames

/-- A path is cut off the paths below it, however it is written. -/
theorem stripPrefix?_below {base p : Path} (hbase : base.components = p.components)
    (hp : p.text.bytes ≠ []) {names : List OsText} (hne : names ≠ [])
    (hnames : ∀ n ∈ names, FileName n) :
    base.stripPrefix? (p.below names) = some (ofNames names) := by
  rw [below_eq_join hp hne hnames,
    stripPrefix?_join hbase hp (isAbsolute_ofNames hne hnames), segments_ofNames hne hnames]
  have hsilent : ∀ n ∈ names, isSilent n.bytes = false := fun n hn => (hnames n hn).not_silent
  have hfirst : (names.map OsText.bytes).dropWhile isSilent = names.map OsText.bytes := by
    obtain ⟨n, names, rfl⟩ := List.exists_cons_of_ne_nil hne
    rw [List.map_cons, List.dropWhile_cons_of_neg (by simp [hsilent n])]
  have hlast : trimEnd (names.map OsText.bytes) = names.map OsText.bytes := by
    rw [← List.dropLast_concat_getLast hne, List.map_append]
    exact trimEnd_concat (hsilent _ (List.getLast_mem hne)) _
  rw [hfirst, hlast, ← segments_ofNames hne hnames, ofSegments_segments]

/-- What can be read of names, with slashes between them. -/
def readable (names : List OsText) : List Char :=
  Text.join ['/'] (names.map fun n => Utf8.decodeLossy n.bytes)

/-- A path below another is shown as its names. -/
theorem display_below {base p : Path} (hbase : base.components = p.components)
    (hp : p.text.bytes ≠ []) {names : List OsText} (hne : names ≠ [])
    (hnames : ∀ n ∈ names, FileName n) :
    display base (p.below names) = "./" ++ .ofList (readable names) := by
  rw [display, stripPrefix?_below hbase hp hne hnames]
  dsimp only
  rw [components_ofNames hne hnames, List.map_map]
  rfl

/-- Names are shown alike exactly if each of them is read alike. -/
theorem readable_eq_iff {names more : List OsText} (hne : names ≠ []) (hmne : more ≠ [])
    (hnames : ∀ n ∈ names, FileName n) (hmore : ∀ n ∈ more, FileName n) :
    readable names = readable more ↔ names.map OsText.shown = more.map OsText.shown := by
  have hslash {names : List OsText} (hnames : ∀ n ∈ names, FileName n) :
      ∀ s ∈ names.map fun n => Utf8.decodeLossy n.bytes, '/' ∉ s := by
    intro s hs
    obtain ⟨n, hn, rfl⟩ := List.mem_map.mp hs
    exact mt (Utf8.mem_decodeLossy_iff (c := '/') (by decide)).mp (hnames n hn).no_slash
  have hread : readable names = readable more ↔
      (names.map fun n => Utf8.decodeLossy n.bytes) = more.map fun n => Utf8.decodeLossy n.bytes := by
    refine ⟨fun h => ?_, congrArg (Text.join ['/'])⟩
    rw [← splitOn_join (by simpa using hne) (hslash hnames),
      ← splitOn_join (by simpa using hmne) (hslash hmore)]
    exact congrArg (List.splitOn '/') h
  have hshown (names : List OsText) : names.map OsText.shown =
      (names.map fun n => Utf8.decodeLossy n.bytes).map String.ofList := by
    rw [List.map_map]
    rfl
  rw [hread, hshown, hshown,
    (List.map_injective_iff.mpr fun _ _ h => String.ofList_injective h).eq_iff]

/-- The paths above a path below another: the one without the last name is the nearest. -/
theorem ancestors_below_concat {p : Path} (hp : p.text.bytes ≠ []) {names : List OsText}
    {name : OsText}
    (hnames : ∀ n ∈ names ++ [name], FileName n) :
    (p.below (names ++ [name])).ancestors =
      (p.below names).trimmed :: (p.below names).trimmed.ancestors := by
  have hbefore : ∀ n ∈ names, FileName n := fun n hn => hnames n (List.mem_append_left _ hn)
  have hname := hnames name (by simp)
  rw [below_concat]
  exact ancestors_join (below_ne_empty hp hbefore) (segments_name hname) hname.not_silent
    hname.ne_up

/-- A path that ends in a name has nothing to lose at its end. -/
theorem trimmed_below {p : Path} (hp : p.text.bytes ≠ []) {names : List OsText} (hne : names ≠ [])
    (hnames : ∀ n ∈ names, FileName n) : (p.below names).trimmed = p.below names := by
  have hlast := hnames _ (List.getLast_mem hne)
  have hsegments : (p.below names).segments =
      (p.stem.splitOn slash ++ names.dropLast.map OsText.bytes) ++ [(names.getLast hne).bytes] := by
    rw [below_eq_join hp hne hnames, segments_join hp (isAbsolute_ofNames hne hnames),
      segments_ofNames hne hnames, List.append_assoc]
    conv_lhs => rw [← List.dropLast_concat_getLast hne, List.map_append]
    rfl
  exact trimmed_of_concat hsegments hlast.not_silent

/-- The paths above a path below another: those that fewer names lead to, and then those above the
other. -/
theorem ancestors_below {p : Path} (hp : p.text.bytes ≠ []) {names : List OsText} {name : OsText}
    (hnames : ∀ n ∈ names ++ [name], FileName n) :
    (p.below (names ++ [name])).ancestors =
      (names.inits.reverse.map fun front => (p.below front).trimmed) ++ p.trimmed.ancestors := by
  induction names using List.reverseRecOn generalizing name with
  | nil =>
    rw [ancestors_below_concat hp hnames]
    simp [below]
  | append_singleton names m ih =>
    have hbefore : ∀ n ∈ names ++ [m], FileName n := fun n hn => hnames n (List.mem_append_left _ hn)
    rw [ancestors_below_concat hp hnames, trimmed_below hp (by simp) hbefore, ih hbefore,
      List.inits_append]
    simp [trimmed_below hp (by simp) hbefore]

end Path

end Crossing
