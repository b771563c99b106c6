import Crossing.Path
import Crossing.Proofs.Text.Segments
import Mathlib.Data.List.Basic
import Mathlib.Data.List.Induction

/-!
# Components of paths

The components of a joined path are those of its parts (`components_join`), and what has no
component keeps none: the path without what is silent at its end has the same components
(`components_trimmed`). What a path is cut off by and where it leads to depend on the components
alone (`stripPrefix?_join`, `components_join_congr`).
-/

namespace Crossing.Path

open Text

/-- The text that another segment is put behind. -/
def stem (p : Path) : List UInt8 :=
  if p.text.bytes.getLast? = some slash then p.text.bytes.dropLast else p.text.bytes

/-- A path is its stem, perhaps with a slash behind it. -/
theorem text_eq (p : Path) : p.text.bytes = p.stem ∨ p.text.bytes = p.stem ++ [slash] := by
  unfold stem
  split
  · next h =>
    obtain ⟨front, hfront⟩ := List.getLast?_eq_some_iff.mp h
    exact .inr (by rw [hfront, List.dropLast_concat])
  · exact .inl rfl

/-- The segments of a path are those of its stem, and an empty one if it ends in a slash. -/
theorem segments_eq (p : Path) :
    p.segments = p.stem.splitOn slash ∨ p.segments = p.stem.splitOn slash ++ [[]] := by
  rcases p.text_eq with h | h
  · exact .inl (by rw [segments, h])
  · exact .inr (by rw [segments, h, splitOn_append]; rfl)

/-- A path has at least one segment. -/
theorem segments_ne_nil (p : Path) : p.segments ≠ [] :=
  List.splitOn_ne_nil _ _

/-! ### Components -/

/-- The components of joined segments are those of the first ones and then those of the second. -/
theorem inner_append (front back : List Segment) :
    inner (front ++ back) = inner front ++ inner back := by
  simp [inner]

/-- A silent segment in front adds no component. -/
theorem inner_cons_silent {s : Segment} (h : isSilent s = true) (rest : List Segment) :
    inner (s :: rest) = inner rest := by
  simp [inner, h]

/-- Segments have no components exactly if all of them are silent. -/
theorem inner_eq_nil_iff {segments : List Segment} :
    inner segments = [] ↔ ∀ s ∈ segments, isSilent s = true := by
  simp [inner, List.filter_eq_nil_iff]

/-- The components of a path are what it starts with, and those of its other segments. -/
theorem components_eq (p : Path) :
    p.components = (start p.segments).1 ++ inner (start p.segments).2 := rfl

/-- The start of more than one empty segment does not look at what follows. -/
theorem start_append {front : List Segment} (hnil : front ≠ []) (hempty : front ≠ [[]])
    (back : List Segment) :
    start (front ++ back) = ((start front).1, (start front).2 ++ back) := by
  obtain ⟨s, rest, rfl⟩ := List.exists_cons_of_ne_nil hnil
  by_cases hroot : s = []
  · subst hroot
    obtain ⟨t, rest, rfl⟩ := List.exists_cons_of_ne_nil fun h => hempty (congrArg ([] :: ·) h)
    rfl
  by_cases hhere : s = [dot]
  · subst hhere
    rfl
  · have hstart (more : List Segment) : start (s :: more) = ([], s :: more) := by
      unfold start
      split
      · next heq => exact absurd (List.cons.inj heq).1 hroot
      · next heq => exact absurd (List.cons.inj heq).1 hhere
      · rfl
    rw [List.cons_append, hstart, hstart, List.cons_append]

/-- What follows the segments of a path follows them behind the start of the path. -/
theorem start_stem {p : Path} (hp : p.text.bytes ≠ []) {back : List Segment} (hback : back ≠ []) :
    ∃ front, start (p.stem.splitOn slash ++ back) = ((start p.segments).1, front ++ back) ∧
      ((start p.segments).2 = front ∨ (start p.segments).2 = front ++ [[]]) := by
  by_cases hempty : p.stem.splitOn slash = [[]]
  · -- Only the slash by itself has an empty stem.
    rw [hempty]
    have hstem : p.stem = [] := by
      rw [← join_splitOn (c := slash) p.stem, hempty]
      rfl
    have htext : p.text.bytes = [slash] := by
      rcases p.text_eq with h | h
      · rw [hstem] at h
        exact absurd h hp
      · rw [h, hstem]
        rfl
    have hsegments : p.segments = [[], []] := by
      rw [segments, htext]
      rfl
    obtain ⟨s, rest, rfl⟩ := List.exists_cons_of_ne_nil hback
    exact ⟨[], by rw [hsegments]; rfl, .inr (by rw [hsegments]; rfl)⟩
  · have hstart := start_append (List.splitOn_ne_nil slash p.stem) hempty
    refine ⟨(start (p.stem.splitOn slash)).2, ?_⟩
    rw [hstart]
    rcases p.segments_eq with h | h
    · rw [h]
      exact ⟨rfl, .inl rfl⟩
    · rw [h, hstart]
      exact ⟨rfl, .inr rfl⟩

/-- An empty segment at the end adds no component. -/
theorem inner_front {rest front : List Segment} (h : rest = front ∨ rest = front ++ [[]]) :
    inner front = inner rest := by
  rcases h with rfl | rfl
  · rfl
  · rw [inner_append]
    simp [inner, isSilent]

/-- A path that has a text has a component. -/
theorem components_ne_nil {p : Path} (hp : p.text.bytes ≠ []) : p.components ≠ [] := by
  rw [components_eq]
  unfold start
  split
  · exact List.cons_ne_nil _ _
  · exact List.cons_ne_nil _ _
  · next hroot hhere =>
    rw [List.nil_append, Ne, inner_eq_nil_iff]
    intro hsilent
    obtain ⟨s, rest, hsegments⟩ := List.exists_cons_of_ne_nil p.segments_ne_nil
    have hs := hsilent s (by rw [hsegments]; exact List.mem_cons_self)
    rw [isSilent, Bool.or_eq_true, List.isEmpty_iff, beq_iff_eq] at hs
    rcases hs with rfl | rfl
    · cases rest with
      | nil =>
        refine hp ?_
        rw [← join_splitOn (c := slash) p.text.bytes]
        exact congrArg (Text.join [slash]) hsegments
      | cons t rest => exact hroot t rest hsegments
    · exact hhere rest hsegments

/-! ### Joined paths -/

/-- A joined path is the stem of the first one, a slash, and the second one. -/
theorem bytes_join {p q : Path} (hp : p.text.bytes ≠ []) (hq : q.isAbsolute = false) :
    (p.join q).text.bytes = p.stem ++ slash :: q.text.bytes := by
  have hempty : p.text.bytes.isEmpty = false := by simpa using hp
  simp only [join, hq, hempty, Bool.or_false, Bool.false_eq_true, if_false]
  unfold stem
  split
  · next h =>
    obtain ⟨front, hfront⟩ := List.getLast?_eq_some_iff.mp h
    simp [hfront]
  · simp

/-- A joined path is not empty. -/
theorem join_ne_empty {p q : Path} (hp : p.text.bytes ≠ []) (hq : q.isAbsolute = false) :
    (p.join q).text.bytes ≠ [] := by
  intro h
  have htext := bytes_join hp hq
  rw [h] at htext
  simp at htext

/-- The segments of a joined path are those of the stem and then those of the second path. -/
theorem segments_join {p q : Path} (hp : p.text.bytes ≠ []) (hq : q.isAbsolute = false) :
    (p.join q).segments = p.stem.splitOn slash ++ q.segments := by
  rw [segments, bytes_join hp hq, splitOn_append]
  rfl

/-- The components of a joined path are those of its parts, but a `.` that the second starts with
does not count any more. -/
theorem components_join {p q : Path} (hp : p.text.bytes ≠ []) (hq : q.isAbsolute = false) :
    (p.join q).components = p.components ++ inner q.segments := by
  obtain ⟨front, hstart, hfront⟩ := start_stem hp q.segments_ne_nil
  rw [components_eq, segments_join hp hq, hstart, inner_append, inner_front hfront,
    ← List.append_assoc, ← components_eq]

/-- A path is absolute exactly if it starts with an empty segment and has another one. -/
theorem isAbsolute_iff {p : Path} :
    p.isAbsolute = true ↔ ∃ s rest, p.segments = [] :: s :: rest := by
  rw [isAbsolute, beq_iff_eq, List.head?_eq_some_iff]
  constructor
  · rintro ⟨t, ht⟩
    obtain ⟨s, rest, hrest⟩ := List.exists_cons_of_ne_nil (List.splitOn_ne_nil slash t)
    exact ⟨s, rest, by rw [segments, ht, ← List.nil_append (slash :: t), splitOn_append, hrest]; rfl⟩
  · rintro ⟨s, rest, hsegments⟩
    refine ⟨Text.join [slash] (s :: rest), ?_⟩
    rw [← join_splitOn (c := slash) p.text.bytes]
    exact congrArg (Text.join [slash]) hsegments

/-- Only an absolute path starts at the root. -/
theorem isAbsolute_iff_head? {p : Path} :
    p.isAbsolute = true ↔ p.components.head? = some .root := by
  rw [isAbsolute_iff, components_eq]
  unfold start
  split
  · next s rest h => simp [h]
  · next rest h => simp [h]
  · next hroot hhere =>
    refine ⟨fun ⟨s, rest, h⟩ => absurd h (hroot s rest), fun h => ?_⟩
    rw [List.nil_append, inner, List.head?_map, Option.map_eq_some_iff] at h
    obtain ⟨s, -, hs⟩ := h
    split at hs <;> cases hs

/-- The components of a relative path, without the `.` at its start. -/
theorem inner_segments {p : Path} (h : p.isAbsolute = false) :
    inner p.segments = p.components.filter (· ≠ .here) := by
  have hinner (segments : List Segment) :
      (inner segments).filter (· ≠ .here) = inner segments := by
    refine List.filter_eq_self.mpr fun c hc => ?_
    obtain ⟨s, -, rfl⟩ := List.mem_map.mp hc
    split <;> simp
  rw [components_eq]
  unfold start
  split
  · next s rest hsegments =>
    rw [isAbsolute_iff.mpr ⟨s, rest, hsegments⟩] at h
    cases h
  · next rest hsegments =>
    rw [hsegments, List.filter_append, hinner]
    rfl
  · rw [List.nil_append, hinner]

/-- Where a path leads to depends on its components alone. -/
theorem components_join_congr (base : Path) {p q : Path} (h : p.components = q.components) :
    (base.join p).components = (base.join q).components := by
  by_cases hbase : base.text.bytes = []
  · simpa [join, hbase] using h
  · have habsolute : p.isAbsolute = q.isAbsolute := by
      rw [Bool.eq_iff_iff, isAbsolute_iff_head?, isAbsolute_iff_head?, h]
    cases hp : p.isAbsolute with
    | true =>
      rw [hp] at habsolute
      simpa [join, hp, ← habsolute] using h
    | false =>
      rw [hp] at habsolute
      rw [components_join hbase hp, components_join hbase habsolute.symm, inner_segments hp,
        inner_segments habsolute.symm, h]

/-- What has no slash at its start is joined to a path one part after the other. -/
theorem join_join {p q r : Path} (hp : p.text.bytes ≠ []) (hq : q.isAbsolute = false)
    (hend : q.text.bytes.getLast? ≠ some slash) (hr : r.isAbsolute = false) (hne : q.text.bytes ≠ []) :
    (p.join q).join r = p.join ⟨⟨q.text.bytes ++ slash :: r.text.bytes⟩⟩ := by
  have hlast : (p.join q).stem = (p.join q).text.bytes := by
    refine if_neg ?_
    rw [bytes_join hp hq, List.getLast?_append, List.getLast?_cons]
    obtain ⟨c, t, hc⟩ := List.exists_cons_of_ne_nil hne
    rw [hc, List.getLast?_cons] at hend
    simpa [hc, List.getLast?_cons] using hend
  have hlong : Path.isAbsolute ⟨⟨q.text.bytes ++ slash :: r.text.bytes⟩⟩ = false := by
    obtain ⟨c, t, hc⟩ := List.exists_cons_of_ne_nil hne
    rw [isAbsolute, hc] at hq
    simpa [isAbsolute, hc] using hq
  have htext : ((p.join q).join r).text.bytes =
      (p.join ⟨⟨q.text.bytes ++ slash :: r.text.bytes⟩⟩).text.bytes := by
    rw [bytes_join (join_ne_empty hp hq) hr, bytes_join hp hlong, hlast, bytes_join hp hq]
    simp
  exact Path.ext (OsText.ext htext)

/-! ### What is left of a path -/

/-- As many segments as a path has components inside lead to its end. -/
theorem dropWhile_dropInner (front back : List Segment) :
    (dropInner (inner front).length (front ++ back)).dropWhile isSilent =
      back.dropWhile isSilent := by
  induction front with
  | nil =>
    rw [List.nil_append, inner, List.filter_nil, List.map_nil, List.length_nil, dropInner]
  | cons s front ih =>
    cases hs : isSilent s with
    | true =>
      rw [inner_cons_silent hs]
      cases hlength : (inner front).length with
      | zero =>
        rw [hlength, dropInner] at ih
        rw [dropInner, List.cons_append, List.dropWhile_cons_of_pos hs, ih]
      | succ n =>
        rw [hlength] at ih
        rw [List.cons_append, dropInner, if_pos hs, ih]
    | false =>
      have hlength : (inner (s :: front)).length = (inner front).length + 1 := by
        simp [inner, hs]
      rw [hlength, List.cons_append, dropInner, hs]
      exact ih

/-- A path is cut off what is joined to it, however it is written there. -/
theorem stripPrefix?_join {base p q : Path} (hbase : base.components = p.components)
    (hp : p.text.bytes ≠ []) (hq : q.isAbsolute = false) :
    base.stripPrefix? (p.join q) =
      some (ofSegments (trimEnd (q.segments.dropWhile isSilent))) := by
  have hinitial : p.components.isPrefixOf (p.join q).components = true := by
    rw [components_join hp hq, List.isPrefixOf_iff_prefix]
    exact List.prefix_append _ _
  have hempty : p.components.isEmpty = false := by
    rw [← Bool.not_eq_true, List.isEmpty_iff]
    exact components_ne_nil hp
  obtain ⟨front, hstart, hfront⟩ := start_stem hp q.segments_ne_nil
  have hcount : p.components.length - (start p.segments).1.length = (inner front).length := by
    rw [components_eq, inner_front hfront, List.length_append, Nat.add_sub_cancel_left]
  simp only [stripPrefix?, hbase, hinitial, hempty, if_true, Bool.false_eq_true, if_false]
  rw [segments_join hp hq, hstart, hcount, dropWhile_dropInner]

/-! ### The end of a path -/

/-- A silent segment at the end is trimmed. -/
theorem trimEnd_concat_silent {s : Segment} (h : isSilent s = true) (front : List Segment) :
    trimEnd (front ++ [s]) = trimEnd front := by
  simp [trimEnd, h]

/-- A segment at the end that counts stays, and so does all in front of it. -/
theorem trimEnd_concat {s : Segment} (h : isSilent s = false) (front : List Segment) :
    trimEnd (front ++ [s]) = front ++ [s] := by
  simp [trimEnd, h]

/-- An empty segment at the end is trimmed. -/
theorem trimEnd_front {rest front : List Segment} (h : rest = front ∨ rest = front ++ [[]]) :
    trimEnd rest = trimEnd front := by
  rcases h with rfl | rfl
  · rfl
  · exact trimEnd_concat_silent rfl front

/-- Trimming keeps the components. -/
theorem inner_trimEnd (segments : List Segment) : inner (trimEnd segments) = inner segments := by
  induction segments using List.reverseRecOn with
  | nil => rfl
  | append_singleton front s ih =>
    cases hs : isSilent s with
    | true => rw [trimEnd_concat_silent hs, ih, inner_append, inner_cons_silent hs]; simp [inner]
    | false => rw [trimEnd_concat hs]

/-- The path with that start and the segments after it. -/
def ofParts : List Component → List Segment → Path
  | [.root], [] => ⟨"/"⟩
  | [.root], kept => ofSegments ([] :: kept)
  | [.here], kept => ofSegments ([dot] :: kept)
  | _, kept => ofSegments kept

/-- A trimmed path is what the path starts with, and its other segments trimmed. -/
theorem trimmed_eq (p : Path) :
    p.trimmed = ofParts (start p.segments).1 (trimEnd (start p.segments).2) := by
  unfold trimmed start
  split
  · cases trimEnd _ <;> rfl
  · rfl
  · rfl

/-- The parent of a path that ends with a name is the trimmed path without its last segment, trimmed
again. -/
theorem parent?_eq {p : Path} {s : Segment} (h : p.components.getLast? = some (.name s)) :
    p.parent? = some (ofParts (start p.trimmed.segments).1
      (trimEnd (start p.trimmed.segments).2.dropLast)) := by
  unfold parent? start
  rw [h]
  dsimp only
  split
  · cases trimEnd _ <;> rfl
  · rfl
  · rfl

/-- The path of the segments of a path is the path. -/
theorem ofSegments_segments (p : Path) : ofSegments p.segments = p := by
  rw [ofSegments, segments, join_splitOn]

/-- The segments of the path of segments are the segments, if none of them has a slash. -/
theorem segments_ofSegments {segments : List Segment} (hne : segments ≠ [])
    (h : ∀ s ∈ segments, slash ∉ s) : (ofSegments segments).segments = segments := by
  exact splitOn_join hne h

/-- The path of the parts of a path is the path. -/
theorem ofParts_start (p : Path) : ofParts (start p.segments).1 (start p.segments).2 = p := by
  conv_rhs => rw [← ofSegments_segments p]
  unfold start
  split
  · next h => rw [h]; rfl
  · next h => rw [h]; rfl
  · rfl

/-- A path that ends in something that counts has nothing to lose there. -/
theorem trimmed_of_concat {p : Path} {front : List Segment} {s : Segment}
    (h : p.segments = front ++ [s]) (hs : isSilent s = false) : p.trimmed = p := by
  have hend : ∃ before, (start p.segments).2 = before ++ [s] := by
    rw [h]
    by_cases hempty : front = [[]]
    · exact ⟨[], by rw [hempty]; rfl⟩
    by_cases hnil : front = []
    · refine ⟨[], ?_⟩
      rw [hnil]
      unfold start
      split
      · next heq => cases heq
      · next heq =>
        cases heq
        cases hs
      · rfl
    · exact ⟨_, by rw [start_append hnil hempty]⟩
  obtain ⟨before, hbefore⟩ := hend
  rw [trimmed_eq, hbefore, trimEnd_concat hs, ← hbefore, ofParts_start]

/-- Trimmed segments are the first ones of the segments. -/
theorem trimEnd_isPrefix (segments : List Segment) : trimEnd segments <+: segments := by
  rw [trimEnd, ← List.reverse_suffix, List.reverse_reverse]
  exact List.dropWhile_suffix _

/-- What is silent at the end of a path has no component. -/
theorem components_trimmed {p : Path} (hp : p.text.bytes ≠ []) :
    p.trimmed.components = p.components := by
  have hslash : ∀ s ∈ p.segments, slash ∉ s := fun s hs => not_mem_of_mem_splitOn hs
  have hne := components_ne_nil hp
  rw [trimmed_eq, components_eq p]
  rw [components_eq] at hne
  rw [← inner_trimEnd (start p.segments).2] at hne ⊢
  revert hne
  unfold start
  split
  · next s rest hsegments =>
    intro _
    have hkept : ∀ t ∈ trimEnd (s :: rest), slash ∉ t := fun t ht => hslash t (by
      rw [hsegments]
      exact List.mem_cons_of_mem _ ((trimEnd_isPrefix _).mem ht))
    generalize trimEnd (s :: rest) = kept at hkept
    cases kept with
    | nil =>
      have hroot : Path.components ⟨"/"⟩ = [.root] := by decide +kernel
      exact hroot
    | cons t kept =>
      have hback := segments_ofSegments (List.cons_ne_nil [] (t :: kept)) (by simpa using hkept)
      exact (components_eq _).trans (by simp only [ofParts]; rw [hback]; rfl)
  · next rest hsegments =>
    intro _
    have hkept : ∀ t ∈ trimEnd rest, slash ∉ t := fun t ht => hslash t (by
      rw [hsegments]
      exact List.mem_cons_of_mem _ ((trimEnd_isPrefix _).mem ht))
    have hdot : slash ∉ [dot] := by decide
    have hback := segments_ofSegments (List.cons_ne_nil [dot] (trimEnd rest))
      (List.forall_mem_cons.mpr ⟨hdot, hkept⟩)
    exact (components_eq _).trans (by simp only [ofParts]; rw [hback]; rfl)
  · next hroot hhere =>
    intro hne
    have hkept : trimEnd p.segments ≠ [] := by
      intro hnil
      rw [hnil] at hne
      exact hne rfl
    have hback := segments_ofSegments hkept fun t ht => hslash t ((trimEnd_isPrefix _).mem ht)
    obtain ⟨rest, hrest⟩ := trimEnd_isPrefix p.segments
    -- The path starts as what is kept of it.
    have hstart : start (trimEnd p.segments) = ([], trimEnd p.segments) := by
      unfold start
      split
      · next s more heq => exact absurd hrest.symm (by rw [heq]; exact hroot s (more ++ rest))
      · next more heq => exact absurd hrest.symm (by rw [heq]; exact hhere (more ++ rest))
      · rfl
    exact (components_eq _).trans (by simp only [ofParts]; rw [hback, hstart])

/-- More segments make a longer text. -/
theorem join_isPrefix {kept rest : List Segment} (h : kept <+: rest) :
    Text.join [slash] kept <+: Text.join [slash] rest := by
  obtain ⟨more, rfl⟩ := h
  by_cases hkept : kept = []
  · rw [hkept]
    exact List.nil_prefix
  by_cases hmore : more = []
  · simp only [hmore, List.append_nil, List.prefix_rfl]
  · rw [join_append hkept hmore]
    exact List.prefix_append _ _

/-- A path without what is silent at its end is the start of the path. -/
theorem text_trimmed_isPrefix (p : Path) : p.trimmed.text.bytes <+: p.text.bytes := by
  have hlonger {s : Segment} {kept rest : List Segment} (h : kept <+: rest) :
      (ofSegments (s :: kept)).text.bytes <+: (ofSegments (s :: rest)).text.bytes := by
    simpa [ofSegments] using join_isPrefix ((List.prefix_append_right_inj [s]).mpr h)
  have htrim := trimEnd_isPrefix (start p.segments).2
  conv_rhs => rw [← ofParts_start p]
  rw [trimmed_eq]
  revert htrim
  unfold start
  split
  · next s rest _ =>
    intro htrim
    generalize trimEnd (s :: rest) = kept at htrim
    cases kept with
    | nil =>
      have hroot : (OsText.ofString "/").bytes = [slash] := by decide
      simp [ofParts, ofSegments, Text.join, hroot]
    | cons t kept => exact hlonger htrim
  · exact hlonger
  · intro htrim
    simpa [ofParts, ofSegments] using join_isPrefix htrim

/-- The stem of a path without what is silent at its end is the start of the stem. -/
theorem stem_trimmed_isPrefix (p : Path) : p.trimmed.stem <+: p.stem := by
  have htext := p.text_trimmed_isPrefix
  rcases p.trimmed.text_eq with h | h
  · rcases p.text_eq with hp | hp
    · rwa [h, hp] at htext
    · rw [h, hp, List.prefix_concat_iff] at htext
      -- A stem that is the whole text does not end in a slash.
      refine htext.resolve_left fun heq => ?_
      have hlast : p.trimmed.text.bytes.getLast? = some slash := by rw [h, heq, List.getLast?_concat]
      have hstem : p.trimmed.stem = p.trimmed.text.bytes.dropLast := if_pos hlast
      rw [h, heq, List.dropLast_concat] at hstem
      simpa using congrArg List.length hstem
  · rw [h] at htext
    rcases p.text_eq with hp | hp
    · rw [hp] at htext
      exact (List.prefix_append _ _).trans htext
    · rw [hp, List.prefix_concat_iff] at htext
      rcases htext with heq | hinitial
      · simp only [List.append_inj_left' heq rfl, List.prefix_rfl]
      · exact (List.prefix_append _ _).trans hinitial

/-- A trimmed path is empty only if the path is. -/
theorem trimmed_ne_empty {p : Path} (hp : p.text.bytes ≠ []) : p.trimmed.text.bytes ≠ [] := by
  intro h
  have hcomponents := components_trimmed hp
  rw [show p.trimmed = ⟨""⟩ from Path.ext (OsText.ext h)] at hcomponents
  exact components_ne_nil hp hcomponents.symm

/-- A name that is put behind a path is taken off it again. -/
theorem parent?_join {p q : Path} {s : Segment} (hp : p.text.bytes ≠ []) (hq : q.segments = [s])
    (hs : isSilent s = false) (hup : s ≠ [dot, dot]) : (p.join q).parent? = some p.trimmed := by
  have habsolute : q.isAbsolute = false := by
    rw [Bool.eq_false_iff, Ne, isAbsolute_iff, hq]
    simp
  have hlast : (p.join q).components.getLast? = some (.name s) := by
    rw [components_join hp habsolute, hq]
    simp [inner, hs, hup]
  obtain ⟨front, hstart, hfront⟩ := start_stem hp q.segments_ne_nil
  have hsegments := segments_join hp habsolute
  rw [hq] at hsegments hstart
  rw [parent?_eq hlast, trimmed_of_concat hsegments hs, hsegments, hstart, List.dropLast_concat,
    ← trimEnd_front hfront, ← trimmed_eq]

/-- The paths above one that a name was put behind. -/
theorem ancestors_join {p q : Path} {s : Segment} (hp : p.text.bytes ≠ []) (hq : q.segments = [s])
    (hs : isSilent s = false) (hup : s ≠ [dot, dot]) :
    (p.join q).ancestors = p.trimmed :: p.trimmed.ancestors := by
  have habsolute : q.isAbsolute = false := by
    rw [Bool.eq_false_iff, Ne, isAbsolute_iff, hq]
    simp
  have hlength : (p.join q).components.length = p.components.length + 1 := by
    rw [components_join hp habsolute, hq]
    simp [inner, hs]
  rw [ancestors, hlength, ancestorsWithin, parent?_join hp hq hs hup, ancestors,
    components_trimmed hp]

end Crossing.Path
