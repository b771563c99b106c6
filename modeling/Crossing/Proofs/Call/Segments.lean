import Crossing.Proofs.Call.Chain
import Mathlib.Data.List.Infix

/-!
# Callees are split where segments meet

A text that closes the brackets and strings it opens, with no dot outside of them, is one segment
(`IsSegment`). Segments with separators between them come apart again, whatever stands in their
brackets and wherever blanks are put (`ofCallee?_spell`). The splitter is back in its first state
behind each segment, so that it goes through the next one as if nothing stood in front of it
(`splitFrom_spell`). It leaves the marker of a separator at the end of the segment in front, where
the markers are lost (`unmark_marked`).
-/

namespace Crossing.Chain

open Text

/-- What may stand between two segments: a dot, alone or behind a marker. -/
inductive Separator where
  | plain
  | optional
  | nonNull
deriving DecidableEq

/-- The marker of a separator. -/
def Separator.marker : Separator → List Char
  | plain => []
  | optional => ['?']
  | nonNull => ['!']

/-- A separator as it is written. -/
def Separator.text (separator : Separator) : List Char :=
  separator.marker ++ ['.']

/-- Whether a text is one segment, read for itself. -/
structure IsSegment (s : List Char) : Prop where
  /-- It is not empty. -/
  nonempty : s ≠ []
  /-- It has no blanks. -/
  solid : ∀ c ∈ s, isBlank c = false
  /-- No marker stands in front of one of its dots. -/
  unpaired : ∀ marker ∈ ['?', '!'], ¬ [marker, '.'] <:+: s
  /-- It does not end with a marker. -/
  ended : ∀ marker ∈ ['?', '!'], s.getLast? ≠ some marker
  /-- The splitter meets its dots inside of brackets or strings. -/
  inner : ∀ i : Fin s.length, s[i] = '.' → (Scan.code 0).after (s.take i) ≠ .code 0
  /-- Behind it, no bracket and no string is open. -/
  closed : (Scan.code 0).after s = .code 0

/-- The test of a segment. -/
def isSegment (s : List Char) : Bool :=
  !s.isEmpty && s.all (!isBlank ·) &&
    ['?', '!'].all (fun marker => !decide ([marker, '.'] <:+: s) && s.getLast? != some marker) &&
    (List.finRange s.length).all (fun i =>
      s[i] != '.' || (Scan.code 0).after (s.take i) != .code 0) &&
    (Scan.code 0).after s == .code 0

/-- The test holds for the segments. -/
theorem isSegment_iff {s : List Char} : isSegment s = true ↔ IsSegment s := by
  simp only [isSegment, Bool.and_eq_true, List.all_eq_true, Bool.not_eq_true', Bool.or_eq_true,
    bne_iff_ne, beq_iff_eq, decide_eq_false_iff_not, List.isEmpty_eq_false_iff]
  constructor
  · rintro ⟨⟨⟨⟨hne, hsolid⟩, hmarkers⟩, hinner⟩, hclosed⟩
    exact ⟨hne, hsolid, fun m hm => (hmarkers m hm).1, fun m hm => (hmarkers m hm).2,
      fun i hi => (hinner i (List.mem_finRange i)).resolve_left (not_not_intro hi), hclosed⟩
  · intro h
    refine ⟨⟨⟨⟨h.nonempty, h.solid⟩, fun m hm => ⟨h.unpaired m hm, h.ended m hm⟩⟩, ?_⟩, h.closed⟩
    intro i _
    exact Decidable.or_iff_not_imp_left.mpr fun hi => h.inner i (Decidable.not_not.mp hi)

instance : DecidablePred IsSegment := fun _ => decidable_of_iff _ isSegment_iff

/-- The text of segments, all but the last one with the separator behind it. -/
def spell : (front : List (List Char × Separator)) → (last : List Char) → List Char
  | [], last => last
  | (s, separator) :: front, last => s ++ separator.text ++ spell front last

/-- The segments of such a text. -/
def segmentsOf (front : List (List Char × Separator)) (last : List Char) : List (List Char) :=
  front.map Prod.fst ++ [last]

/-! ## The splitter -/

/-- No segment starts in a text whose dots are met inside of brackets or strings. -/
theorem splitFrom_of_inner {state : Scan} {s : List Char}
    (h : ∀ i : Fin s.length, s[i] = '.' → state.after (s.take i) ≠ .code 0) :
    splitFrom state s = [s] := by
  -- The state goes along, so that the dots of the rest are met in the state behind the first sign.
  induction s generalizing state with
  | nil => rfl
  | cons c s ih =>
    have hfirst (hc : c = '.') : state ≠ .code 0 := h ⟨0, Nat.succ_pos _⟩ hc
    rw [splitFrom_cons hfirst, ih fun i hi => h i.succ hi]
    rfl

/-- A segment in front of a separator keeps its marker. Behind the dot the splitter starts anew. -/
theorem splitFrom_segment {s : List Char} (hs : IsSegment s) (separator : Separator)
    (rest : List Char) : splitFrom (.code 0) (s ++ (separator.text ++ rest)) =
      (s ++ separator.marker) :: splitFrom (.code 0) rest := by
  have hrest : splitFrom (.code 0) (separator.text ++ rest) =
      separator.marker :: splitFrom (.code 0) rest := by
    cases separator <;> rfl
  exact splitFrom_append [] (splitFrom_of_inner hs.inner) (by rw [hs.closed, hrest])

/-- The segments of a text with separators, with their markers. -/
theorem splitFrom_spell {front : List (List Char × Separator)} {last : List Char}
    (hfront : ∀ p ∈ front, IsSegment p.1) (hlast : IsSegment last) :
    splitFrom (.code 0) (spell front last) =
      front.map (fun p => p.1 ++ p.2.marker) ++ [last] := by
  induction front with
  | nil => exact splitFrom_of_inner hlast.inner
  | cons p front ih =>
    obtain ⟨hp, hfront⟩ := List.forall_mem_cons.mp hfront
    rw [spell, List.append_assoc, splitFrom_segment hp, ih hfront]
    rfl

/-! ## The markers -/

variable {marker : Char}

/-- A text in which the marker stands in front of no dot keeps its markers. -/
theorem replacePair_eq_self {s : List Char} (h : ¬ [marker, '.'] <:+: s) :
    replacePair marker '.' '.' s = s := by
  fun_induction replacePair marker '.' '.' s with
  | case1 x y rest heq ih =>
    obtain ⟨rfl, rfl⟩ := heq
    exact absurd ⟨[], rest, rfl⟩ h
  | case2 x y rest heq ih => rw [ih fun hin => h (hin.trans (List.suffix_cons x _).isInfix)]
  | case3 s => rfl

/-- A character that is no dot behind a text puts no marker in front of a dot. -/
theorem not_infix_concat {s : List Char} {c : Char} (h : ¬ [marker, '.'] <:+: s) (hc : c ≠ '.') :
    ¬ [marker, '.'] <:+: s ++ [c] := by
  rw [List.infix_concat_iff, not_or]
  refine ⟨?_, h⟩
  rintro ⟨t, ht⟩
  have hlast := congrArg List.getLast? ht
  simp at hlast
  exact hc hlast.symm

/-- A segment with at most one marker behind it loses this marker and nothing else. -/
theorem unmark_marked {s : List Char} (hs : IsSegment s) (hmarker : marker ∈ ['?', '!'])
    {markers : List Char} (hmarkers : markers ∈ [[], ['?'], ['!']]) :
    unmark marker (replacePair marker '.' '.' (s ++ markers)) =
      s ++ markers.filter (· ≠ marker) := by
  have hunpaired := hs.unpaired marker hmarker
  match markers, hmarkers with
  | [], _ =>
    rw [List.append_nil, replacePair_eq_self hunpaired, unmark, if_neg (hs.ended marker hmarker),
      List.filter_nil, List.append_nil]
  | [c], hc =>
    -- The dot of the separator is gone, so a marker at the end is in front of nothing.
    have hdot : c ≠ '.' := by
      rintro rfl
      exact absurd hc (by decide)
    rw [replacePair_eq_self (not_infix_concat hunpaired hdot), unmark, List.getLast?_concat,
      List.dropLast_concat]
    by_cases heq : c = marker
    · simp [heq]
    · simp [heq]
  | _ :: _ :: _, hmore => simp at hmore

/-- A segment in front of a separator loses the marker of it. -/
theorem unmark_separator {s : List Char} (hs : IsSegment s) (separator : Separator) :
    unmark '!' (replacePair '!' '.' '.'
      (unmark '?' (replacePair '?' '.' '.' (s ++ separator.marker)))) = s := by
  have hmarkers : separator.marker ∈ [[], ['?'], ['!']] := by cases separator <;> decide
  have hothers : separator.marker.filter (· ≠ '?') ∈ [[], ['?'], ['!']] := by
    cases separator <;> decide
  have hnone : (separator.marker.filter (· ≠ '?')).filter (· ≠ '!') = [] := by
    cases separator <;> decide
  rw [unmark_marked hs (by decide) hmarkers, unmark_marked hs (by decide) hothers, hnone,
    List.append_nil]

/-! ## Whole callees -/

/-- The compact text of a callee has the segments that the callee was made of. -/
theorem splitFrom_compact_spell {front : List (List Char × Separator)} {last callee : List Char}
    (hfront : ∀ p ∈ front, IsSegment p.1) (hlast : IsSegment last)
    (hcallee : visible callee = spell front last) :
    splitFrom (.code 0) (compact callee) = segmentsOf front last := by
  rw [splitFrom_compact, hcallee, splitFrom_spell hfront hlast, unmarked_concat, unmarked_concat,
    replacePair_eq_self (hlast.unpaired '?' (by decide)),
    replacePair_eq_self (hlast.unpaired '!' (by decide)), segmentsOf, List.map_map, List.map_map]
  congr 1
  exact List.map_congr_left fun p hp => unmark_separator (hfront p hp) p.2

/-- A callee is split into the segments that it was made of, whichever separators stand between them
and wherever blanks were put in. -/
theorem ofCallee?_spell {front : List (List Char × Separator)} {last : List Char}
    (hfront : ∀ p ∈ front, IsSegment p.1) (hlast : IsSegment last) {callee : String}
    (hcallee : visible callee.toList = spell front last) :
    ofCallee? callee = some ((segmentsOf front last).map .ofList) := by
  have hempty : (segmentsOf front last).any List.isEmpty = false := by
    simp only [segmentsOf, List.any_append, List.any_map, Bool.or_eq_false_iff, List.any_eq_false]
    exact ⟨fun p hp => by simpa using (hfront p hp).nonempty, by simpa using hlast.nonempty⟩
  unfold ofCallee?
  simp only [splitFrom_compact_spell hfront hlast hcallee, hempty, Bool.false_eq_true, if_false]

/-- Segments with brackets, a string and a marker in them, in front of a separator of each sort. -/
def nestedFront : List (List Char × Separator) :=
  [("trpc".toList, .optional), ("at(x.y)[\"a.b\"]".toList, .nonNull), ("of(z?1:2)".toList, .plain)]

/-- A callee with all separators, with blanks between them and inside of a string, and with dots and
markers in brackets. -/
theorem ofCallee?_spell_nested :
    (∀ p ∈ nestedFront, IsSegment p.1) ∧ IsSegment "query".toList ∧
      visible "trpc ?. at(x.y)[\"a. b\"]!\n  .of(z?1:2).query ".toList =
        spell nestedFront "query".toList ∧
      ofCallee? "trpc ?. at(x.y)[\"a. b\"]!\n  .of(z?1:2).query " =
        some ["trpc", "at(x.y)[\"a.b\"]", "of(z?1:2)", "query"] := by
  have hfront : ∀ p ∈ nestedFront, IsSegment p.1 := by decide +kernel
  have hlast : IsSegment "query".toList := by decide +kernel
  have hcallee : visible "trpc ?. at(x.y)[\"a. b\"]!\n  .of(z?1:2).query ".toList =
      spell nestedFront "query".toList := by decide +kernel
  exact ⟨hfront, hlast, hcallee, (ofCallee?_spell hfront hlast hcallee).trans (by decide +kernel)⟩

end Crossing.Chain
