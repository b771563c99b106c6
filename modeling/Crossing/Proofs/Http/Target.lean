import Crossing.Http.Uri
import Crossing.Proofs.Text.Search
import Mathlib.Data.List.TakeWhile

/-!
# The path of a request target

A target that starts with a slash is a path and a query. If it parses at all, its path is the text
before the question mark (`path_parse`). If its characters may stand there it parses, unless it is
too long, and it is taken as it is (`parse_eq`).
-/

namespace Crossing.Http.Uri

open Text

/-- The path of a text is what stands before the question mark. -/
theorem path_pathAndQuery {before query : List Char} {r : String × Option String}
    (hquestion : '?' ∉ before) (hfragment : '#' ∉ before) (hne : before ≠ [])
    (h : pathAndQuery (before ++ '?' :: query) = .ok r) : r.1.toList = before := by
  -- A fragment could only start in the query, so the path is not cut short.
  have htake : (before ++ '?' :: query).takeWhile (· != '#') =
      before ++ '?' :: query.takeWhile (· != '#') := by
    rw [List.takeWhile_append_of_pos, List.takeWhile_cons_of_pos (by decide)]
    intro c hc
    simpa using fun heq : c = '#' => hfragment (heq ▸ hc)
  rw [pathAndQuery, htake] at h
  simp only [cut?_append hquestion] at h
  split at h
  · contradiction
  · cases h
    simp [hne]

/-- The path of a target that starts with a slash is what stands before the question mark. -/
theorem path_parse {text : String} {before query : List Char} {uri : Uri}
    (htext : text.toList = '/' :: before ++ '?' :: query)
    (hquestion : '?' ∉ before) (hfragment : '#' ∉ before) (h : parse text = .ok uri) :
    uri.path.toList = '/' :: before := by
  have hquestion : '?' ∉ '/' :: before := by simpa using hquestion
  have hfragment : '#' ∉ '/' :: before := by simpa using hfragment
  simp only [parse, htext, List.cons_append] at h
  split at h
  · contradiction
  · obtain ⟨r, hr, h⟩ : ∃ r, pathAndQuery ('/' :: before ++ '?' :: query) = .ok r ∧
        .ok (⟨none, none, r.1, r.2⟩ : Uri) = Except.ok (ε := UriError) uri := by
      cases hr : pathAndQuery ('/' :: before ++ '?' :: query) with
      | error e =>
        rw [List.cons_append] at hr
        simp [hr, bind, Except.bind] at h
      | ok r =>
        rw [List.cons_append] at hr
        simp only [hr, bind, Except.bind, pure, Except.pure] at h
        exact ⟨r, rfl, h⟩
    cases h
    exact path_pathAndQuery hquestion hfragment (List.cons_ne_nil _ _) hr

/-- A path has no sign that would end it. -/
theorem ne_of_isPathChar {c : Char} (h : isPathChar c = true) : c ≠ '?' ∧ c ≠ '#' := by
  constructor <;>
  · rintro rfl
    exact absurd h (by decide)

/-- A query has no sign that would end it. -/
theorem ne_of_isQueryChar {c : Char} (h : isQueryChar c = true) : c ≠ '#' := by
  rintro rfl
  exact absurd h (by decide)

/-- A path and a query of characters that may stand there are taken as they are. -/
theorem pathAndQuery_eq {path query : List Char} (hne : path ≠ [])
    (hpath : ∀ c ∈ path, isPathChar c = true) (hquery : ∀ c ∈ query, isQueryChar c = true) :
    pathAndQuery (path ++ '?' :: query) = .ok (.ofList path, some (.ofList query)) := by
  have hquestion : '?' ∉ path := fun h => (ne_of_isPathChar (hpath _ h)).1 rfl
  -- Nothing is a fragment.
  have hall : (path ++ '?' :: query).takeWhile (· != '#') = path ++ '?' :: query := by
    refine List.takeWhile_eq_self_iff.mpr fun c hc => bne_iff_ne.mpr ?_
    rcases List.mem_append.mp hc with hc | hc
    · exact (ne_of_isPathChar (hpath c hc)).2
    · rcases List.mem_cons.mp hc with rfl | hc
      · decide
      · exact ne_of_isQueryChar (hquery c hc)
  have hpathAll : path.all isPathChar = true := List.all_eq_true.mpr hpath
  have hqueryAll : query.all isQueryChar = true := List.all_eq_true.mpr hquery
  simp [pathAndQuery, hall, cut?_append hquestion, hpathAll, hqueryAll, hne]

/-- A target of a path and a query whose characters may stand there is taken as it is, unless it is
too long. -/
theorem parse_eq {text : String} {path query : List Char}
    (htext : text.toList = '/' :: path ++ '?' :: query)
    (hpath : ∀ c ∈ path, isPathChar c = true) (hquery : ∀ c ∈ query, isQueryChar c = true) :
    parse text = if maxLength < Utf8.width text.toList then .error .tooLong
      else .ok ⟨none, none, .ofList ('/' :: path), some (.ofList query)⟩ := by
  have hslash : ∀ c ∈ '/' :: path, isPathChar c = true :=
    List.forall_mem_cons.mpr ⟨by decide, hpath⟩
  have hparts := pathAndQuery_eq (List.cons_ne_nil '/' path) hslash hquery
  rw [List.cons_append] at hparts
  rw [htext, List.cons_append]
  by_cases hlong : maxLength < Utf8.width ('/' :: (path ++ '?' :: query))
  · simp only [parse, htext, List.cons_append, gt_iff_lt, if_pos hlong]
    rfl
  · simp only [parse, htext, List.cons_append, gt_iff_lt, if_neg hlong, hparts]
    rfl

end Crossing.Http.Uri
