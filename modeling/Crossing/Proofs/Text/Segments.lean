import Crossing.Proofs.Text.Search

/-!
# Segments of a text

Splitting a text at a separator and joining the segments again. The segments of one text are
neighbours among those of another exactly when the text stands in the other between separators,
where the ends count as separators (`infix_splitOn_iff`).
-/

namespace Crossing.Text

variable {α : Type} [BEq α] [LawfulBEq α] {c : α}

/-- A text with a separator in it has the segments before it and those behind it. -/
theorem splitOn_append (s t : List α) : (s ++ c :: t).splitOn c = s.splitOn c ++ t.splitOn c :=
  List.splitOnP_append_cons s t (beq_self_eq_true c)

/-- Texts that end in a separator each are the first segments of what they are put in front of. -/
theorem splitOn_flatMap_append {texts : List (List α)} (h : ∀ t ∈ texts, c ∉ t)
    (rest : List α) :
    (texts.flatMap (fun t => t ++ [c]) ++ rest).splitOn c = texts ++ rest.splitOn c := by
  induction texts with
  | nil => rfl
  | cons t texts ih =>
    have hrest := ih fun u hu => h u (List.mem_cons_of_mem t hu)
    rw [List.flatMap_cons, List.append_assoc, List.append_assoc, List.singleton_append,
      List.splitOn_append_cons_self_of_not_mem (h t List.mem_cons_self), hrest, List.cons_append]

/-- No segment holds the separator. -/
theorem not_mem_of_mem_splitOn {s t : List α} (h : t ∈ s.splitOn c) : c ∉ t := by
  induction s generalizing t with
  | nil =>
    rw [List.splitOn_nil, List.mem_singleton] at h
    rw [h]
    exact List.not_mem_nil
  | cons x s ih =>
    rw [List.splitOn_cons_eq_if_modifyHead] at h
    split at h
    · rcases List.mem_cons.mp h with rfl | h
      · exact List.not_mem_nil
      · exact ih h
    · next hx =>
      obtain ⟨u, rest, hrest⟩ := List.exists_cons_of_ne_nil (List.splitOn_ne_nil c s)
      rw [hrest, List.modifyHead_cons, List.mem_cons] at h
      rcases h with rfl | h
      · have hu := ih (by rw [hrest]; exact List.mem_cons_self)
        rw [List.mem_cons, not_or]
        exact ⟨fun h => hx (by simp [h]), hu⟩
      · exact ih (by rw [hrest]; exact List.mem_cons_of_mem u h)

/-- The segments of a text, joined again, are the text. -/
theorem join_splitOn (s : List α) : join [c] (s.splitOn c) = s := by
  rw [join_eq_intercalate, List.intercalate_splitOn]

/-- A text stands at the start of another one, in front of a separator or at its end. -/
theorem prefix_splitOn_iff {p s : List α} :
    p.splitOn c <+: s.splitOn c ↔ s = p ∨ ∃ t, s = p ++ c :: t := by
  constructor
  · rintro ⟨back, hback⟩
    by_cases hnil : back = []
    · subst hnil
      rw [List.append_nil] at hback
      left
      rw [← join_splitOn (c := c) s, ← hback, join_splitOn]
    · right
      refine ⟨join [c] back, ?_⟩
      rw [← join_splitOn (c := c) s, ← hback, join_append (List.splitOn_ne_nil c p) hnil,
        join_splitOn]
  · rintro (rfl | ⟨t, rfl⟩)
    · exact List.prefix_rfl
    · rw [splitOn_append]
      exact List.prefix_append _ _

/-- The segments of a text are neighbours among those of another one exactly when the text stands
there between separators or ends. -/
theorem infix_splitOn_iff {p s : List α} :
    p.splitOn c <:+: s.splitOn c ↔
      ∃ t, (s = t ∨ ∃ u, s = u ++ c :: t) ∧ (t = p ∨ ∃ v, t = p ++ c :: v) := by
  constructor
  · rintro ⟨front, back, hsplit⟩
    have hprefix : p.splitOn c <+: (join [c] (p.splitOn c ++ back)).splitOn c := by
      by_cases hnil : back = []
      · simp only [hnil, List.append_nil, join_splitOn, List.prefix_rfl]
      · rw [join_append (List.splitOn_ne_nil c p) hnil, join_splitOn, splitOn_append]
        exact List.prefix_append _ _
    refine ⟨_, ?_, prefix_splitOn_iff.mp hprefix⟩
    rw [List.append_assoc] at hsplit
    by_cases hnil : front = []
    · subst hnil
      left
      rw [← join_splitOn (c := c) s, ← hsplit, List.nil_append]
    · right
      refine ⟨join [c] front, ?_⟩
      rw [← join_splitOn (c := c) s, ← hsplit, join_append hnil]
      exact List.append_ne_nil_of_left_ne_nil (List.splitOn_ne_nil c p) back
  · rintro ⟨t, hs, ht⟩
    have hprefix := prefix_splitOn_iff.mpr ht
    rcases hs with rfl | ⟨u, rfl⟩
    · exact hprefix.isInfix
    · rw [splitOn_append]
      exact hprefix.isInfix.trans (List.suffix_append _ _).isInfix

end Crossing.Text
