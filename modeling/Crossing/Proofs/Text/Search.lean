import Crossing.Proofs.Text.Blank
import Crossing.Text.Search

/-!
# Cut and joined text

A text that was put together of parts by a separator comes apart at it again: `cut?` gives the part
before the first separator, `splitOn` all of the parts of a joined text. What is looked for at the
start of a text is found there first.
-/

namespace Crossing.Text

variable {α : Type}

section Cut

variable [DecidableEq α]

/-- A text is cut behind a part that does not hold the separator. -/
theorem cut?_append {c : α} {before : List α} (h : c ∉ before) (rest : List α) :
    cut? c (before ++ c :: rest) = some (before, rest) := by
  induction before with
  | nil => simp [cut?]
  | cons x before ih =>
    rw [List.mem_cons, not_or] at h
    simp [cut?, Ne.symm h.1, ih h.2]

/-- A text is not cut exactly when it does not hold the separator. -/
theorem cut?_eq_none_iff {c : α} {s : List α} : cut? c s = none ↔ c ∉ s := by
  induction s with
  | nil => simp [cut?]
  | cons x s ih =>
    rw [cut?, List.mem_cons, not_or]
    split
    · next h => simp [h]
    · next h => simp [ih, Ne.symm h]

/-- The part before the first separator does not hold it. -/
theorem not_mem_of_cut? {c : α} {s before rest : List α} (h : cut? c s = some (before, rest)) :
    c ∉ before := by
  induction s generalizing before with
  | nil => contradiction
  | cons x s ih =>
    rw [cut?] at h
    split at h
    · cases h
      exact List.not_mem_nil
    · next hx =>
      obtain ⟨⟨before', rest'⟩, hcut, heq⟩ := Option.map_eq_some_iff.mp h
      cases heq
      rw [List.mem_cons, not_or]
      exact ⟨Ne.symm hx, ih hcut⟩

/-- The parts that a text is cut into make the text. -/
theorem eq_append_of_cut? {c : α} {s before rest : List α}
    (h : cut? c s = some (before, rest)) : s = before ++ c :: rest := by
  induction s generalizing before with
  | nil => contradiction
  | cons x s ih =>
    rw [cut?] at h
    split at h
    · next hx =>
      cases h
      rw [hx, List.nil_append]
    · obtain ⟨⟨before', rest'⟩, hcut, heq⟩ := Option.map_eq_some_iff.mp h
      cases heq
      rw [ih hcut, List.cons_append]

/-- A text is parted at its last separator in one way only. -/
theorem append_cons_inj {c : α} {before before' rest rest' : List α} (h : c ∉ rest)
    (h' : c ∉ rest') (heq : before ++ c :: rest = before' ++ c :: rest') :
    before = before' ∧ rest = rest' := by
  -- Read from the end, the last separator is the first one.
  have hcut (before rest : List α) (h : c ∉ rest) :
      cut? c (before ++ c :: rest).reverse = some (rest.reverse, before.reverse) := by
    have hback := cut?_append (mt List.mem_reverse.mp h) before.reverse
    simpa using hback
  have hsame := hcut before rest h
  rw [heq, hcut before' rest' h'] at hsame
  simpa [eq_comm, and_comm] using hsame

end Cut

/-- What follows a head is found behind it. -/
theorem after?_append (head s : List Char) : after? head (head ++ s) = some s := by
  induction head with
  | nil => rfl
  | cons h head ih => simp [after?, ih]

/-- What is found behind a head follows it. -/
theorem eq_append_of_after? {head s rest : List Char} (h : after? head s = some rest) :
    s = head ++ rest := by
  induction head generalizing s with
  | nil => exact Option.some.inj h
  | cons a head ih =>
    cases s with
    | nil => contradiction
    | cons c s =>
      rw [after?] at h
      split at h
      · next hac => rw [hac, ih h, List.cons_append]
      · contradiction

/-- A run that a text starts with is the first occurrence of the run. -/
theorem afterFirst?_append (run s : List Char) : afterFirst? run (run ++ s) = some s := by
  -- The run is at the start of the text, so no later place is looked at.
  have h := after?_append run s
  cases hrun : run ++ s with
  | nil => rwa [hrun] at h
  | cons c rest =>
    rw [hrun] at h
    rw [afterFirst?, h]

/-- Joining is the library's `intercalate`. -/
theorem join_eq_intercalate (separator : List α) (parts : List (List α)) :
    join separator parts = separator.intercalate parts := by
  induction parts with
  | nil => rfl
  | cons s parts ih =>
    cases parts with
    | nil => simp [join]
    | cons t parts => simp [join, ih]

/-- Joined segments go on behind a separator. -/
theorem join_append {c : α} {front back : List (List α)} (hfront : front ≠ []) (hback : back ≠ []) :
    join [c] (front ++ back) = join [c] front ++ c :: join [c] back := by
  induction front with
  | nil => contradiction
  | cons s front ih =>
    cases front with
    | nil =>
      obtain ⟨t, back, rfl⟩ := List.exists_cons_of_ne_nil hback
      simp [join]
    | cons t front =>
      have hrest := ih (List.cons_ne_nil t front)
      rw [List.cons_append] at hrest
      simp [join, hrest]

/-- A joined text comes apart into its parts. -/
theorem splitOn_join [BEq α] [LawfulBEq α] {c : α} {parts : List (List α)} (hne : parts ≠ [])
    (h : ∀ s ∈ parts, c ∉ s) : (join [c] parts).splitOn c = parts := by
  rw [join_eq_intercalate]
  exact List.splitOn_intercalate c h hne

/-- A joined text of more than one part holds the separator. -/
theorem mem_join (c : α) (s t : List α) (parts : List (List α)) :
    c ∈ join [c] (s :: t :: parts) := by
  simp [join]

/-- Of the separator apart, a joined text holds what its parts hold. -/
theorem mem_join_iff {c separator : α} (h : c ≠ separator) {parts : List (List α)} :
    c ∈ join [separator] parts ↔ ∃ s ∈ parts, c ∈ s := by
  induction parts with
  | nil => simp [join]
  | cons s parts ih =>
    cases parts with
    | nil => simp [join]
    | cons t parts => simp [join, ih, h]

/-- A joined text of parts that are not empty starts as the first one does. -/
theorem head?_join (separator : List α) {s : List α} (hs : s ≠ [])
    (parts : List (List α)) : (join separator (s :: parts)).head? = s.head? := by
  obtain ⟨c, s, rfl⟩ := List.exists_cons_of_ne_nil hs
  cases parts <;> rfl

/-- A joined text of parts that neither are empty nor have blanks at their ends has none at its
ends. -/
theorem trim_join {separator : List Char} {parts : List (List Char)}
    (h : ∀ s ∈ parts, s ≠ [] ∧ trim s = s) :
    trim (join separator parts) = join separator parts := by
  cases parts with
  | nil => rfl
  | cons s parts =>
    obtain ⟨hs, htrim⟩ := h s List.mem_cons_self
    rw [trim_eq_self_iff, head?_join separator hs]
    refine ⟨(trim_eq_self_iff.mp htrim).1, ?_⟩
    -- The end of a joined text is that of its last part.
    induction parts generalizing s with
    | nil => exact (trim_eq_self_iff.mp htrim).2
    | cons t parts ih =>
      obtain ⟨ht, httrim⟩ := h t (by simp)
      have hrest : join separator (t :: parts) ≠ [] := by
        intro hnil
        rw [← List.head?_eq_none_iff, head?_join separator ht, List.head?_eq_none_iff] at hnil
        exact ht hnil
      obtain ⟨last, hlast⟩ := List.getLast?_isSome.mpr hrest |> Option.isSome_iff_exists.mp
      rw [join, List.getLast?_append, hlast, Option.some_or, ← hlast]
      · exact ih t (fun u hu => h u (List.mem_cons_of_mem s hu)) ht httrim
      · simp

/-- Something holds of a suffix of a text if some suffix satisfies it. -/
theorem anySuffix_iff {p : List Char → Bool} {s : List Char} :
    anySuffix p s = true ↔ ∃ t, t <:+ s ∧ p t = true := by
  induction s with
  | nil => simp [anySuffix]
  | cons c s ih =>
    rw [anySuffix, Bool.or_eq_true, ih]
    constructor
    · rintro (h | ⟨t, ht, hp⟩)
      · exact ⟨c :: s, List.suffix_rfl, h⟩
      · exact ⟨t, ht.trans (List.suffix_cons c s), hp⟩
    · rintro ⟨t, ht, hp⟩
      rcases List.suffix_cons_iff.mp ht with rfl | ht
      · exact .inl hp
      · exact .inr ⟨t, ht, hp⟩

end Crossing.Text
