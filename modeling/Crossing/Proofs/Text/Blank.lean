import Crossing.Text.Blank

/-!
# Trimmed text

Trimming leaves a text alone exactly when no blank stands at either end of it (`trim_eq_self_iff`).
The statements about what a reader gets of a list that was put together go through its two ends.
-/

namespace Crossing.Text

/-- Nothing is dropped from the front exactly when the first element is to stay. -/
theorem dropWhile_eq_self_iff {p : Char → Bool} {s : List Char} :
    s.dropWhile p = s ↔ ∀ c, s.head? = some c → p c = false := by
  cases s with
  | nil => simp
  | cons a s =>
    rw [List.dropWhile_cons]
    constructor
    · intro h c hc
      split at h
      · next ha =>
        -- The rest of the text cannot be the whole text.
        have := congrArg List.length h
        have := (List.dropWhile_suffix p (l := s)).length_le
        simp at *
        omega
      · next ha =>
        rw [List.head?_cons, Option.some.injEq] at hc
        rw [← hc]
        exact Bool.eq_false_iff.mpr ha
    · intro h
      rw [if_neg (by simp [h a rfl])]

/-- Nothing is dropped from the end exactly when the last element is to stay. -/
theorem trimEndBy_eq_self_iff {p : Char → Bool} {s : List Char} :
    trimEndBy p s = s ↔ ∀ c, s.getLast? = some c → p c = false := by
  rw [trimEndBy, List.reverse_eq_iff, dropWhile_eq_self_iff, List.head?_reverse]

/-- Trimming leaves a text alone exactly when it neither starts nor ends with a blank. -/
theorem trim_eq_self_iff {s : List Char} :
    trim s = s ↔ (∀ c, s.head? = some c → isBlank c = false) ∧
      ∀ c, s.getLast? = some c → isBlank c = false := by
  unfold trim trimBy
  constructor
  · intro h
    -- The text is no longer than what is left of it at either end.
    have hfront : s.dropWhile isBlank = s := by
      have hle := (List.dropWhile_suffix isBlank (l := s)).length_le
      have hge : s.length ≤ (s.dropWhile isBlank).length := by
        have := (List.dropWhile_suffix isBlank (l := (s.dropWhile isBlank).reverse)).length_le
        rw [← List.length_reverse, ← trimEndBy, h, List.length_reverse] at this
        exact this
      exact (List.dropWhile_suffix isBlank).eq_of_length (by omega)
    rw [hfront] at h
    exact ⟨dropWhile_eq_self_iff.mp hfront, trimEndBy_eq_self_iff.mp h⟩
  · rintro ⟨hfirst, hlast⟩
    rw [dropWhile_eq_self_iff.mpr hfirst, trimEndBy_eq_self_iff.mpr hlast]

/-- A text without blanks stays as it is. -/
theorem trim_of_not_blank {s : List Char} (h : ∀ c ∈ s, isBlank c = false) : trim s = s :=
  trim_eq_self_iff.mpr
    ⟨fun c hc => h c (List.mem_of_head? hc), fun c hc => h c (List.mem_of_getLast? hc)⟩

/-- The letters of ASCII stand in two rows. -/
theorem toNat_of_isAlpha {c : Char} (h : c.isAlpha = true) :
    (0x41 ≤ c.toNat ∧ c.toNat ≤ 0x5A) ∨ (0x61 ≤ c.toNat ∧ c.toNat ≤ 0x7A) := by
  rcases Bool.or_eq_true_iff.mp h with h | h
  · have hrange : 'A'.val ≤ c.val ∧ c.val ≤ 'Z'.val := of_decide_eq_true h
    exact .inl ⟨UInt32.le_iff_toNat_le.mp hrange.1, UInt32.le_iff_toNat_le.mp hrange.2⟩
  · have hrange := Bool.and_eq_true_iff.mp h
    exact .inr ⟨UInt32.le_iff_toNat_le.mp (of_decide_eq_true hrange.1),
      UInt32.le_iff_toNat_le.mp (of_decide_eq_true hrange.2)⟩

/-- The signs of ASCII above the blank are no blanks. -/
theorem isBlank_of_ascii {c : Char} (h : 0x21 ≤ c.toNat ∧ c.toNat < 0x7F) : isBlank c = false := by
  simp only [isBlank, Bool.or_eq_false_iff, Bool.and_eq_false_iff, decide_eq_false_iff_not,
    beq_eq_false_iff_ne]
  omega

end Crossing.Text
