import Crossing.Proofs.Text.Blank
import Crossing.Script.Lexeme

/-!
# What a gap starts with

Between lexemes there are characters that count as blanks and comments. Not all of these characters
have the property `White_Space`, and not all that have it count. If anything of a gap is left by
trimming it starts with a slash or with a character that counts as a blank
(`head?_trimStart_take_trivia`).
-/

namespace Crossing.Script

open Text

/-- A character that starts no comment ends what is skipped, unless it counts as a blank. -/
theorem skip_of_not_space {k : Skipper} {c : Char} (hslash : c ≠ '/') (hspace : k.space c = false)
    (n : Nat) (rest : List Char) : k.skip n (c :: rest) = n := by
  rw [Skipper.skip]
  · rw [if_neg (by simp [hspace])]
  · intro rest' heq
    exact absurd heq hslash
  · intro rest' heq
    exact absurd heq hslash

/-- Of blanks and a character that ends what is skipped, no more than the blanks are skipped. -/
theorem skip_le {k : Skipper} {c : Char} (hslash : c ≠ '/') (hspace : k.space c = false)
    {blanks : List Char} (hblanks : '/' ∉ blanks) (n : Nat) (rest : List Char) :
    k.skip n (blanks ++ c :: rest) ≤ n + blanks.length := by
  induction blanks generalizing n with
  | nil => rw [List.nil_append, skip_of_not_space hslash hspace]; simp
  | cons b blanks ih =>
    rw [List.mem_cons, not_or] at hblanks
    rw [List.cons_append]
    by_cases hb : k.space b
    · have hstep : k.skip n (b :: (blanks ++ c :: rest)) = k.skip (n + 1) (blanks ++ c :: rest) := by
        rw [Skipper.skip, if_pos hb]
        · intro rest' heq
          exact absurd heq.symm hblanks.1
        · intro rest' heq
          exact absurd heq.symm hblanks.1
      have hle := ih hblanks.2 (n + 1)
      rw [hstep, List.length_cons]
      omega
    · rw [skip_of_not_space (Ne.symm hblanks.1) (Bool.eq_false_iff.mpr hb)]
      omega

/-- A slash is no blank. -/
theorem not_mem_of_all_blank {s : List Char} (h : ∀ c ∈ s, isBlank c = true) : '/' ∉ s :=
  fun hmem => absurd (h _ hmem) (by decide)

/-- What is left of a gap without the blanks that it starts with is nothing, or starts with a slash
or with a character that counts as a blank. -/
theorem head?_trimStart_take_trivia {s : List Char} {c : Char}
    (h : (trimStart (s.take (trivia s))).head? = some c) : c = '/' ∨ isSpace c = true := by
  refine Decidable.byContradiction fun hnot => ?_
  rw [not_or, Bool.not_eq_true] at hnot
  -- The gap is blanks and then this character, and so is the text.
  obtain ⟨tail, htail⟩ : ∃ tail, trimStart (s.take (trivia s)) = c :: tail := by
    cases htrim : trimStart (s.take (trivia s)) with
    | nil => rw [htrim] at h; contradiction
    | cons c' tail => rw [htrim] at h; exact ⟨tail, by rw [Option.some.inj h]⟩
  have hgap : s.take (trivia s) = (s.take (trivia s)).takeWhile isBlank ++ c :: tail := by
    rw [← htail, trimStart, List.takeWhile_append_dropWhile]
  have htext : s = (s.take (trivia s)).takeWhile isBlank ++ c :: (tail ++ s.drop (trivia s)) := by
    rw [← List.cons_append, ← List.append_assoc, ← hgap, List.take_append_drop]
  have hle : trivia s ≤ ((s.take (trivia s)).takeWhile isBlank).length := by
    have hblanks : '/' ∉ (s.take (trivia s)).takeWhile isBlank :=
      not_mem_of_all_blank (List.all_eq_true.mp List.all_takeWhile)
    have hskip := skip_le (k := ⟨isSpace, endsLine⟩) hnot.1 hnot.2 hblanks 0
      (tail ++ s.drop (trivia s))
    rw [← htext, Nat.zero_add] at hskip
    exact hskip
  have hlength := congrArg List.length hgap
  rw [List.length_append, List.length_take, List.length_cons] at hlength
  omega

end Crossing.Script
