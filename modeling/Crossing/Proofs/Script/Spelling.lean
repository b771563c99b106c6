import Crossing.Proofs.Script.Gives
import Crossing.Proofs.Script.Tokens
import Crossing.Proofs.Text.Blank
import Crossing.Proofs.Text.Search

/-!
# How lexemes are spelled

What the characters of names, numbers, strings and signs can be. Names and numbers are runs of
characters of one sort (`anyWord_le_run`, `numeral_le_run`), so no bracket and no quote stands in
them, but for the braces in the escapes of a name.
-/

namespace Crossing.Script

open Text

/-! ## Runs of characters -/

/-- The number of characters of a sort that a text starts with. -/
def run (p : Char → Bool) (s : List Char) : Nat := (s.takeWhile p).length

variable {p : Char → Bool} {s : List Char}

/-- A run goes on behind a character that belongs to it. -/
theorem run_cons (c : Char) (s : List Char) : run p (c :: s) = if p c then run p s + 1 else 0 := by
  unfold run
  rw [List.takeWhile_cons]
  split <;> rfl

/-- What a run is longer than is made of its characters. -/
theorem forall_mem_take {k : Nat} (h : k ≤ run p s) : ∀ c ∈ s.take k, p c = true := by
  induction s generalizing k with
  | nil => simp
  | cons c s ih =>
    cases k with
    | zero => simp
    | succ k =>
      rw [run_cons] at h
      split at h
      · next hc =>
        rw [List.take_succ_cons, List.forall_mem_cons]
        exact ⟨hc, ih (by omega)⟩
      · omega

/-- A run that starts where a part of a run ends goes on with it. -/
theorem add_le_run {k m : Nat} (hk : k ≤ run p s) (hm : m ≤ run p (s.drop k)) : k + m ≤ run p s := by
  induction s generalizing k with
  | nil =>
    rw [List.drop_nil] at hm
    have hnil : run p [] = 0 := rfl
    omega
  | cons c s ih =>
    cases k with
    | zero => rwa [Nat.zero_add]
    | succ k =>
      rw [run_cons] at hk ⊢
      split at hk
      · next hc =>
        rw [if_pos hc]
        have := ih (k := k) (by omega) hm
        omega
      · omega

/-- A run goes on with a character of its sort. -/
theorem succ_le_run {k : Nat} {c : Char} (hk : k ≤ run p s) (hc : (s.drop k).head? = some c)
    (hp : p c = true) : k + 1 ≤ run p s := by
  refine add_le_run hk ?_
  cases hdrop : s.drop k with
  | nil => rw [hdrop] at hc; contradiction
  | cons d rest =>
    rw [hdrop] at hc
    cases hc
    rw [run_cons, if_pos hp]
    omega

/-! ## Names -/

/-- Whether a number is the code of a digit or of a letter. -/
def isAlphanumCode (n : Nat) : Bool :=
  (0x30 ≤ n && n ≤ 0x39) || (0x41 ≤ n && n ≤ 0x5A) || (0x61 ≤ n && n ≤ 0x7A)

/-- The code of a digit. -/
theorem toNat_of_isDigit {c : Char} (h : c.isDigit = true) : 0x30 ≤ c.toNat ∧ c.toNat ≤ 0x39 := by
  have hrange := Bool.and_eq_true_iff.mp h
  exact ⟨UInt32.le_iff_toNat_le.mp (of_decide_eq_true hrange.1),
    UInt32.le_iff_toNat_le.mp (of_decide_eq_true hrange.2)⟩

/-- A digit or a letter may stand in a name. -/
theorem isWordChar_of_code {c : Char} (h : isAlphanumCode c.toNat = true) : isWordChar c = true := by
  have hsign : ":;\x60\"'@#.,|^&<=>+-*/\\%?!~()[]\x7b\x7d".toList.contains c = false := by
    have hnone : ":;\x60\"'@#.,|^&<=>+-*/\\%?!~()[]\x7b\x7d".toList.all
        (!isAlphanumCode ·.toNat) = true := by
      decide
    refine Bool.eq_false_iff.mpr fun hmem => ?_
    have hnot := List.all_eq_true.mp hnone c (List.contains_iff_mem.mp hmem)
    rw [h] at hnot
    contradiction
  have hrange : 48 ≤ c.toNat ∧ c.toNat ≤ 122 := by
    simp only [isAlphanumCode, Bool.or_eq_true, Bool.and_eq_true, decide_eq_true_eq] at h
    omega
  have hspace : isSpace c = false := by
    simp only [isSpace, Bool.or_eq_false_iff, Bool.and_eq_false_iff, decide_eq_false_iff_not,
      beq_eq_false_iff_ne]
    omega
  simp only [isWordChar, hspace, hsign, Bool.not_false, Bool.and_true, decide_eq_true_eq]
  omega

/-- Letters and digits may stand in a name. -/
theorem isWordChar_of_isAlphanum {c : Char} (h : c.isAlphanum = true) : isWordChar c = true := by
  refine isWordChar_of_code ?_
  simp only [isAlphanumCode, Bool.or_eq_true, Bool.and_eq_true, decide_eq_true_eq]
  rcases Bool.or_eq_true_iff.mp h with h | h
  · have hrange := toNat_of_isAlpha h
    omega
  · have hrange := toNat_of_isDigit h
    omega

/-- A hexadecimal digit may stand in a name. -/
theorem isWordChar_of_isHex {c : Char} (h : isHex c = true) : isWordChar c = true := by
  refine isWordChar_of_code ?_
  simp only [isHex, Bool.or_eq_true, Bool.and_eq_true, decide_eq_true_eq, Char.le_def,
    UInt32.le_iff_toNat_le] at h
  simp only [isAlphanumCode, Bool.or_eq_true, Bool.and_eq_true, decide_eq_true_eq]
  have hc : c.toNat = c.val.toNat := rfl
  have hcodes : 'a'.val.toNat = 97 ∧ 'f'.val.toNat = 102 ∧ 'A'.val.toNat = 65 ∧
    'F'.val.toNat = 70 := by decide
  rcases h with (h | h) | h
  · have hrange := toNat_of_isDigit h
    omega
  all_goals omega

/-- A character of names opens, closes or quotes nothing. -/
theorem isPlain_of_isWordChar {c : Char} (h : isWordChar c = true) : isPlain c = true := by
  have hsign : "\"'\x60()[]\x7b\x7d".toList.all (!isWordChar ·) = true := by decide
  have hnone : "\"'\x60()[]\x7b\x7d".toList.contains c = false := by
    refine Bool.eq_false_iff.mpr fun hmem => ?_
    have hnot := List.all_eq_true.mp hsign c (List.contains_iff_mem.mp hmem)
    rw [h] at hnot
    contradiction
  rw [isPlain, hnone, Bool.not_false]

/-- What may stand in a word may stand in a name. -/
theorem isNameChar_of_isWordChar {c : Char} (h : isWordChar c = true) : isNameChar c = true := by
  rw [isNameChar, h, Bool.true_or]

mutual

/-- What continues a name is made of the characters of names and of escapes. -/
theorem wordTail_le (n : Nat) (s : List Char) :
    n ≤ wordTail n s ∧ wordTail n s ≤ n + run isNameChar s := by
  unfold wordTail
  split
  · next c rest =>
    split
    · next hc =>
      have hcode := codeTail_le n (n + 4) rest (by omega)
      have hrun : run isNameChar ('\\' :: 'u' :: '{' :: c :: rest) = run isNameChar rest + 4 := by
        have hu : isNameChar '\\' = true ∧ isNameChar 'u' = true ∧ isNameChar '{' = true := by decide
        simp only [run_cons, hu, isNameChar_of_isWordChar (isWordChar_of_isHex hc), if_true]
      omega
    · omega
  · next a b c d rest _ =>
    split
    · next hdigits =>
      have hword := wordTail_le (n + 6) rest
      have hrun : run isNameChar ('\\' :: 'u' :: a :: b :: c :: d :: rest) =
          run isNameChar rest + 6 := by
        have hu : isNameChar '\\' = true ∧ isNameChar 'u' = true := by decide
        simp only [Bool.and_eq_true] at hdigits
        obtain ⟨⟨⟨ha, hb⟩, hc⟩, hd⟩ := hdigits
        simp only [run_cons, hu, isNameChar_of_isWordChar (isWordChar_of_isHex ha),
          isNameChar_of_isWordChar (isWordChar_of_isHex hb),
          isNameChar_of_isWordChar (isWordChar_of_isHex hc),
          isNameChar_of_isWordChar (isWordChar_of_isHex hd), if_true]
      omega
    · omega
  · next c rest _ _ =>
    split
    · next hc =>
      have hword := wordTail_le (n + 1) rest
      rw [run_cons, if_pos (isNameChar_of_isWordChar hc)]
      omega
    · omega
  · omega
termination_by s.length

/-- The braces of an escape hold characters of names. -/
theorem codeTail_le (start n : Nat) (s : List Char) (h : start ≤ n) :
    start ≤ codeTail start n s ∧ codeTail start n s ≤ n + run isNameChar s := by
  unfold codeTail
  split
  · next c rest =>
    split
    · next hc =>
      have hcode := codeTail_le start (n + 1) rest (by omega)
      rw [run_cons, if_pos (isNameChar_of_isWordChar (isWordChar_of_isHex hc))]
      omega
    · split
      · next hc =>
        have hword := wordTail_le (n + 1) rest
        rw [run_cons, if_pos (by rw [hc]; decide)]
        omega
      · omega
  · omega
termination_by s.length

end

/-- What continues a name without an escape opens, closes and quotes nothing. -/
theorem wordTail_le_plain (n : Nat) (s : List Char) (h : '\\' ∉ s.take (wordTail n s - n)) :
    wordTail n s ≤ n + run isPlain s := by
  -- An escape starts with a backslash, so it takes nothing here.
  have hescape (rest : List Char) (hs : s = '\\' :: rest) : wordTail n s ≤ n := by
    refine Nat.not_lt.mp fun hlt => ?_
    obtain ⟨k, hk⟩ : ∃ k, wordTail n s - n = k + 1 := ⟨wordTail n s - n - 1, by omega⟩
    rw [hk, hs, List.take_succ_cons] at h
    exact h List.mem_cons_self
  match s with
  | [] => simp [wordTail]
  | c :: rest =>
    by_cases hbackslash : c = '\\'
    · have := hescape rest (by rw [hbackslash])
      omega
    · have hstep : wordTail n (c :: rest) = if isWordChar c then wordTail (n + 1) rest else n := by
        rw [wordTail]
        · intro c' rest' heq
          exact absurd heq hbackslash
        · intro a b c' d rest' heq
          exact absurd heq hbackslash
      rw [hstep] at h ⊢
      split
      · next hc =>
        rw [if_pos hc] at h
        have hle := (wordTail_le (n + 1) rest).1
        have hrest := wordTail_le_plain (n + 1) rest (by
          obtain ⟨k, hk⟩ : ∃ k, wordTail (n + 1) rest - n = k + 1 :=
            ⟨wordTail (n + 1) rest - n - 1, by omega⟩
          have hk' : wordTail (n + 1) rest - (n + 1) = k := by omega
          rw [hk, List.take_succ_cons, List.mem_cons, not_or] at h
          rw [hk']
          exact h.2)
        rw [run_cons, if_pos (isPlain_of_isWordChar hc)]
        omega
      · omega
termination_by s.length

/-- Whether a lexeme reads the characters of names, and without escapes no brackets or quotes. -/
def ReadsName (l : Lexeme) : Prop :=
  ∀ s, l s ≤ run isNameChar s ∧ ('\\' ∉ s.take (l s) → l s ≤ run isPlain s)

/-- A word is a name. -/
theorem readsName_anyWord : ReadsName anyWord := by
  intro s
  cases s with
  | nil => simp [anyWord]
  | cons c rest =>
    rw [anyWord]
    split
    · simp
    · have hle := wordTail_le 0 (c :: rest)
      have hplain := wordTail_le_plain 0 (c :: rest)
      rw [Nat.zero_add] at hle hplain
      exact ⟨hle.2, hplain⟩

/-- A lexeme that reads a name or nothing. -/
theorem ReadsName.imp {l l' : Lexeme} (h : ReadsName l) (hl : ∀ s, l' s = l s ∨ l' s = 0) :
    ReadsName l' := by
  intro s
  rcases hl s with heq | heq
  · rw [heq]
    exact h s
  · rw [heq]
    simp

/-- A word that is not reserved is a name. -/
theorem readsName_wordExcept (words : List (List Char)) : ReadsName (wordExcept words) := by
  refine readsName_anyWord.imp fun s => ?_
  unfold wordExcept
  dsimp only
  split
  · exact .inr rfl
  · exact .inl rfl

/-- A word with a hash in front is a name. -/
theorem readsName_hashWord : ReadsName hashWord := by
  intro s
  unfold hashWord
  split
  · next rest =>
    split
    · simp
    · obtain ⟨hname, hplain⟩ := readsName_anyWord rest
      have hhash : isNameChar '#' = true ∧ isPlain '#' = true := by decide
      rw [run_cons, run_cons, if_pos hhash.1, if_pos hhash.2]
      refine ⟨by omega, fun h => ?_⟩
      rw [List.take_succ_cons, List.mem_cons, not_or] at h
      have := hplain h.2
      omega
  · simp

/-- A sort of characters that belongs to another one has shorter runs. -/
theorem run_mono {q : Char → Bool} (h : ∀ c, p c = true → q c = true) (s : List Char) :
    run p s ≤ run q s := by
  induction s with
  | nil => exact Nat.le_refl _
  | cons c s ih =>
    rw [run_cons, run_cons]
    split
    · next hc =>
      rw [if_pos (h c hc)]
      omega
    · omega

/-- A name in a tag may have hyphens. -/
theorem readsName_tagName : ReadsName tagName := by
  intro s
  cases s with
  | nil => simp [tagName]
  | cons c rest =>
    have hpart (d : Char) (hd : (d.isAlphanum || d == '_' || d == '$' || d == '-') = true) :
        isNameChar d = true ∧ isPlain d = true := by
      simp only [Bool.or_eq_true, beq_iff_eq] at hd
      rcases hd with ((hd | rfl) | rfl) | rfl
      · have hword := isWordChar_of_isAlphanum hd
        exact ⟨isNameChar_of_isWordChar hword, isPlain_of_isWordChar hword⟩
      all_goals decide
    have hname : ((c :: rest).takeWhile fun d => d.isAlphanum || d == '_' || d == '$' ||
        d == '-').length ≤ run isNameChar (c :: rest) := run_mono (fun d hd => (hpart d hd).1) _
    have hplain : ((c :: rest).takeWhile fun d => d.isAlphanum || d == '_' || d == '$' ||
        d == '-').length ≤ run isPlain (c :: rest) := run_mono (fun d hd => (hpart d hd).2) _
    obtain ⟨hword, hwordPlain⟩ := readsName_anyWord (c :: rest)
    unfold tagName
    dsimp only
    generalize ((c :: rest).takeWhile fun d => d.isAlphanum || d == '_' || d == '$' ||
      d == '-') = part at hname hplain
    split
    · simp
    · split
      · refine ⟨by omega, fun h => ?_⟩
        have hescape : '\\' ∉ (c :: rest).take (anyWord (c :: rest)) := fun hmem => by
          rw [← Nat.min_eq_left (Nat.le_max_right part.length (anyWord (c :: rest))),
            ← List.take_take] at hmem
          exact h (List.mem_of_mem_take hmem)
        have := hwordPlain hescape
        omega
      · exact ⟨hword, hwordPlain⟩

/-- What a lexeme takes of a run is not nothing. -/
theorem take_ne_nil {k : Nat} (hk : k ≠ 0) (h : k ≤ run p s) : s.take k ≠ [] := by
  cases s with
  | nil => exact absurd (Nat.le_zero.mp h) hk
  | cons c s =>
    obtain ⟨k, rfl⟩ := Nat.exists_eq_succ_of_ne_zero hk
    simp

/-- The kinds of names. -/
def Leaf.isName (kind : Leaf) : Bool :=
  kind = .word || kind = .property || kind = .privateName || kind = .shorthand

/-- A name is spelled as names are. -/
theorem ReadsName.spells {l : Lexeme} (h : ReadsName l) {kind : Leaf} (hkind : kind.isName = true) :
    Spells kind l := by
  intro s hs
  obtain ⟨hname, hplain⟩ := h s
  have hspelled : s.take (l s) ≠ [] ∧ (∀ c ∈ s.take (l s), isNameChar c = true) ∧
      ('\\' ∉ s.take (l s) → ∀ c ∈ s.take (l s), isPlain c = true) :=
    ⟨take_ne_nil hs hname, forall_mem_take hname, fun hescape => forall_mem_take (hplain hescape)⟩
  cases kind <;> first | exact hspelled | contradiction

/-! ## Numbers -/

/-- Whether a lexeme reads no brackets and quotes. -/
def ReadsPlain (l : Lexeme) : Prop := ∀ s, l s ≤ run isPlain s

/-- A hexadecimal digit opens and closes nothing. -/
theorem isPlain_of_isHex {c : Char} (h : isHex c = true) : isPlain c = true :=
  isPlain_of_isWordChar (isWordChar_of_isHex h)

/-- A digit is a hexadecimal digit. -/
theorem isHex_of_isDigit {c : Char} (h : c.isDigit = true) : isHex c = true := by
  rw [isHex, h, Bool.true_or, Bool.true_or]

/-- Digits with underscores between them. -/
theorem digitRun_le {d : Char → Bool} (hd : ∀ c, d c = true → isPlain c = true) (s : List Char) :
    digitRun d s ≤ run isPlain s := by
  fun_induction digitRun d s with
  | case1 c e rest hc he ih =>
    rw [run_cons, if_pos (hd c hc), run_cons, if_pos (by decide)]
    omega
  | case2 c e rest hc he =>
    rw [run_cons, if_pos (hd c hc)]
    omega
  | case3 => omega
  | case4 c rest hne hc ih =>
    rw [run_cons, if_pos (hd c hc)]
    omega
  | case5 => omega
  | case6 => exact Nat.zero_le _

/-- Digits open and close nothing. -/
theorem readsPlain_digits : ReadsPlain (digitRun Char.isDigit) :=
  digitRun_le fun _ hc => isPlain_of_isHex (isHex_of_isDigit hc)

/-- An octal digit is a hexadecimal one. -/
theorem isHex_of_octal {c : Char} (h : ('0' ≤ c && c ≤ '7') = true) : isHex c = true := by
  simp only [Bool.and_eq_true, decide_eq_true_eq, Char.le_def, UInt32.le_iff_toNat_le] at h
  simp only [isHex, Char.isDigit, Bool.or_eq_true, Bool.and_eq_true, decide_eq_true_eq,
    Char.le_def, UInt32.le_iff_toNat_le, ge_iff_le]
  have hcodes : '0'.val.toNat = 48 ∧ '7'.val.toNat = 55 ∧ '9'.val.toNat = 57 := by decide
  omega

/-- A binary digit opens, closes and quotes nothing. -/
theorem isPlain_of_binary {c : Char} (h : (c == '0' || c == '1') = true) : isPlain c = true := by
  simp only [Bool.or_eq_true, beq_iff_eq] at h
  rcases h with rfl | rfl <;> decide

/-- A number with a letter after its first zero. -/
theorem readsPlain_radixNumber : ReadsPlain radixNumber := by
  intro s
  unfold radixNumber
  split
  · next x rest =>
    -- The digits are plain, and so is the letter if there are any.
    have hdigits : ∀ digits, digits = (if x = 'x' ∨ x = 'X' then digitRun isHex rest
          else if x = 'b' ∨ x = 'B' then digitRun (fun c => c == '0' || c == '1') rest
          else if x = 'o' ∨ x = 'O' then digitRun (fun c => '0' ≤ c && c ≤ '7') rest
          else 0) → digits ≤ run isPlain rest ∧ (digits ≠ 0 → isPlain x = true) := by
      rintro digits rfl
      split
      · next hx => exact ⟨digitRun_le (fun _ => isPlain_of_isHex) rest,
          fun _ => by rcases hx with rfl | rfl <;> decide⟩
      · split
        · next hx => exact ⟨digitRun_le (fun _ => isPlain_of_binary) rest,
            fun _ => by rcases hx with rfl | rfl <;> decide⟩
        · split
          · next hx => exact ⟨digitRun_le (fun _ hc => isPlain_of_isHex (isHex_of_octal hc)) rest,
              fun _ => by rcases hx with rfl | rfl <;> decide⟩
          · exact ⟨Nat.zero_le _, fun h => absurd rfl h⟩
    dsimp only
    generalize (if x = 'x' ∨ x = 'X' then digitRun isHex rest
      else if x = 'b' ∨ x = 'B' then digitRun (fun c => c == '0' || c == '1') rest
      else if x = 'o' ∨ x = 'O' then digitRun (fun c => '0' ≤ c && c ≤ '7') rest
      else 0) = digits at hdigits ⊢
    obtain ⟨hrun, hx⟩ := hdigits digits rfl
    split
    · exact Nat.zero_le _
    · next hne =>
      have htext : run isPlain ('0' :: x :: rest) = run isPlain rest + 2 := by
        rw [run_cons, if_pos (by decide), run_cons, if_pos (hx hne)]
      rw [htext]
      split
      · next hn =>
        have := succ_le_run hrun hn (by decide)
        omega
      · omega
  · exact Nat.zero_le _

/-- An exponent opens and closes nothing. -/
theorem readsPlain_exponent : ReadsPlain exponent := by
  intro s
  unfold exponent
  split
  · next e rest =>
    split
    · next he =>
      have heplain : isPlain e = true := by rcases he with rfl | rfl <;> decide
      rw [run_cons, if_pos heplain]
      split
      next sign rest' heq =>
      -- What stands in front of the digits is a sign or nothing.
      have hsign : sign + digitRun Char.isDigit rest' ≤ run isPlain rest := by
        split at heq
        · cases heq
          have := readsPlain_digits rest'
          rw [run_cons, if_pos (by decide)]
          omega
        · cases heq
          have := readsPlain_digits rest'
          rw [run_cons, if_pos (by decide)]
          omega
        · cases heq
          have := readsPlain_digits rest
          omega
      dsimp only
      split
      · exact Nat.zero_le _
      · show 1 + sign + digitRun Char.isDigit rest' ≤ run isPlain rest + 1
        omega
    · exact Nat.zero_le _
  · exact Nat.zero_le _

/-- The whole part of a number opens and closes nothing. -/
theorem readsPlain_wholePart : ReadsPlain wholePart := by
  intro s
  unfold wholePart
  split
  · next c rest =>
    have := readsPlain_digits (c :: rest)
    rw [run_cons, if_pos (show isPlain '0' = true by decide)]
    split <;> omega
  · exact readsPlain_digits _

/-- A number with a point. -/
theorem readsPlain_pointNumber : ReadsPlain pointNumber := by
  intro s
  unfold pointNumber
  dsimp only
  split
  · next rest heq =>
    split
    · exact Nat.zero_le _
    · have hexponent := add_le_run (readsPlain_digits rest)
        (readsPlain_exponent (rest.drop (digitRun Char.isDigit rest)))
      have hpoint : run isPlain (s.drop (wholePart s)) = run isPlain rest + 1 := by
        rw [heq, run_cons, if_pos (by decide)]
      have hwhole := add_le_run (readsPlain_wholePart s) (Nat.le_refl _)
      omega
  · exact Nat.zero_le _

/-- A number with an exponent and no point. -/
theorem readsPlain_exponentNumber : ReadsPlain exponentNumber := by
  intro s
  unfold exponentNumber
  dsimp only
  split
  · exact Nat.zero_le _
  · exact add_le_run (readsPlain_wholePart s) (readsPlain_exponent _)

/-- A number of digits. -/
theorem readsPlain_digitNumber : ReadsPlain digitNumber := by
  intro s
  unfold digitNumber
  dsimp only
  split
  · next h => exact succ_le_run (readsPlain_digits s) h.2 (by decide)
  · exact readsPlain_digits s

/-- No number has a bracket or a quote in it. -/
theorem readsPlain_numeral : ReadsPlain numeral := by
  intro s
  have hradix := readsPlain_radixNumber s
  have hpoint := readsPlain_pointNumber s
  have hexponent := readsPlain_exponentNumber s
  have hdigits := readsPlain_digitNumber s
  unfold numeral
  omega

/-- A numeral spells a number. -/
theorem spells_number : Spells .number numeral :=
  fun s _ => forall_mem_take (readsPlain_numeral s)

/-! ## Words of the language -/

/-- A word of the language is read as it is. -/
theorem take_keyword {w : String} {s : List Char} (h : keyword w s ≠ 0) :
    s.take (keyword w s) = w.toList := by
  unfold keyword at h ⊢
  split at h
  · next rest hrest =>
    split at h
    · next htail =>
      rw [if_pos htail, eq_append_of_after? hrest, List.take_left]
    · exact absurd rfl h
  · exact absurd rfl h

/-- A word of the language is spelled as it should be if it is made of letters. -/
theorem spells_keyword {w : String} (h : w.toList.all isPlain = true) :
    Spells .keyword (keyword w) := by
  intro s hs
  rw [take_keyword hs]
  exact List.all_eq_true.mp h

/-- The keyword spells `undefined`. -/
theorem spells_undefined : Spells .undefined (keyword "undefined") := by
  intro s hs
  exact take_keyword hs

/-! ## Strings -/

/-- The rest of a string literal ends with its quote, which does not stand in it, unless there is an
escape. -/
theorem exists_of_stringTail {q : Char} {skip n : Nat} {s : List Char}
    (h : stringTail q skip n s ≠ 0) : ∃ body rest, s = body ++ q :: rest ∧
      stringTail q skip n s = n + body.length + 1 ∧ (skip = 0 → '\\' ∉ body → q ∉ body) := by
  fun_induction stringTail q skip n s with
  | case1 => contradiction
  | case2 skip n c rest ih =>
    obtain ⟨body, rest', rfl, hlength, -⟩ := ih h
    exact ⟨c :: body, rest', rfl, by rw [hlength, List.length_cons]; omega, fun h => by omega⟩
  | case3 n rest => exact ⟨[], rest, rfl, rfl, fun _ _ => List.not_mem_nil⟩
  | case4 => contradiction
  | case5 => contradiction
  | case6 n rest hquote hline k hescape ih =>
    obtain ⟨body, rest', rfl, hlength, -⟩ := ih h
    refine ⟨'\\' :: body, rest', rfl, by rw [hlength, List.length_cons]; omega, fun _ hnone => ?_⟩
    exact absurd List.mem_cons_self hnone
  | case7 n c rest hquote hline hbackslash ih =>
    obtain ⟨body, rest', rfl, hlength, hbody⟩ := ih h
    refine ⟨c :: body, rest', rfl, by rw [hlength, List.length_cons]; omega, fun _ hnone hmem => ?_⟩
    rw [List.mem_cons, not_or] at hnone
    rcases List.mem_cons.mp hmem with rfl | hmem
    · exact hquote rfl
    · exact hbody rfl hnone.2 hmem

/-- The rest of a string in a tag ends with its quote, which does not stand in it, unless there is an
ampersand. -/
theorem exists_of_tagStringTail {q : Char} {skip n : Nat} {s : List Char}
    (h : tagStringTail q skip n s ≠ 0) : ∃ body rest, s = body ++ q :: rest ∧
      tagStringTail q skip n s = n + body.length + 1 ∧ (skip = 0 → '&' ∉ body → q ∉ body) := by
  fun_induction tagStringTail q skip n s with
  | case1 => contradiction
  | case2 skip n c rest ih =>
    obtain ⟨body, rest', rfl, hlength, -⟩ := ih h
    exact ⟨c :: body, rest', rfl, by rw [hlength, List.length_cons]; omega, fun h => by omega⟩
  | case3 n rest => exact ⟨[], rest, rfl, rfl, fun _ _ => List.not_mem_nil⟩
  | case4 n d tail hentity hquote hnone =>
    rw [hnone] at h
    contradiction
  -- What stands behind an ampersand is passed over, even a quote.
  | case5 n d tail hentity k hquote hlength ih =>
    rw [hlength] at h ⊢
    obtain ⟨body, rest', heq, hlength', -⟩ := ih h
    refine ⟨'&' :: body, rest', by rw [heq]; rfl, ?_, fun _ hnone => absurd List.mem_cons_self hnone⟩
    dsimp only
    rw [hlength', List.length_cons]
    omega
  | case6 n d tail hother hquote ih =>
    obtain ⟨body, rest', heq, hlength, -⟩ := ih h
    refine ⟨'&' :: body, rest', by rw [heq]; rfl, by rw [hlength, List.length_cons]; omega,
      fun _ hnone => absurd List.mem_cons_self hnone⟩
  | case7 => contradiction
  | case8 n c rest hquote hampersand ih =>
    obtain ⟨body, rest', rfl, hlength, hbody⟩ := ih h
    refine ⟨c :: body, rest', rfl, by rw [hlength, List.length_cons]; omega, fun _ hnone hmem => ?_⟩
    rw [List.mem_cons, not_or] at hnone
    rcases List.mem_cons.mp hmem with rfl | hmem
    · exact hquote rfl
    · exact hbody rfl hnone.2 hmem

/-- A string is spelled as it should be if its rest ends with its quote. -/
theorem spelled_string {q : Char} (hq : q ∈ ['"', '\'']) {body rest : List Char}
    (hbody : '\\' ∉ body → '&' ∉ body → q ∉ body) :
    Token.Spelled (.string, (q :: (body ++ q :: rest)).take (1 + body.length + 1)) := by
  refine ⟨q, hq, body, ?_, hbody⟩
  have hlength : 1 + body.length + 1 = (q :: (body ++ [q])).length := by
    rw [List.length_cons, List.length_append, List.length_singleton]
    omega
  have htext : q :: (body ++ q :: rest) = q :: (body ++ [q]) ++ rest := by simp
  rw [hlength, htext, List.take_left]

/-- A literal in quotes spells a string. -/
theorem spells_stringLiteral : Spells .string stringLiteral := by
  intro s hs
  unfold stringLiteral at hs ⊢
  split at hs
  · next q rest =>
    split at hs
    · next hq =>
      obtain ⟨body, rest', rfl, hlength, hbody⟩ := exists_of_stringTail hs
      rw [if_pos hq, hlength]
      exact spelled_string (by simpa using hq) fun hescape _ => hbody rfl hescape
    · exact absurd rfl hs
  · exact absurd rfl hs

/-- A literal in quotes inside of a tag spells a string. -/
theorem spells_tagString : Spells .string tagString := by
  intro s hs
  unfold tagString at hs ⊢
  split at hs
  · next q rest =>
    split at hs
    · next hq =>
      obtain ⟨body, rest', rfl, hlength, hbody⟩ := exists_of_tagStringTail hs
      rw [if_pos hq, hlength]
      exact spelled_string (by simpa using hq) fun _ hescape => hbody rfl hescape
    · exact absurd rfl hs
  · exact absurd rfl hs

/-! ## Signs -/

/-- Signs that open, close or quote nothing are spelled as they should be. -/
theorem spells_oneOf {wanted : List String}
    (h : wanted.all (·.toList.all isPlain) = true) : Spells .mark (oneOf wanted) := by
  intro s hs
  obtain ⟨w, hw, heq⟩ := take_oneOf hs
  rw [heq]
  exact .inr (.inr (.inr (List.all_eq_true.mp (List.all_eq_true.mp h w hw))))

/-- A sign that opens and closes nothing spells a mark. -/
theorem spells_exactly {run : String} (h : run.toList.all isPlain = true) :
    Spells .mark (exactly run) := by
  intro s hs
  rw [take_exactly hs]
  exact .inr (.inr (.inr (List.all_eq_true.mp h)))

/-- The question mark of a conditional expression is read alone. -/
theorem take_questionSign {s : List Char} (h : questionSign s ≠ 0) :
    s.take (questionSign s) = ['?'] := by
  have hone : questionSign s ≤ 1 ∧ (questionSign s ≠ 0 → s.head? = some '?') := by
    unfold questionSign
    split
    · refine ⟨?_, fun _ => rfl⟩
      split
      · exact Nat.zero_le _
      · split
        · split <;> decide
        · split <;> decide
        · decide
    · exact ⟨Nat.zero_le _, fun h => absurd rfl h⟩
  obtain ⟨rest, hs⟩ := List.head?_eq_some_iff.mp (hone.2 h)
  have hlength : questionSign s = 1 := by omega
  rw [hlength, hs, List.take_succ_cons, List.take_zero]

end Crossing.Script
