import Crossing.Text.Decimal

/-!
# Written numbers are read back

The digits of a number below the bound of 32 bits are read as that number (`toUInt32?_ofNat`). The
digits are put in front of one another from the last to the first, so the reading of a number is
stated with more text behind it.
-/

namespace Crossing.Text.Decimal

/-- The digit of a number below ten is between the digits zero and nine, and names the number. -/
theorem digit_spec {n : Nat} (h : n < 10) :
    ('0' ≤ digit n ∧ digit n ≤ '9') ∧ (digit n).toNat - 0x30 = n := by
  revert n
  decide

/-- Reading the digits of a number and then more is reading more after that number. -/
theorem digitsFrom?_prepend (n : Nat) (tail : List Char) :
    digitsFrom? 0 (prepend n tail) = digitsFrom? n tail := by
  fun_induction prepend n tail with
  | case1 n tail h =>
    obtain ⟨hdigit, hvalue⟩ := digit_spec h
    rw [digitsFrom?, if_pos hdigit, hvalue, Nat.zero_mul, Nat.zero_add]
  -- The digits in front are read first, and the last one completes the number.
  | case2 n tail h ih =>
    obtain ⟨hdigit, hvalue⟩ := digit_spec (Nat.mod_lt n (by omega : 0 < 10))
    rw [ih, digitsFrom?, if_pos hdigit, hvalue, Nat.div_add_mod' n 10]

/-- A number is written as digits in front of the tail. -/
theorem prepend_spec (n : Nat) (tail : List Char) :
    ∃ digits, digits ≠ [] ∧ (∀ c ∈ digits, '0' ≤ c ∧ c ≤ '9') ∧
      prepend n tail = digits ++ tail := by
  fun_induction prepend n tail with
  | case1 n tail h =>
    exact ⟨[digit n], by simp, by simpa using (digit_spec h).1, rfl⟩
  | case2 n tail h ih =>
    obtain ⟨digits, -, hdigits, heq⟩ := ih
    refine ⟨digits ++ [digit (n % 10)], by simp, fun c hc => ?_, by simp [heq]⟩
    rcases List.mem_append.mp hc with hc | hc
    · exact hdigits c hc
    · rw [List.mem_singleton] at hc
      exact hc ▸ (digit_spec (Nat.mod_lt n (by omega))).1

/-- A number is written with at least one digit and with digits only. -/
theorem ofNat_spec (n : Nat) : ofNat n ≠ [] ∧ ∀ c ∈ ofNat n, '0' ≤ c ∧ c ≤ '9' := by
  obtain ⟨digits, hne, hdigits, heq⟩ := prepend_spec n []
  rw [List.append_nil] at heq
  rw [ofNat, heq]
  exact ⟨hne, hdigits⟩

/-- A digit is a sign between zero and nine. -/
theorem isDigit_iff {c : Char} : c.isDigit = true ↔ '0' ≤ c ∧ c ≤ '9' := by
  rw [Char.isDigit, Bool.and_eq_true, decide_eq_true_eq, decide_eq_true_eq]
  rfl

/-- The digits of a number are digits. -/
theorem isDigit_of_mem_ofNat {n : Nat} {c : Char} (h : c ∈ ofNat n) : c.isDigit = true :=
  isDigit_iff.mpr ((ofNat_spec n).2 c h)

/-- A number above zero is not written with a zero in front. -/
theorem head?_prepend {n : Nat} (h : 0 < n) (tail : List Char) :
    (prepend n tail).head? ≠ some '0' := by
  have hdigits : ∀ n, n < 10 → 0 < n → digit n ≠ '0' := by decide
  fun_induction prepend n tail with
  | case1 n tail hsmall =>
    rw [List.head?_cons, ne_eq, Option.some.injEq]
    exact hdigits n hsmall h
  | case2 n tail hlarge ih => exact ih (by omega)

/-- A number is written as a zero or does not start with one. -/
theorem ofNat_eq_or (n : Nat) : ofNat n = ['0'] ∨ (ofNat n).head? ≠ some '0' := by
  rcases Nat.eq_zero_or_pos n with rfl | h
  · exact .inl (by rw [ofNat, prepend, if_pos (by decide), digit])
  · exact .inr (head?_prepend h [])

/-- A written number has no line feed. -/
theorem newline_not_mem_ofNat (n : Nat) : '\n' ∉ ofNat n := fun h =>
  absurd ((ofNat_spec n).2 '\n' h).1 (by decide)

/-- The digits of a number name it. -/
theorem toNat?_ofNat (n : Nat) : toNat? (ofNat n) = some n := by
  rw [toNat?]
  · exact digitsFrom?_prepend n []
  · exact (ofNat_spec n).1

/-- A written number of 32 bits is read back. -/
theorem toUInt32?_ofNat (n : UInt32) : toUInt32? (ofNat n.toNat) = some n := by
  have hread := toNat?_ofNat n.toNat
  have hdigits := (ofNat_spec n.toNat).2
  unfold toUInt32?
  split
  · next rest heq =>
    -- A digit is no plus sign.
    have hplus := hdigits '+' (by rw [heq]; exact List.mem_cons_self)
    exact absurd hplus.1 (by decide)
  · simp only [hread, n.toNat_lt_size, if_true, UInt32.ofNat_toNat]

end Crossing.Text.Decimal
