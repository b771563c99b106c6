import Crossing.Proofs.Text.Blank
import Crossing.Proofs.Text.Utf8
import Crossing.Text.Percent

/-!
# Percent-coded text is read back

Decoding undoes coding (`decode_encode`), and it leaves a text without `%` alone
(`decode_of_not_mem`), so different texts have different coded forms (`encode_injective`). A coded
text holds nothing but the characters that stand for themselves and `%` (`plain_of_mem_encode`), so
none of the separators of paths, queries and tokens occurs in it, and each `%` has its two digits
(`coded_encode`).
-/

namespace Crossing.Text.Percent

/-- A digit has the value that it was made of. -/
theorem value?_digit {n : Nat} (h : n < 16) : value? (digit n) = some n := by
  revert n
  decide

/-- A digit stands for itself. -/
theorem isPlain_digit {n : Nat} (h : n < 16) : isPlain (digit n) = true := by
  revert n
  decide

/-- A character other than `%` stands for its bytes. -/
theorem bytes_cons {c : Char} (h : c ≠ '%') (rest : List Char) :
    bytes (c :: rest) = Utf8.encodeChar c ++ bytes rest := by
  rw [bytes]
  intro x y rest' hc
  exact absurd hc h

/-- An escaped byte stands for that byte. -/
theorem bytes_escape (b : UInt8) (rest : List Char) :
    bytes (escape b ++ rest) = b :: bytes rest := by
  have hb := b.toNat_lt
  simp only [escape, List.cons_append, List.nil_append, bytes,
    value?_digit (by omega : b.toNat / 16 < 16), value?_digit (by omega : b.toNat % 16 < 16)]
  rw [show b.toNat / 16 * 16 + b.toNat % 16 = b.toNat by omega, UInt8.ofNat_toNat]

/-- Escaped bytes stand for those bytes. -/
theorem bytes_escapes (bs : List UInt8) (rest : List Char) :
    bytes (bs.flatMap escape ++ rest) = bs ++ bytes rest := by
  induction bs with
  | nil => rfl
  | cons b bs ih =>
    rw [List.flatMap_cons, List.append_assoc, bytes_escape, ih, List.cons_append]

/-- A coded text stands for the bytes of the text. -/
theorem bytes_encode (s : List Char) : bytes (encode s) = Utf8.encode s := by
  unfold encode Utf8.encode
  induction s with
  | nil => rfl
  | cons c s ih =>
    simp only [List.flatMap_cons]
    split
    · next h =>
      -- A character that stands for itself is not `%`, so it does not start an escape.
      have hc : c ≠ '%' := by rintro rfl; exact absurd h (by decide)
      rw [List.singleton_append, bytes_cons hc, ih]
    · rw [bytes_escapes, ih]

/-- Decoding undoes coding. -/
theorem decode_encode (s : List Char) : decode (encode s) = s := by
  rw [decode, bytes_encode, Utf8.decodeLossy_encode]

/-- Different texts have different coded forms. -/
theorem encode_injective : Function.Injective encode :=
  Function.LeftInverse.injective decode_encode

/-- A text without `%` stands for its own bytes. -/
theorem bytes_of_not_mem {s : List Char} (h : '%' ∉ s) : bytes s = Utf8.encode s := by
  induction s with
  | nil => rfl
  | cons c s ih =>
    rw [List.mem_cons, not_or] at h
    rw [bytes_cons (Ne.symm h.1), ih h.2]
    rfl

/-- Decoding leaves a text without `%` alone. -/
theorem decode_of_not_mem {s : List Char} (h : '%' ∉ s) : decode s = s := by
  rw [decode, bytes_of_not_mem h, Utf8.decodeLossy_encode]

/-- A coded text holds only characters that stand for themselves, and `%`. -/
theorem plain_of_mem_encode {s : List Char} {c : Char} (h : c ∈ encode s) :
    isPlain c = true ∨ c = '%' := by
  obtain ⟨a, -, ha⟩ := List.mem_flatMap.mp h
  split at ha
  · next hplain =>
    rw [List.mem_singleton] at ha
    exact .inl (ha ▸ hplain)
  · obtain ⟨b, -, hb⟩ := List.mem_flatMap.mp ha
    have hlt := b.toNat_lt
    simp only [escape, List.mem_cons, List.not_mem_nil, or_false] at hb
    rcases hb with rfl | rfl | rfl
    · exact .inr rfl
    · exact .inl (isPlain_digit (by omega))
    · exact .inl (isPlain_digit (by omega))

/-- A character that needs an escape does not occur in a coded text, unless it is `%`. -/
theorem not_mem_encode {c : Char} (hplain : isPlain c = false) (hc : c ≠ '%') (s : List Char) :
    c ∉ encode s := by
  intro h
  rcases plain_of_mem_encode h with hp | hp
  · rw [hplain] at hp; exact Bool.false_ne_true hp
  · exact hc hp

/-- The coded form of a text is empty only if the text is. -/
theorem encode_eq_nil {s : List Char} : encode s = [] ↔ s = [] := by
  constructor
  · intro h
    rw [← decode_encode s, h]
    rfl
  · rintro rfl
    rfl

/-- A character that stands for itself is a letter, a digit or one of nine signs. -/
theorem cases_of_isPlain {c : Char} (h : isPlain c = true) :
    ((0x41 ≤ c.toNat ∧ c.toNat ≤ 0x5A) ∨ (0x61 ≤ c.toNat ∧ c.toNat ≤ 0x7A)) ∨
      (0x30 ≤ c.toNat ∧ c.toNat ≤ 0x39) ∨ c ∈ "-_.!~*'()".toList := by
  rcases Bool.or_eq_true_iff.mp h with h | h
  · rcases Bool.or_eq_true_iff.mp h with h | h
    · exact .inl (toNat_of_isAlpha h)
    · have hdigit := Bool.and_eq_true_iff.mp h
      exact .inr (.inl ⟨UInt32.le_iff_toNat_le.mp (of_decide_eq_true hdigit.1),
        UInt32.le_iff_toNat_le.mp (of_decide_eq_true hdigit.2)⟩)
  · exact .inr (.inr (List.contains_iff_mem.mp h))

/-- A character that stands for itself is a sign of ASCII above the blank. -/
theorem toNat_of_isPlain {c : Char} (h : isPlain c = true) : 0x21 ≤ c.toNat ∧ c.toNat < 0x7F := by
  rcases cases_of_isPlain h with hletter | hdigit | hsign
  · omega
  · omega
  · have hsigns : "-_.!~*'()".toList.all
        (fun d => decide (0x21 ≤ d.toNat ∧ d.toNat < 0x7F)) = true := by decide
    exact of_decide_eq_true (List.all_eq_true.mp hsigns c hsign)

/-- The characters of a coded text are signs of ASCII above the blank. -/
theorem toNat_of_mem_encode {s : List Char} {c : Char} (h : c ∈ encode s) :
    0x21 ≤ c.toNat ∧ c.toNat < 0x7F := by
  rcases plain_of_mem_encode h with h | rfl
  · exact toNat_of_isPlain h
  · decide

/-! ### The form of coded text -/

/-- A letter or digit of ASCII, or one of nine signs. -/
def Unreserved (c : Char) : Prop :=
  c.isAlphanum = true ∨ c ∈ "-_.!~*'()".toList

/-- A hexadecimal digit, with the letters in uppercase. -/
def UpperHex (c : Char) : Prop :=
  c ∈ "0123456789ABCDEF".toList

instance (c : Char) : Decidable (UpperHex c) :=
  inferInstanceAs (Decidable (_ ∈ _))

/-- A text of characters that stand for themselves and of escapes with two uppercase digits. -/
inductive Coded : List Char → Prop
  | nil : Coded []
  | plain {c : Char} {rest : List Char} (hc : Unreserved c) (h : Coded rest) : Coded (c :: rest)
  | escape {high low : Char} {rest : List Char} (hhigh : UpperHex high) (hlow : UpperHex low)
      (h : Coded rest) : Coded ('%' :: high :: low :: rest)

/-- The digit of a number below sixteen is in uppercase. -/
theorem upperHex_digit {n : Nat} (h : n < 16) : UpperHex (digit n) := by
  revert n
  decide

/-- Escaped bytes in front of coded text are coded text. -/
theorem coded_escapes (bs : List UInt8) {rest : List Char} (h : Coded rest) :
    Coded (bs.flatMap escape ++ rest) := by
  induction bs with
  | nil => exact h
  | cons b bs ih =>
    have hb := b.toNat_lt
    exact .escape (upperHex_digit (by omega)) (upperHex_digit (by omega)) ih

/-- The coded form of any text is coded text. -/
theorem coded_encode (s : List Char) : Coded (encode s) := by
  unfold encode
  induction s with
  | nil => exact .nil
  | cons c s ih =>
    rw [List.flatMap_cons]
    split
    · next hplain =>
      exact .plain ((Bool.or_eq_true_iff.mp hplain).imp_right List.contains_iff_mem.mp) ih
    · exact coded_escapes _ ih

end Crossing.Text.Percent
