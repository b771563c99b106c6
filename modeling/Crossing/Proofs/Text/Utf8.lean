import Crossing.Text.Utf8

/-!
# Encoded text is read back

The lossy decoder gives back every text that was encoded. It goes through the states that the bytes
of a character lead to and completes that character with the last of them, so what follows does not
change how the character is read.
-/

namespace Crossing.Text.Utf8

/-- The width of a text is that of its parts. -/
theorem width_append (s t : List Char) : width (s ++ t) = width s + width t := by
  induction s with
  | nil => simp [width]
  | cons c s ih =>
    rw [List.cons_append, width, width, ih]
    omega

/-- An empty text is the only one without bytes. -/
theorem eq_nil_of_width {s : List Char} (h : width s = 0) : s = [] := by
  cases s with
  | nil => rfl
  | cons c s =>
    have hpos := c.utf8Size_pos
    unfold width at h
    omega

/-- A code point is below the surrogates or between them and the end. -/
theorem toNat_valid (c : Char) :
    c.toNat < 0xD800 ∨ (0xDFFF < c.toNat ∧ c.toNat < 0x110000) := by
  have h := c.valid
  simp only [UInt32.isValidChar, Nat.isValidChar] at h
  exact h

/-- A number below 256 is the number of its byte. -/
theorem toNat_byte {n : Nat} (h : n < 256) : (UInt8.ofNat n).toNat = n := by
  simp [Nat.mod_eq_of_lt h]

/-- A byte that continues a character completes it, if no further one is needed. -/
theorem continue?_last {bits low high b : Nat} (h : low ≤ b ∧ b ≤ high) :
    continue? bits 1 low high b = some (.start, [Char.ofNat (bits * 64 + (b - 0x80))]) := by
  simp [continue?, h]

/-- A byte that continues a character adds its bits, if further ones are needed. -/
theorem continue?_more {bits more low high b : Nat} (h : low ≤ b ∧ b ≤ high) :
    continue? bits (more + 2) low high b =
      some (.inside (bits * 64 + (b - 0x80)) (more + 1) 0x80 0xBF, []) := by
  simp [continue?, h]

/-- The first byte of a character of two bytes. -/
theorem first_two {b : Nat} (h : 0xC2 ≤ b ∧ b < 0xE0) :
    first b = some (.inside (b - 0xC0) 1 0x80 0xBF, []) := by
  unfold first
  rw [if_neg (by omega), if_neg (by omega), if_pos (by omega)]

/-- The first byte of a character of three bytes, with bounds that its second byte meets. -/
theorem first_three {b : Nat} (h : 0xE0 ≤ b ∧ b < 0xF0) :
    ∃ low high, first b = some (.inside (b - 0xE0) 2 low high, []) ∧
      low = (if b = 0xE0 then 0xA0 else 0x80) ∧ high = (if b = 0xED then 0x9F else 0xBF) := by
  refine ⟨_, _, ?_, rfl, rfl⟩
  unfold first
  rw [if_neg (by omega), if_neg (by omega), if_neg (by omega)]
  by_cases h0 : b = 0xE0
  · subst h0; rfl
  · by_cases hD : b = 0xED
    · subst hD; rfl
    · rw [if_neg h0, if_neg hD, if_pos (by omega), if_neg h0, if_neg hD]

/-- The first byte of a character of four bytes, with bounds that its second byte meets. -/
theorem first_four {b : Nat} (h : 0xF0 ≤ b ∧ b ≤ 0xF4) :
    ∃ low high, first b = some (.inside (b - 0xF0) 3 low high, []) ∧
      low = (if b = 0xF0 then 0x90 else 0x80) ∧ high = (if b = 0xF4 then 0x8F else 0xBF) := by
  refine ⟨_, _, ?_, rfl, rfl⟩
  unfold first
  rw [if_neg (by omega), if_neg (by omega), if_neg (by omega), if_neg (by omega),
    if_neg (by omega), if_neg (by omega)]
  by_cases h0 : b = 0xF0
  · subst h0; rfl
  · by_cases h4 : b = 0xF4
    · subst h4; rfl
    · rw [if_neg h0, if_pos (by omega), if_neg h0, if_neg h4]

/-- The decoder reads the bytes of a character as that character, whatever follows them. -/
theorem lossyFrom_encodeChar (c : Char) (rest : List UInt8) :
    lossyFrom .start (encodeChar c ++ rest) = c :: lossyFrom .start rest := by
  -- The code point decides how many bytes there are, and each of them leads to the next state.
  have hc := toNat_valid c
  have hback : Char.ofNat c.toNat = c := Char.ofNat_toNat c
  generalize hn : c.toNat = n at hc hback
  unfold encodeChar
  simp only [hn]
  split
  · next h =>
    -- One byte, which is the character.
    have h0 : first n = some (.start, [Char.ofNat n]) := by simp [first, h]
    simp only [List.cons_append, List.nil_append, lossyFrom, toNat_byte (by omega : n < 256), h0,
      hback]
  split
  · next h1 h2 =>
    -- Two bytes.
    simp only [List.cons_append, List.nil_append, lossyFrom,
      toNat_byte (by omega : 0xC0 + n / 64 < 256), toNat_byte (by omega : 0x80 + n % 64 < 256),
      first_two (by omega : 0xC2 ≤ 0xC0 + n / 64 ∧ 0xC0 + n / 64 < 0xE0),
      continue?_last (by omega : 0x80 ≤ 0x80 + n % 64 ∧ 0x80 + n % 64 ≤ 0xBF)]
    rw [show (0xC0 + n / 64 - 0xC0) * 64 + (0x80 + n % 64 - 0x80) = n by omega, hback]
  split
  · next h1 h2 h3 =>
    -- Three bytes. The bounds on the second keep out short forms and surrogates.
    obtain ⟨low, high, hfirst, hlow, hhigh⟩ :=
      first_three (by omega : 0xE0 ≤ 0xE0 + n / 4096 ∧ 0xE0 + n / 4096 < 0xF0)
    have hsecond : low ≤ 0x80 + n / 64 % 64 ∧ 0x80 + n / 64 % 64 ≤ high := by
      rw [hlow, hhigh]; constructor <;> split <;> omega
    simp only [List.cons_append, List.nil_append, lossyFrom,
      toNat_byte (by omega : 0xE0 + n / 4096 < 256),
      toNat_byte (by omega : 0x80 + n / 64 % 64 < 256), toNat_byte (by omega : 0x80 + n % 64 < 256),
      hfirst, continue?_more hsecond,
      continue?_last (by omega : 0x80 ≤ 0x80 + n % 64 ∧ 0x80 + n % 64 ≤ 0xBF)]
    rw [show ((0xE0 + n / 4096 - 0xE0) * 64 + (0x80 + n / 64 % 64 - 0x80)) * 64 +
      (0x80 + n % 64 - 0x80) = n by omega, hback]
  · next h1 h2 h3 =>
    -- Four bytes. The bounds on the second keep out short forms and what lies above the end.
    obtain ⟨low, high, hfirst, hlow, hhigh⟩ :=
      first_four (by omega : 0xF0 ≤ 0xF0 + n / 262144 ∧ 0xF0 + n / 262144 ≤ 0xF4)
    have hsecond : low ≤ 0x80 + n / 4096 % 64 ∧ 0x80 + n / 4096 % 64 ≤ high := by
      rw [hlow, hhigh]; constructor <;> split <;> omega
    simp only [List.cons_append, List.nil_append, lossyFrom,
      toNat_byte (by omega : 0xF0 + n / 262144 < 256),
      toNat_byte (by omega : 0x80 + n / 4096 % 64 < 256),
      toNat_byte (by omega : 0x80 + n / 64 % 64 < 256), toNat_byte (by omega : 0x80 + n % 64 < 256),
      hfirst, continue?_more hsecond,
      continue?_more (by omega : 0x80 ≤ 0x80 + n / 64 % 64 ∧ 0x80 + n / 64 % 64 ≤ 0xBF),
      continue?_last (by omega : 0x80 ≤ 0x80 + n % 64 ∧ 0x80 + n % 64 ≤ 0xBF)]
    rw [show (((0xF0 + n / 262144 - 0xF0) * 64 + (0x80 + n / 4096 % 64 - 0x80)) * 64 +
      (0x80 + n / 64 % 64 - 0x80)) * 64 + (0x80 + n % 64 - 0x80) = n by omega, hback]

/-- The lossy decoder reads an encoded text back. -/
theorem decodeLossy_encode (s : List Char) : decodeLossy (encode s) = s := by
  unfold decodeLossy encode
  induction s with
  | nil => rfl
  | cons c s ih => rw [List.flatMap_cons, lossyFrom_encodeChar, ih]

end Crossing.Text.Utf8
