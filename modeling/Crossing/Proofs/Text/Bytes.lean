import Crossing.Proofs.Text.Segments
import Crossing.Proofs.Text.Utf8

/-!
# The bytes of texts

Different texts have different bytes (`encode_injective`). A character of ASCII is one byte, which
stands in no other character (`eq_of_mem_encodeChar`), so bytes are cut at a slash exactly where the
text is (`splitOn_encode`).
-/

namespace Crossing.Text.Utf8

/-- The bytes of a text are those of its first character and then those of the others. -/
theorem encode_cons (c : Char) (s : List Char) : encode (c :: s) = encodeChar c ++ encode s :=
  List.flatMap_cons

/-- The bytes of a text are those of its parts. -/
theorem encode_append (s t : List Char) : encode (s ++ t) = encode s ++ encode t :=
  List.flatMap_append

/-- Different texts have different bytes. -/
theorem encode_injective : Function.Injective encode :=
  Function.LeftInverse.injective decodeLossy_encode

/-- A character of ASCII is one byte. -/
theorem encodeChar_ascii {c : Char} (h : c.toNat < 0x80) : encodeChar c = [.ofNat c.toNat] := by
  simp [encodeChar, h]

/-- All bytes of a character of several bytes are above those of ASCII. -/
theorem le_of_mem_encodeChar {c : Char} (h : 0x80 ≤ c.toNat) {b : UInt8} (hb : b ∈ encodeChar c) :
    0x80 ≤ b.toNat := by
  have hc := toNat_valid c
  have hbyte {m : Nat} (hm : 0x80 ≤ m ∧ m < 256) (hb : b = .ofNat m) : 0x80 ≤ b.toNat := by
    rw [hb, toNat_byte hm.2]
    exact hm.1
  unfold encodeChar at hb
  generalize c.toNat = n at h hc hb
  dsimp only at hb
  rw [if_neg (by omega)] at hb
  split at hb
  · simp only [List.mem_cons, List.not_mem_nil, or_false] at hb
    rcases hb with hb | hb <;> exact hbyte (by omega) hb
  split at hb
  · simp only [List.mem_cons, List.not_mem_nil, or_false] at hb
    rcases hb with hb | hb | hb <;> exact hbyte (by omega) hb
  · simp only [List.mem_cons, List.not_mem_nil, or_false] at hb
    rcases hb with hb | hb | hb | hb <;> exact hbyte (by omega) hb

/-- Only a character of ASCII has its byte. -/
theorem eq_of_mem_encodeChar {c d : Char} (hd : d.toNat < 0x80)
    (h : .ofNat d.toNat ∈ encodeChar c) : c = d := by
  have hback : (UInt8.ofNat d.toNat).toNat = d.toNat := toNat_byte (by omega)
  by_cases hc : c.toNat < 0x80
  · rw [encodeChar_ascii hc, List.mem_singleton] at h
    have hnat := congrArg UInt8.toNat h
    rw [hback, toNat_byte (by omega)] at hnat
    exact Char.toNat_inj.mp hnat.symm
  · have hwide := le_of_mem_encodeChar (Nat.le_of_not_lt hc) h
    omega

/-- A character of ASCII stands in a text exactly if its byte is one of the text's. -/
theorem mem_encode_iff {c : Char} (hc : c.toNat < 0x80) {s : List Char} :
    .ofNat c.toNat ∈ encode s ↔ c ∈ s := by
  rw [encode, List.mem_flatMap]
  constructor
  · rintro ⟨d, hd, hmem⟩
    rwa [← eq_of_mem_encodeChar hc hmem]
  · intro h
    exact ⟨c, h, by rw [encodeChar_ascii hc]; exact List.mem_singleton_self _⟩

/-- The bytes of texts with slashes between them have the byte of a slash between theirs. -/
theorem encode_join (parts : List (List Char)) :
    encode (join ['/'] parts) = join [0x2F] (parts.map encode) := by
  induction parts with
  | nil => rfl
  | cons s parts ih =>
    cases parts with
    | nil => rfl
    | cons t parts =>
      rw [join, encode_append, encode_append, ih]
      · rfl
      · exact List.cons_ne_nil t parts

/-- Bytes are cut at a slash exactly where the text is. -/
theorem splitOn_encode (s : List Char) : (encode s).splitOn 0x2F = (s.splitOn '/').map encode := by
  have hjoin := encode_join (s.splitOn '/')
  rw [join_splitOn] at hjoin
  rw [hjoin]
  refine splitOn_join (by simp) fun t ht => ?_
  obtain ⟨u, hu, rfl⟩ := List.mem_map.mp ht
  exact mt (mem_encode_iff (c := '/') (by decide)).mp (not_mem_of_mem_splitOn hu)

end Crossing.Text.Utf8
