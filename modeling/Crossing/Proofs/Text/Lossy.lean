import Crossing.Proofs.Text.Bytes
import Crossing.Text.Os

/-!
# Bytes that are read as far as they can be

The lossy decoder reads piece by piece (`reads_decodeLossy`): the bytes of a character give the
character, and a run of bytes above ASCII that is none gives the replacement. So the characters of
ASCII are read where their bytes stand and nowhere else (`mem_decodeLossy_iff`), and what is read
without a replacement is UTF-8 (`encode_of_read`), so that nothing else is read as it is.
-/

namespace Crossing.Text.Utf8

/-! ### Characters of several bytes -/

/-- A number below the surrogates, or between them and the end, is the code point of its
character. -/
theorem toNat_ofNat {n : Nat} (h : n < 0xD800 ∨ (0xDFFF < n ∧ n < 0x110000)) :
    (Char.ofNat n).toNat = n := by
  rw [Char.ofNat, dif_pos (show n.isValidChar from h)]
  rfl

/-- A byte is that of its number. -/
theorem ofNat_eq {n : Nat} {b : UInt8} (h : b.toNat = n) : UInt8.ofNat n = b := by
  rw [← h, UInt8.ofNat_toNat]

/-- The bytes of a character of two bytes. -/
theorem encodeChar_two {n : Nat} {a b : UInt8} (hn : 0x80 ≤ n ∧ n < 0x800)
    (ha : a.toNat = 0xC0 + n / 64) (hb : b.toNat = 0x80 + n % 64) :
    encodeChar (.ofNat n) = [a, b] := by
  unfold encodeChar
  dsimp only
  rw [toNat_ofNat (by omega), if_neg (by omega), if_pos (by omega), ofNat_eq ha, ofNat_eq hb]

/-- The bytes of a character of three bytes. -/
theorem encodeChar_three {n : Nat} {a b c : UInt8}
    (hn : 0x800 ≤ n ∧ (n < 0xD800 ∨ (0xDFFF < n ∧ n < 0x10000)))
    (ha : a.toNat = 0xE0 + n / 4096) (hb : b.toNat = 0x80 + n / 64 % 64)
    (hc : c.toNat = 0x80 + n % 64) : encodeChar (.ofNat n) = [a, b, c] := by
  unfold encodeChar
  dsimp only
  rw [toNat_ofNat (by omega), if_neg (by omega), if_neg (by omega), if_pos (by omega), ofNat_eq ha,
    ofNat_eq hb, ofNat_eq hc]

/-- The bytes of a character of four bytes. -/
theorem encodeChar_four {n : Nat} {a b c d : UInt8} (hn : 0x10000 ≤ n ∧ n < 0x110000)
    (ha : a.toNat = 0xF0 + n / 262144) (hb : b.toNat = 0x80 + n / 4096 % 64)
    (hc : c.toNat = 0x80 + n / 64 % 64) (hd : d.toNat = 0x80 + n % 64) :
    encodeChar (.ofNat n) = [a, b, c, d] := by
  unfold encodeChar
  dsimp only
  rw [toNat_ofNat (by omega), if_neg (by omega), if_neg (by omega), if_neg (by omega), ofNat_eq ha,
    ofNat_eq hb, ofNat_eq hc, ofNat_eq hd]

/-! ### A character that has begun -/

/-- Whether all bytes that can complete a character that has begun are the further bytes of one. -/
def Begins : (begun : List UInt8) → (bits more low high : Nat) → Prop
  | _, _, 0, _, _ => False
  | begun, bits, 1, low, high => 0x80 ≤ low ∧ ∀ b : UInt8, low ≤ b.toNat → b.toNat ≤ high →
      encodeChar (.ofNat (bits * 64 + (b.toNat - 0x80))) = begun ++ [b]
  | begun, bits, more + 2, low, high => 0x80 ≤ low ∧ ∀ b : UInt8, low ≤ b.toNat → b.toNat ≤ high →
      Begins (begun ++ [b]) (bits * 64 + (b.toNat - 0x80)) (more + 1) 0x80 0xBF

/-- The first byte of a character of several bytes begins one. -/
theorem begins_first {b : UInt8} {bits more low high : Nat} {cs : List Char}
    (h : first b.toNat = some (.inside bits more low high, cs)) :
    cs = [] ∧ 0x80 ≤ b.toNat ∧ Begins [b] bits more low high := by
  have htwo {bits : Nat} (hbits : b.toNat = 0xC0 + bits) (hlong : 2 ≤ bits ∧ bits < 0x20) :
      Begins [b] bits 1 0x80 0xBF := by
    refine ⟨Nat.le_refl _, fun c hlow hhigh => ?_⟩
    exact encodeChar_two (by omega) (by omega) (by omega)
  have hthree {bits low high : Nat} (hbits : b.toNat = 0xE0 + bits) (hlow : 0x80 ≤ low)
      (hhigh : high ≤ 0xBF) (hlong : 0x20 ≤ bits * 64 + (low - 0x80))
      (hvalid : bits * 64 + (high - 0x80) < 0x360 ∨ 0x380 ≤ bits * 64 + (low - 0x80))
      (hmax : bits < 0x10) : Begins [b] bits 2 low high := by
    refine ⟨hlow, fun c hlowc hhighc => ⟨Nat.le_refl _, fun d hlowd hhighd => ?_⟩⟩
    exact encodeChar_three (by omega) (by omega) (by omega) (by omega)
  have hfour {bits low high : Nat} (hbits : b.toNat = 0xF0 + bits) (hlow : 0x80 ≤ low)
      (hhigh : high ≤ 0xBF) (hlong : 0x10 ≤ bits * 64 + (low - 0x80))
      (hmax : bits * 64 + (high - 0x80) < 0x110) : Begins [b] bits 3 low high := by
    refine ⟨hlow, fun c hlowc hhighc => ⟨Nat.le_refl _, fun d hlowd hhighd =>
      ⟨Nat.le_refl _, fun e hlowe hhighe => ?_⟩⟩⟩
    exact encodeChar_four (by omega) (by omega) (by omega) (by omega) (by omega)
  -- The bounds of the second byte leave out the surrogates and what fewer bytes could spell.
  have hb := b.toNat_lt
  unfold first at h
  split at h
  · cases h
  split at h
  · cases h
  have hwide : 0x80 ≤ b.toNat := by omega
  have hread {bits' more' low' high' : Nat}
      (heq : some (State.inside bits' more' low' high', ([] : List Char)) =
        some (.inside bits more low high, cs)) (hbegins : Begins [b] bits' more' low' high') :
      cs = [] ∧ 0x80 ≤ b.toNat ∧ Begins [b] bits more low high := by
    cases heq
    exact ⟨rfl, hwide, hbegins⟩
  split at h
  · exact hread h (htwo (by omega) (by omega))
  split at h
  · exact hread h (hthree (by omega) (by omega) (by omega) (by omega) (by omega) (by omega))
  split at h
  · exact hread h (hthree (by omega) (by omega) (by omega) (by omega) (by omega) (by omega))
  split at h
  · exact hread h (hthree (by omega) (by omega) (by omega) (by omega) (by omega) (by omega))
  split at h
  · exact hread h (hfour (by omega) (by omega) (by omega) (by omega) (by omega))
  split at h
  · exact hread h (hfour (by omega) (by omega) (by omega) (by omega) (by omega))
  split at h
  · exact hread h (hfour (by omega) (by omega) (by omega) (by omega) (by omega))
  · cases h

/-- A byte that is a character is one of ASCII. -/
theorem start_of_first {b : Nat} {cs : List Char} (h : first b = some (.start, cs)) :
    b < 0x80 ∧ cs = [Char.ofNat b] := by
  unfold first at h
  split at h
  · next hb =>
    cases h
    exact ⟨hb, rfl⟩
  · exfalso
    repeat' split at h
    all_goals cases h

/-- A byte that does not go on with the character is read from the start, behind a replacement. -/
theorem lossyFrom_inside_cons {bits more low high : Nat} {b : UInt8} {rest : List UInt8}
    (h : continue? bits more low high b.toNat = none) :
    lossyFrom (.inside bits more low high) (b :: rest) =
      replacement :: lossyFrom .start (b :: rest) := by
  rw [lossyFrom, lossyFrom, h]
  cases first b.toNat <;> rfl

/-- Where a character has begun, either it is completed and read, or a replacement is read for what
is there of it. -/
theorem lossyFrom_inside {begun : List UInt8} {bits more low high : Nat}
    (h : Begins begun bits more low high) (bytes : List UInt8) :
    (∃ c behind rest, bytes = behind ++ rest ∧ encodeChar c = begun ++ behind ∧
        lossyFrom (.inside bits more low high) bytes = c :: lossyFrom .start rest) ∨
      ∃ behind rest, bytes = behind ++ rest ∧ (∀ b ∈ behind, 0x80 ≤ b.toNat) ∧
        lossyFrom (.inside bits more low high) bytes = replacement :: lossyFrom .start rest := by
  induction bytes generalizing begun bits more low high with
  | nil => exact .inr ⟨[], [], rfl, by simp, rfl⟩
  | cons b bytes ih =>
    by_cases hb : low ≤ b.toNat ∧ b.toNat ≤ high
    -- The byte goes on with the character, and either completes it or leaves more to come.
    · match more, h with
      | 1, h =>
        rw [Begins] at h
        refine .inl ⟨_, [b], bytes, rfl, h.2 b hb.1 hb.2, ?_⟩
        rw [lossyFrom, continue?_last hb]
        rfl
      | more + 2, h =>
        rw [Begins] at h
        rw [lossyFrom, continue?_more hb]
        rcases ih (h.2 b hb.1 hb.2) with ⟨c, behind, rest, rfl, hc, heq⟩ |
          ⟨behind, rest, rfl, hwide, heq⟩
        · exact .inl ⟨c, b :: behind, rest, rfl, by rw [hc, List.append_assoc]; rfl, heq⟩
        · refine .inr ⟨b :: behind, rest, rfl, ?_, heq⟩
          exact List.forall_mem_cons.mpr ⟨Nat.le_trans h.1 hb.1, hwide⟩
    · refine .inr ⟨[], b :: bytes, rfl, by simp, lossyFrom_inside_cons ?_⟩
      rw [continue?, if_neg hb]

/-! ### What is read -/

/-- Whether bytes are read piece by piece as a text: the bytes of a character as the character, and
bytes above ASCII as a replacement. -/
inductive Reads : List UInt8 → List Char → Prop
  | nil : Reads [] []
  | char (c : Char) {bytes : List UInt8} {s : List Char} (h : Reads bytes s) :
      Reads (encodeChar c ++ bytes) (c :: s)
  | bad {bad bytes : List UInt8} {s : List Char} (hne : bad ≠ [])
      (hwide : ∀ b ∈ bad, 0x80 ≤ b.toNat) (h : Reads bytes s) :
      Reads (bad ++ bytes) (replacement :: s)

/-- The lossy decoder reads piece by piece. -/
theorem reads_decodeLossy (bytes : List UInt8) : Reads bytes (decodeLossy bytes) := by
  unfold decodeLossy
  -- Several bytes are read at once, so the induction is on how many there are.
  induction hn : bytes.length using Nat.strongRecOn generalizing bytes with
  | ind n ih =>
  subst hn
  cases bytes with
  | nil => exact .nil
  | cons b rest =>
    have hrest {behind rest' : List UInt8} (heq : rest = behind ++ rest') :
        Reads rest' (lossyFrom .start rest') :=
      ih _ (by simp only [heq, List.length_cons, List.length_append]; omega) _ rfl
    rw [lossyFrom]
    cases hfirst : first b.toNat with
    | none =>
      have hwide : 0x80 ≤ b.toNat := by
        refine Nat.le_of_not_lt fun hascii => ?_
        rw [first, if_pos hascii] at hfirst
        cases hfirst
      exact .bad (List.cons_ne_nil b []) (by simpa using hwide) (hrest (List.nil_append rest).symm)
    | some next =>
      obtain ⟨state, cs⟩ := next
      cases state with
      | start =>
        obtain ⟨hascii, rfl⟩ := start_of_first hfirst
        have hone : encodeChar (.ofNat b.toNat) = [b] := by
          rw [encodeChar_ascii] <;> rw [toNat_ofNat (by omega)]
          · rw [UInt8.ofNat_toNat]
          · exact hascii
        have h := Reads.char (.ofNat b.toNat) (hrest (List.nil_append rest).symm)
        rwa [hone] at h
      | inside bits more low high =>
        obtain ⟨rfl, hwide, hbegins⟩ := begins_first hfirst
        rcases lossyFrom_inside hbegins rest with ⟨c, behind, rest', heq, hc, hread⟩ |
          ⟨behind, rest', heq, hbehind, hread⟩
        · have h := Reads.char c (hrest heq)
          rw [hc, List.append_assoc, ← heq, ← hread] at h
          exact h
        · have h := Reads.bad (List.cons_ne_nil b behind)
            (List.forall_mem_cons.mpr ⟨hwide, hbehind⟩) (hrest heq)
          rw [List.cons_append, ← heq, ← hread] at h
          exact h

/-- A character of ASCII is read exactly if its byte is there. -/
theorem mem_decodeLossy_iff {c : Char} (hc : c.toNat < 0x80) {bytes : List UInt8} :
    c ∈ decodeLossy bytes ↔ .ofNat c.toNat ∈ bytes := by
  have hread := reads_decodeLossy bytes
  generalize decodeLossy bytes = s at hread
  induction hread with
  | nil => simp
  | @char d bytes s _ ih =>
    have hfirst : c = d ↔ .ofNat c.toNat ∈ encodeChar d := by
      refine ⟨?_, fun h => (eq_of_mem_encodeChar hc h).symm⟩
      rintro rfl
      rw [encodeChar_ascii hc]
      exact List.mem_singleton_self _
    simp only [List.mem_cons, List.mem_append, hfirst, ih]
  | @bad bad bytes s _ hwide _ ih =>
    have hne : c ≠ replacement := by
      rintro rfl
      exact absurd hc (by decide)
    have hnot : UInt8.ofNat c.toNat ∉ bad := by
      intro hmem
      have hbyte := hwide _ hmem
      rw [toNat_byte (by omega)] at hbyte
      omega
    simp only [List.mem_cons, List.mem_append, ih, hne, hnot, false_or]

/-- What is read without a replacement is the bytes of what is read. -/
theorem encode_of_read {bytes : List UInt8} (h : replacement ∉ decodeLossy bytes) :
    encode (decodeLossy bytes) = bytes := by
  have hread := reads_decodeLossy bytes
  generalize decodeLossy bytes = s at h hread
  induction hread with
  | nil => rfl
  | char c _ ih => rw [encode_cons, ih (mt (List.mem_cons_of_mem c) h)]
  | bad => exact absurd List.mem_cons_self h

/-- What is read as characters of ASCII alone is their bytes. -/
theorem encode_of_ascii {bytes : List UInt8} (h : ∀ c ∈ decodeLossy bytes, c.toNat < 0x80) :
    encode (decodeLossy bytes) = bytes :=
  encode_of_read fun hmem => absurd (h replacement hmem) (by decide)

/-- Bytes that are UTF-8 are read as their text. -/
theorem lossyFrom_of_strictFrom {state : State} {bytes : List UInt8} {s : List Char}
    (h : strictFrom state bytes = some s) : lossyFrom state bytes = s := by
  induction bytes generalizing state s with
  | nil =>
    cases state with
    | start => exact Option.some.inj h
    | inside => cases h
  | cons b bytes ih =>
    cases state with
    | start =>
      rw [strictFrom] at h
      rw [lossyFrom]
      cases hfirst : first b.toNat with
      | none =>
        rw [hfirst] at h
        cases h
      | some next =>
        rw [hfirst] at h
        obtain ⟨rest, hrest, rfl⟩ := Option.map_eq_some_iff.mp h
        exact congrArg (next.2 ++ ·) (ih hrest)
    | inside bits more low high =>
      rw [strictFrom] at h
      rw [lossyFrom]
      cases hnext : continue? bits more low high b.toNat with
      | none =>
        rw [hnext] at h
        cases h
      | some next =>
        rw [hnext] at h
        obtain ⟨rest, hrest, rfl⟩ := Option.map_eq_some_iff.mp h
        exact congrArg (next.2 ++ ·) (ih hrest)

/-- Bytes that are decoded are read as the same text. -/
theorem decodeLossy_of_decode? {bytes : List UInt8} {s : List Char} (h : decode? bytes = some s) :
    decodeLossy bytes = s :=
  lossyFrom_of_strictFrom h

/-- Only no bytes are read as no text. -/
theorem decodeLossy_eq_nil_iff {bytes : List UInt8} : decodeLossy bytes = [] ↔ bytes = [] := by
  constructor
  · intro h
    rw [← @encode_of_ascii bytes (by simp [h]), h]
    rfl
  · rintro rfl
    rfl

end Crossing.Text.Utf8

namespace Crossing.OsText

open Text

/-- A text without a replacement character is shown differently from all others. -/
theorem shown_inj {t u : OsText} (h : Utf8.replacement ∉ t.shown.toList) (heq : t.shown = u.shown) :
    t = u := by
  have hlist (v : OsText) : v.shown.toList = Utf8.decodeLossy v.bytes := String.toList_ofList
  have hread := congrArg String.toList heq
  rw [hlist] at h
  rw [hlist, hlist] at hread
  refine OsText.ext ?_
  rw [← Utf8.encode_of_read h, hread, Utf8.encode_of_read (hread ▸ h)]

end Crossing.OsText
