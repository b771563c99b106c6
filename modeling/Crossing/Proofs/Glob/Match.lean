import Crossing.Glob.Match
import Crossing.Proofs.Text.Bytes
import Crossing.Proofs.Text.Segments

/-!
# Patterns and longer texts

What can be left of a text after a pattern can be left of it with more text behind as well
(`append_mem_restsOfAll`). So a pattern followed by `/**` takes every text that goes on, behind a
slash, from one that the pattern takes (`isMatch_trailing`), and from one that it takes itself
(`isMatch_trailing_append`).
-/

namespace Crossing.Glob

open Text

/-- The suffixes of a text are what their name says. -/
theorem mem_suffixes {r s : List UInt8} : r ∈ suffixes s ↔ r <:+ s := by
  induction s with
  | nil => simp [suffixes]
  | cons b s ih => rw [suffixes, List.mem_cons, ih, List.suffix_cons_iff]

/-- What may follow a slash in a text. -/
theorem mem_afterSlashes {r s : List UInt8} : r ∈ afterSlashes s ↔ ∃ u, s = u ++ 0x2F :: r := by
  simp only [afterSlashes, List.mem_filterMap, mem_suffixes]
  constructor
  · rintro ⟨t, ⟨u, rfl⟩, ht⟩
    split at ht
    · cases ht
      exact ⟨u, rfl⟩
    · contradiction
  · rintro ⟨u, rfl⟩
    exact ⟨_, List.suffix_append u _, rfl⟩

/-- What given bytes leave of a text stands behind them. -/
theorem mem_restsOfBytes {bs r s : List UInt8} : r ∈ restsOfBytes bs s ↔ s = bs ++ r := by
  induction bs generalizing s with
  | nil => simp [restsOfBytes, eq_comm]
  | cons x xs ih =>
    cases s with
    | nil => simp [restsOfBytes]
    | cons b s =>
      rw [restsOfBytes, List.cons_append, List.cons.injEq]
      split
      · next h => rw [ih, and_iff_right h.symm]
      · next h => simp [Ne.symm h]

/-- What one byte leaves of a text stands behind it. -/
theorem mem_restsOfOne {p : UInt8 → Bool} {r s : List UInt8} :
    r ∈ restsOfOne p s ↔ ∃ b, p b = true ∧ s = b :: r := by
  cases s with
  | nil => simp [restsOfOne]
  | cons b s =>
    rw [restsOfOne]
    split
    · next h =>
      rw [List.mem_singleton]
      exact ⟨fun hr => ⟨b, h, by rw [hr]⟩, fun ⟨_, _, hs⟩ => (List.cons.inj hs).2.symm⟩
    · next h =>
      refine ⟨fun hr => absurd hr List.not_mem_nil, fun ⟨c, hc, hs⟩ => ?_⟩
      rw [(List.cons.inj hs).1] at h
      exact absurd hc h

/-- The sign for any directories at the start leaves all of a text, or what follows a slash. -/
theorem mem_rests_leading {r s : List UInt8} :
    r ∈ Token.leading.rests s ↔ r = s ∨ ∃ u, s = u ++ 0x2F :: r := by
  rw [Token.rests, List.mem_cons, mem_afterSlashes]

/-- The sign for anything in a directory leaves any suffix of what follows a slash. -/
theorem mem_rests_trailing {r s : List UInt8} :
    r ∈ Token.trailing.rests s ↔ ∃ t, s = 0x2F :: t ∧ r <:+ t := by
  unfold Token.rests
  split
  · next t => simp [mem_suffixes]
  · next h => exact ⟨fun hr => absurd hr List.not_mem_nil, fun ⟨t, ht, _⟩ => absurd ht (h t)⟩

/-- The sign for any directories in between leaves what follows a slash, or what follows another
slash after it. -/
theorem mem_rests_between {r s : List UInt8} :
    r ∈ Token.between.rests s ↔ ∃ t, s = 0x2F :: t ∧ (r = t ∨ ∃ u, t = u ++ 0x2F :: r) := by
  unfold Token.rests
  split
  · next t => simp [mem_afterSlashes]
  · next h => exact ⟨fun hr => absurd hr List.not_mem_nil, fun ⟨t, ht, _⟩ => absurd ht (h t)⟩

/-- What tokens leave of a text is what the others leave of what the first one leaves. -/
theorem mem_restsOfAll_cons {t : Token} {ts : List Token} {r s : List UInt8} :
    r ∈ restsOfAll (t :: ts) s ↔ ∃ m ∈ t.rests s, r ∈ restsOfAll ts m := by
  rw [restsOfAll, List.mem_flatMap]

/-- What joined tokens leave of a text is what the second ones leave of what the first ones
leave. -/
theorem mem_restsOfAll_append {ts us : List Token} {r s : List UInt8} :
    r ∈ restsOfAll (ts ++ us) s ↔ ∃ m ∈ restsOfAll ts s, r ∈ restsOfAll us m := by
  induction ts generalizing s with
  | nil => simp [restsOfAll]
  | cons t ts ih =>
    simp only [List.cons_append, mem_restsOfAll_cons, ih]
    constructor
    · rintro ⟨m, hm, n, hn, hr⟩
      exact ⟨n, ⟨m, hm, hn⟩, hr⟩
    · rintro ⟨n, ⟨m, hm, hn⟩, hr⟩
      exact ⟨m, hm, n, hn, hr⟩

mutual

/-- What is left after a token is left with more text behind it as well. -/
theorem append_mem_rests {t : Token} {r s : List UInt8} (more : List UInt8) (h : r ∈ t.rests s) :
    r ++ more ∈ t.rests (s ++ more) := by
  cases t with
  | literal c =>
    rw [Token.rests, mem_restsOfBytes] at h ⊢
    rw [h, List.append_assoc]
  | any =>
    rw [Token.rests, mem_restsOfOne] at h ⊢
    obtain ⟨b, hb, rfl⟩ := h
    exact ⟨b, hb, rfl⟩
  | run =>
    rw [Token.rests, mem_suffixes] at h ⊢
    obtain ⟨u, rfl⟩ := h
    exact ⟨u, (List.append_assoc u r more).symm⟩
  | leading =>
    rw [mem_rests_leading] at h ⊢
    rcases h with rfl | ⟨u, rfl⟩
    · exact .inl rfl
    · exact .inr ⟨u, by simp⟩
  | trailing =>
    rw [mem_rests_trailing] at h ⊢
    obtain ⟨_, rfl, u, rfl⟩ := h
    exact ⟨_, rfl, u, (List.append_assoc u r more).symm⟩
  | between =>
    rw [mem_rests_between] at h ⊢
    obtain ⟨_, rfl, rfl | ⟨u, rfl⟩⟩ := h
    · exact ⟨_, rfl, .inl rfl⟩
    · exact ⟨_, rfl, .inr ⟨u, by simp⟩⟩
  | «class» negated ranges =>
    rw [Token.rests, mem_restsOfOne] at h ⊢
    obtain ⟨b, hb, rfl⟩ := h
    exact ⟨b, hb, rfl⟩
  | alternatives branches =>
    rw [Token.rests] at h ⊢
    split at h
    · next hvoid =>
      rw [if_pos hvoid, List.mem_singleton.mp h]
      exact List.mem_singleton_self _
    · next hvoid =>
      rw [if_neg hvoid]
      exact append_mem_restsOfBranches more h

/-- Tokens leave what follows a text as it is. -/
theorem append_mem_restsOfAll {ts : List Token} {r s : List UInt8} (more : List UInt8)
    (h : r ∈ restsOfAll ts s) : r ++ more ∈ restsOfAll ts (s ++ more) := by
  cases ts with
  | nil =>
    rw [restsOfAll, List.mem_singleton] at h ⊢
    rw [h]
  | cons t ts =>
    rw [mem_restsOfAll_cons] at h ⊢
    obtain ⟨m, hm, hr⟩ := h
    exact ⟨m ++ more, append_mem_rests more hm, append_mem_restsOfAll more hr⟩

/-- Branches leave what follows a text as it is. -/
theorem append_mem_restsOfBranches {branches : List (List Token)} {r s : List UInt8}
    (more : List UInt8) (h : r ∈ restsOfBranches branches s) :
    r ++ more ∈ restsOfBranches branches (s ++ more) := by
  cases branches with
  | nil => exact absurd h List.not_mem_nil
  | cons branch branches =>
    rw [restsOfBranches, List.mem_append] at h ⊢
    rcases h with h | h
    · split at h
      · exact absurd h List.not_mem_nil
      · next hvoid =>
        rw [if_neg hvoid]
        exact .inl (append_mem_restsOfAll more h)
    · exact .inr (append_mem_restsOfBranches more h)

end

/-- A pattern stands for a text of which it can leave nothing; `**` alone stands for any text. -/
theorem isMatch_iff {ts : List Token} {s : List UInt8} :
    isMatch ts s = true ↔ ts = [.leading] ∨ [] ∈ restsOfAll ts s := by
  unfold isMatch
  split
  · simp
  · next h =>
    rw [or_iff_right h, List.any_eq_true]
    exact ⟨fun ⟨r, hr, hnil⟩ => List.isEmpty_iff.mp hnil ▸ hr, fun hr => ⟨[], hr, rfl⟩⟩

/-- A pattern that ends in `/**` takes the texts of which it can leave something behind a slash. -/
theorem isMatch_trailing_iff {ts : List Token} {s : List UInt8} :
    isMatch (ts ++ [.trailing]) s = true ↔ ∃ t, 0x2F :: t ∈ restsOfAll ts s := by
  have hne : ts ++ [.trailing] ≠ [.leading] := by
    intro heq
    have hlast := congrArg List.getLast? heq
    simp at hlast
  rw [isMatch_iff, or_iff_right hne, mem_restsOfAll_append]
  constructor
  · rintro ⟨m, hm, hnil⟩
    obtain ⟨r, hr, -⟩ := mem_restsOfAll_cons.mp hnil
    obtain ⟨t, rfl, -⟩ := mem_rests_trailing.mp hr
    exact ⟨t, hm⟩
  · rintro ⟨t, ht⟩
    refine ⟨_, ht, mem_restsOfAll_cons.mpr ⟨[], mem_rests_trailing.mpr ⟨t, rfl, ?_⟩, ?_⟩⟩
    · exact List.nil_suffix
    · exact List.mem_singleton_self _

/-- A pattern followed by `/**` takes what is below a text that the pattern takes. -/
theorem isMatch_trailing {ts : List Token} {d : List UInt8} (hts : ts ≠ [.leading])
    (h : isMatch ts d = true) (x : List UInt8) :
    isMatch (ts ++ [.trailing]) (d ++ 0x2F :: x) = true := by
  have hrest := append_mem_restsOfAll (0x2F :: x) ((isMatch_iff.mp h).resolve_left hts)
  rw [isMatch_trailing_iff]
  exact ⟨_, hrest⟩

/-- A pattern that ends in `/**` takes what is below a text that it takes. -/
theorem isMatch_trailing_append {ts : List Token} {d : List UInt8}
    (h : isMatch (ts ++ [.trailing]) d = true) (x : List UInt8) :
    isMatch (ts ++ [.trailing]) (d ++ 0x2F :: x) = true := by
  obtain ⟨t, ht⟩ := isMatch_trailing_iff.mp h
  have hrest := append_mem_restsOfAll (0x2F :: x) ht
  rw [isMatch_trailing_iff]
  exact ⟨_, hrest⟩

/-! ### Patterns without special signs -/

/-- What is left after literals is what stands behind their text. -/
theorem mem_restsOfAll_literals {p : List Char} {r s : List UInt8} :
    r ∈ restsOfAll (p.map .literal) s ↔ s = Utf8.encode p ++ r := by
  induction p generalizing s with
  | nil =>
    rw [List.map_nil, restsOfAll, List.mem_singleton]
    exact eq_comm
  | cons c p ih =>
    simp only [List.map_cons, mem_restsOfAll_cons, Token.rests, mem_restsOfBytes, ih]
    constructor
    · rintro ⟨_, rfl, rfl⟩
      rw [Utf8.encode_cons, List.append_assoc]
    · rintro rfl
      exact ⟨_, by rw [Utf8.encode_cons, List.append_assoc], rfl⟩

/-- `**/` in front of literals stands for nothing, or for what comes before a slash. -/
theorem mem_restsOfAll_leading {p : List Char} {r s : List UInt8} :
    r ∈ restsOfAll (.leading :: p.map .literal) s ↔
      ∃ t, (s = t ∨ ∃ u, s = u ++ 0x2F :: t) ∧ t = Utf8.encode p ++ r := by
  simp only [mem_restsOfAll_cons, mem_rests_leading, mem_restsOfAll_literals]
  constructor
  · rintro ⟨m, rfl | hu, hm⟩
    · exact ⟨_, .inl rfl, hm⟩
    · exact ⟨m, .inr hu, hm⟩
  · rintro ⟨t, rfl | hu, ht⟩
    · exact ⟨_, .inl rfl, ht⟩
    · exact ⟨t, .inr hu, ht⟩

/-- `**/p` takes a text that is `p`, or that ends in it behind a slash. -/
theorem isMatch_name_iff {p : List Char} {s : List UInt8} (hp : p ≠ []) :
    isMatch (.leading :: p.map .literal) s = true ↔
      ∃ t, (s = t ∨ ∃ u, s = u ++ 0x2F :: t) ∧ t = Utf8.encode p := by
  rw [isMatch_iff, or_iff_right (by simpa using hp), mem_restsOfAll_leading]
  simp only [List.append_nil]

/-- `**/p/**` takes a text with something behind a slash behind `p`, which is at the start or behind
a slash. -/
theorem isMatch_below_iff {p : List Char} {s : List UInt8} :
    isMatch (.leading :: p.map .literal ++ [.trailing]) s = true ↔
      ∃ t, (s = t ∨ ∃ u, s = u ++ 0x2F :: t) ∧ ∃ x, t = Utf8.encode p ++ 0x2F :: x := by
  simp only [isMatch_trailing_iff, mem_restsOfAll_leading]
  constructor
  · rintro ⟨x, t, hs, ht⟩
    exact ⟨t, hs, x, ht⟩
  · rintro ⟨t, hs, x, ht⟩
    exact ⟨x, t, hs, ht⟩

/-- The two globs of a plain pattern take the texts that it stands in between slashes or ends. -/
theorem isMatch_plain_iff {p : List Char} {s : List UInt8} (hp : p ≠ []) :
    isMatch (.leading :: p.map .literal ++ [.trailing]) s = true ∨
        isMatch (.leading :: p.map .literal) s = true ↔
      (p.splitOn '/').map Utf8.encode <:+: s.splitOn 0x2F := by
  rw [isMatch_below_iff, isMatch_name_iff hp, ← Utf8.splitOn_encode, infix_splitOn_iff]
  constructor
  · rintro (⟨t, hs, ht⟩ | ⟨t, hs, ht⟩)
    · exact ⟨t, hs, .inr ht⟩
    · exact ⟨t, hs, .inl ht⟩
  · rintro ⟨t, hs, ht | ht⟩
    · exact .inr ⟨t, hs, ht⟩
    · exact .inl ⟨t, hs, ht⟩

end Crossing.Glob
