import Crossing.Boundary.Record
import Crossing.Http.Header
import Crossing.Proofs.Text.Blank
import Crossing.Proofs.Text.Decimal
import Crossing.Proofs.Text.Percent
import Crossing.Proofs.Text.Segments

/-!
# Tokens are read back, and tell records apart

The token of a record with a file name that is not empty and holds no colon gives all parts of the
record (`ofToken_token`). The colons of the coded text are then those that part its three fields.
No other token gives its record back (`record?_ofToken_eq_some_iff`): what is read as the file is
the text before the first colon, if there is any.

A token still belongs to one record only, whatever the file is (`token_safe`). Neither the line nor
the side holds a colon, so read from the end the text of a record falls into its fields
(`plain_injective`).
-/

namespace Crossing.Boundary

open Text

/-- A digit is a sign of ASCII above the blank, and no colon. -/
theorem toNat_of_digit {c : Char} (h : '0' ≤ c ∧ c ≤ '9') :
    (0x21 ≤ c.toNat ∧ c.toNat < 0x7F) ∧ c ≠ ':' := by
  have hlow : '0'.toNat ≤ c.toNat := h.1
  have hhigh : c.toNat ≤ '9'.toNat := h.2
  simp only [Char.reduceToNat] at hlow hhigh
  refine ⟨by omega, ?_⟩
  rintro rfl
  exact absurd h (by decide)

/-- Trimming leaves a written number alone. -/
theorem trim_ofNat (n : Nat) : trim (Decimal.ofNat n) = Decimal.ofNat n :=
  trim_of_not_blank fun _ hc => isBlank_of_ascii (toNat_of_digit ((Decimal.ofNat_spec n).2 _ hc)).1

/-- Trimming leaves the name of a side alone. -/
theorem trim_name (s : Side) : trim s.name.toList = s.name.toList := by
  cases s <;> decide

namespace Record

/-- A written line has no colon. -/
theorem colon_not_mem_line (r : Record) : ':' ∉ Decimal.ofNat r.line.toNat := fun hc =>
  (toNat_of_digit ((Decimal.ofNat_spec _).2 _ hc)).2 rfl

/-- The name of a side has no colon. -/
theorem colon_not_mem_side (r : Record) : ':' ∉ r.side.name.toList := by
  cases r.side <;> decide

/-- The text of a record falls into its three fields at the colons, if the file holds none. -/
theorem splitOn_plain {r : Record} (h : ':' ∉ r.file.toList) :
    r.plain.splitOn ':' = [r.file.toList, Decimal.ofNat r.line.toNat, r.side.name.toList] := by
  -- Neither digits nor the name of a side hold a colon, so the two colons part three fields.
  have hplain : r.plain = r.file.toList ++
      ':' :: (Decimal.ofNat r.line.toNat ++ ':' :: r.side.name.toList) := by simp [plain]
  rw [hplain, List.splitOn_append_cons_self_of_not_mem h,
    List.splitOn_append_cons_self_of_not_mem r.colon_not_mem_line,
    List.splitOn_eq_singleton r.colon_not_mem_side]

/-- Different records have different texts: the last two colons part the fields, whatever the file
holds. -/
theorem plain_injective : Function.Injective plain := by
  intro r r' h
  obtain ⟨hfront, hside⟩ := append_cons_inj r.colon_not_mem_side r'.colon_not_mem_side h
  obtain ⟨hfile, hline⟩ := append_cons_inj r.colon_not_mem_line r'.colon_not_mem_line hfront
  -- Each field is read back from its text.
  have hline : some r.line = some r'.line := by
    rw [← Decimal.toUInt32?_ofNat, hline, Decimal.toUInt32?_ofNat]
  have hside : some r.side = some r'.side := by
    rw [← Side.ofName?_name, String.toList_inj.mp hside, Side.ofName?_name]
  obtain ⟨file, line, side⟩ := r
  obtain ⟨file', line', side'⟩ := r'
  rw [Record.mk.injEq]
  exact ⟨String.toList_inj.mp hfile, Option.some.inj hline, Option.some.inj hside⟩

/-- The text of a token is the coded text of its record. -/
theorem toList_token (r : Record) : r.token.toList = Percent.encode r.plain := by
  simp [token]

/-- The token of a record gives all of its parts, if its file is not empty and holds no colon. -/
theorem ofToken_token {r : Record} (hne : r.file ≠ "") (hcolon : ':' ∉ r.file.toList) :
    Partial.ofToken r.token = ⟨some r.file, some r.line, some r.side⟩ := by
  have hfile : r.file.toList.isEmpty = false := by simpa using hne
  rw [Partial.ofToken, toList_token, Percent.decode_encode, Partial.ofPlain, splitOn_plain hcolon]
  simp only [List.getElem?_cons_zero, List.getElem?_cons_succ, Option.filter_some, hfile,
    Bool.not_false, if_true, Option.map_some, Option.bind_eq_bind, Option.bind_some, trim_ofNat,
    trim_name, Decimal.toUInt32?_ofNat, String.ofList_toList, Side.ofName?_name]

end Record

/-- A file that a token gives is not empty and holds no colon. -/
theorem Partial.file_ofPlain {s : List Char} {file : String}
    (h : (Partial.ofPlain s).file = some file) : file ≠ "" ∧ ':' ∉ file.toList := by
  obtain ⟨part, hpart, rfl⟩ := Option.map_eq_some_iff.mp h
  obtain ⟨hpart, hne⟩ := Option.filter_eq_some_iff.mp hpart
  rw [String.toList_ofList]
  exact ⟨by simpa using hne, not_mem_of_mem_splitOn (List.mem_of_getElem? hpart)⟩

/-- A record has the parts that it was put together of. -/
theorem Partial.record?_eq_some_iff {p : Partial} {r : Record} :
    p.record? = some r ↔ p = ⟨some r.file, some r.line, some r.side⟩ := by
  obtain ⟨file, line, side⟩ := p
  obtain ⟨file', line', side'⟩ := r
  cases file <;> cases line <;> cases side <;> simp [Partial.record?]

/-- A token gives its record back exactly if the file of the record is not empty and holds no
colon. -/
theorem Record.record?_ofToken_eq_some_iff (r : Record) :
    (Partial.ofToken r.token).record? = some r ↔ r.file ≠ "" ∧ ':' ∉ r.file.toList := by
  rw [Partial.record?_eq_some_iff]
  constructor
  · intro h
    rw [Partial.ofToken] at h
    exact Partial.file_ofPlain (congrArg Partial.file h)
  · rintro ⟨hne, hcolon⟩
    exact ofToken_token hne hcolon

/-- A colon in the file name takes the place of the one that ends it. -/
example : (Partial.ofToken (Record.token ⟨"a:7", 3, .client⟩)).record? = none := by
  decide +kernel

/-! ### What tokens are made of -/

namespace Record

/-- The characters of a token are signs of ASCII above the blank. -/
theorem toNat_of_mem_token {r : Record} {c : Char} (h : c ∈ r.token.toList) :
    0x21 ≤ c.toNat ∧ c.toNat < 0x7F :=
  Percent.toNat_of_mem_encode (toList_token r ▸ h)

/-- A token can be the value of a header field. -/
theorem headerValue?_token (r : Record) : Http.headerValue? r.token = some r.token := by
  refine if_pos (List.all_eq_true.mpr fun c hc => ?_)
  have hbounds := toNat_of_mem_token hc
  simp only [Http.isValueChar, Bool.or_eq_true, Bool.and_eq_true, decide_eq_true_eq, bne_iff_ne]
  omega

/-- Different records have different tokens. -/
theorem token_injective : Function.Injective token := by
  intro r r' h
  have htext := congrArg String.toList h
  rw [toList_token, toList_token] at htext
  exact plain_injective (Percent.encode_injective htext)

/-- A separator of paths, queries, lists and records does not occur in a token. -/
theorem separator_not_mem_token (r : Record) {c : Char} (hc : c ∈ [',', '?', '&', '=', ':', '#']) :
    c ∉ r.token.toList := by
  have hseparators : [',', '?', '&', '=', ':', '#'].all
      (fun c => !Percent.isPlain c && c != '%') = true := by decide
  have hcoded := List.all_eq_true.mp hseparators c hc
  rw [Bool.and_eq_true, Bool.not_eq_true', bne_iff_ne] at hcoded
  rw [toList_token]
  exact Percent.not_mem_encode hcoded.1 hcoded.2 _

/-- Whatever the file of a record is, its token is coded text, holds no separator of paths, queries,
lists and records and no blank, can be the value of a header field, and is the token of no other
record. -/
theorem token_safe (r r' : Record) :
    Percent.Coded r.token.toList ∧
      (∀ c ∈ [',', '?', '&', '=', ':', '#'], c ∉ r.token.toList) ∧
      (∀ c ∈ r.token.toList, isBlank c = false) ∧
      Http.headerValue? r.token = some r.token ∧
      (r.token = r'.token ↔ r = r') := by
  refine ⟨?_, fun c hc => r.separator_not_mem_token hc, fun c hc => ?_, r.headerValue?_token,
    token_injective.eq_iff⟩
  · rw [toList_token]
    exact Percent.coded_encode _
  · exact isBlank_of_ascii (toNat_of_mem_token hc)

/-- A file name that goes on like a line and a side has a token of its own. -/
theorem token_safe_posing :
    (∀ c ∈ (token ⟨"a, b:1:server", 2, .client⟩).toList, isBlank c = false) ∧
      token ⟨"a, b:1:server", 2, .client⟩ ≠ token ⟨"a, b", 1, .server⟩ := by
  obtain ⟨-, -, hblank, -, hsame⟩ :=
    token_safe ⟨"a, b:1:server", 2, .client⟩ ⟨"a, b", 1, .server⟩
  exact ⟨hblank, mt hsame.mp (by decide)⟩

end Record

end Crossing.Boundary
