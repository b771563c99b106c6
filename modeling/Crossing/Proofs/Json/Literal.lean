import Crossing.Json.Reader
import Crossing.Json.Writer
import Crossing.Proofs.Text.Decimal
import Crossing.Text.Quoted

/-!
# Object literals are read as they were written

A reader of object literals (`literal?`), which takes keys without quotes and is else that of
JSON. What is written into a literal is read back whatever follows it: the characters of a string
one by one (`stringBody_escape`), so that a string ends at its own quote (`value?_quote`), and the
digits of a number up to the first other character (`value?_ofNat`). So a literal that is put
together from fields has these fields and ends at its own brace (`literal?_slotsText`).
-/

namespace Crossing.Json

open Text

/-! ## The reader -/

/-- The key that a text starts with, a string or a bare name, and the rest. -/
def key? : List Char → Option (List Char × List Char)
  | '"' :: rest => do
    let (text, rest) ← stringBody none rest
    return (← text, rest)
  | s =>
    let name := s.takeWhile Quoted.isNameChar
    if Quoted.isPlainName name then some (name, s.dropWhile Quoted.isNameChar) else none

mutual

/-- An object literal or another value, and the rest. `fuel` bounds the steps. -/
def member? : (fuel : Nat) → List Char → Option (Json × List Char)
  | 0, _ => none
  | fuel + 1, s =>
    match skipBlanks s with
    | '{' :: rest =>
      match skipBlanks rest with
      | '}' :: rest => some (.object [], rest)
      | _ => (slots? fuel rest).map fun (fields, rest) => (.object fields, rest)
    | rest => value? (fuel + 1) maxDepth rest

/-- The fields of an object literal up to its closing brace, and the rest. -/
def slots? : (fuel : Nat) → List Char → Option (List (String × Json) × List Char)
  | 0, _ => none
  | fuel + 1, s => do
    let (key, rest) ← key? (skipBlanks s)
    match skipBlanks rest with
    | ':' :: rest =>
      let (item, rest) ← member? fuel rest
      match skipBlanks rest with
      | ',' :: rest =>
        let (fields, rest) ← slots? fuel rest
        return ((.ofList key, item) :: fields, rest)
      | '}' :: rest => return ([(.ofList key, item)], rest)
      | _ => none
    | _ => none

end

/-- The object literal that a text starts with, and the rest. Every step reads a character, so the
length of the text is fuel enough. -/
def literal? (s : List Char) : Option (Json × List Char) :=
  match skipBlanks s with
  | '{' :: rest => member? (s.length + 1) ('{' :: rest)
  | _ => none

/-! ## Strings -/

/-- The digits of a control character name it. -/
theorem codeUnit?_control {n : Nat} (h : n < 0x20) :
    codeUnit? '0' '0' (hexDigit (n / 16)) (hexDigit (n % 16)) = some n := by
  revert n
  decide

/-- What is written for a character in a string is read as this character. -/
theorem stringBody_escape (c : Char) (rest : List Char) :
    stringBody none (escape c ++ rest) =
      (stringBody none rest).map fun (text, rest) => (text.map (c :: ·), rest) := by
  have hbind : (stringBody none rest).map (fun (text, rest) => (text.map (c :: ·), rest)) =
      (stringBody none rest).bind fun (text, rest) => some (text.map (c :: ·), rest) := by
    cases stringBody none rest <;> rfl
  rw [hbind]
  unfold escape
  split
  -- The last case is that of a sign without a name for its escape: a control character or itself.
  case h_8 hquote hslash _ _ _ _ _ =>
    split
    · next hcontrol =>
      have hunit := codeUnit?_control hcontrol
      -- A control character is no half of a pair, so it is read by itself.
      have hplain : ¬ (0xD800 ≤ c.toNat ∧ c.toNat ≤ 0xDBFF) := by omega
      have hlow : ¬ (0xDC00 ≤ c.toNat ∧ c.toNat ≤ 0xDFFF) := by omega
      simp only [List.cons_append, List.nil_append, stringBody, hunit, Option.bind_eq_bind,
        Option.bind_some, hplain, hlow, if_false, Char.ofNat_toNat]
      rfl
    · next hvisible =>
      have hplain : ¬ (c.toNat < 0x20 ∨ c = '\\') := not_or.mpr ⟨hvisible, hslash⟩
      rw [List.singleton_append, stringBody, if_neg hplain]
      · rfl
      · exact hquote
      · exact fun _ _ _ _ _ hc _ => hslash hc
      · exact fun _ _ hc _ => hslash hc
  all_goals rfl

/-- A string ends at the quote behind it, whatever it holds. -/
theorem stringBody_quote (s rest : List Char) :
    stringBody none (s.flatMap escape ++ '"' :: rest) = some (some s, rest) := by
  induction s with
  | nil => rfl
  | cons c s ih =>
    rw [List.flatMap_cons, List.append_assoc, stringBody_escape, ih]
    rfl

/-- A string literal is read as its text. -/
theorem value?_quote (fuel depth : Nat) (text : String) (rest : List Char) :
    value? (fuel + 1) depth ((quote text).toList ++ rest) = some (.string text, rest) := by
  have hquoted : (quote text).toList ++ rest =
      '"' :: (text.toList.flatMap escape ++ '"' :: rest) := by simp [quote]
  have hskip (s : List Char) : skipBlanks ('"' :: s) = '"' :: s := rfl
  rw [hquoted, value?, hskip]
  simp only [stringBody_quote, Option.bind_eq_bind, Option.bind_some, String.ofList_toList]
  rfl

/-! ## Numbers -/

/-- Whether no number goes on with a text. -/
def EndsNumber (rest : List Char) : Prop :=
  ∀ c, rest.head? = some c → c.isDigit = false ∧ c ∉ ['.', 'e', 'E']

/-- No number goes on with a sign that is none of a number. -/
theorem endsNumber_cons {c : Char} {rest : List Char}
    (hc : c.isDigit = false ∧ c ∉ ['.', 'e', 'E']) : EndsNumber (c :: rest) := by
  intro d hd
  rwa [← Option.some.inj hd]

/-- A written number starts with a digit. -/
theorem exists_digit (n : Nat) : ∃ d ds, Decimal.ofNat n = d :: ds ∧ d.isDigit = true := by
  obtain ⟨d, ds, hds⟩ := List.exists_cons_of_ne_nil (Decimal.ofNat_spec n).1
  exact ⟨d, ds, hds, Decimal.isDigit_of_mem_ofNat (hds ▸ List.mem_cons_self)⟩

/-- A written number starts with no other sign. -/
theorem ofNat_append_ne (n : Nat) {c : Char} (hc : c.isDigit = false) (rest s : List Char) :
    Decimal.ofNat n ++ rest ≠ c :: s := by
  obtain ⟨d, ds, hds, hd⟩ := exists_digit n
  rw [hds]
  intro heq
  rw [(List.cons.inj heq).1, hc] at hd
  contradiction

/-- No blanks stand in front of a written number. -/
theorem skipBlanks_ofNat (n : Nat) (rest : List Char) :
    skipBlanks (Decimal.ofNat n ++ rest) = Decimal.ofNat n ++ rest := by
  obtain ⟨d, ds, hds, hd⟩ := exists_digit n
  rw [hds, List.cons_append, skipBlanks, List.dropWhile_cons_of_neg]
  intro hblank
  rcases of_decide_eq_true hblank with rfl | rfl | rfl | rfl <;> exact absurd hd (by decide)

/-- Digits end where no number goes on. -/
theorem digits?_append {ds rest : List Char} (hne : ds ≠ []) (hds : ∀ c ∈ ds, c.isDigit = true)
    (hrest : EndsNumber rest) : digits? (ds ++ rest) = some (ds, rest) := by
  have hstop : rest.takeWhile Char.isDigit = [] ∧ rest.dropWhile Char.isDigit = rest := by
    cases rest with
    | nil => exact ⟨rfl, rfl⟩
    | cons c rest => simp [(hrest c rfl).1]
  have hnil : ds.isEmpty = false := by simpa using hne
  rw [digits?, List.takeWhile_append_of_pos hds, List.dropWhile_append_of_pos hds, hstop.1, hstop.2,
    List.append_nil]
  simp only [hnil, Bool.false_eq_true, if_false]

/-- A written number is an integer part, as it has no zero in front. -/
theorem integerPart?_ofNat (n : Nat) {rest : List Char} (hrest : EndsNumber rest) :
    integerPart? (Decimal.ofNat n ++ rest) = some (Decimal.ofNat n, rest) := by
  rcases Decimal.ofNat_eq_or n with hzero | hhead
  · rw [hzero]
    rfl
  · have hdigits :=
      digits?_append (Decimal.ofNat_spec n).1 (fun _ => Decimal.isDigit_of_mem_ofNat) hrest
    obtain ⟨d, ds, hds, -⟩ := exists_digit n
    rw [hds] at hhead hdigits ⊢
    have hfirst : d ≠ '0' := by simpa using hhead
    rw [List.cons_append] at hdigits ⊢
    rw [integerPart?, hdigits]
    exact fun tail htail => hfirst (List.cons.inj htail).1

/-- The digits of a number are read up to where no number goes on. -/
theorem number?_ofNat (n : Nat) {rest : List Char} (hrest : EndsNumber rest) :
    number? (Decimal.ofNat n ++ rest) = some (Decimal.ofNat n, rest) := by
  -- Neither a fraction nor an exponent follows, and no sign stands in front.
  have hfraction : fraction? rest = some ([], rest) := by
    rw [fraction?]
    rintro tail rfl
    exact (hrest '.' rfl).2 (by decide)
  have hexponent : exponent? rest = some ([], rest) := by
    cases rest with
    | nil => rfl
    | cons c rest =>
      have hc := (hrest c rfl).2
      simp only [List.mem_cons, List.not_mem_nil, or_false, not_or] at hc
      simp only [exponent?, not_or.mpr hc.2, if_false]
  unfold number?
  split
  next sign s hsigned =>
    split at hsigned
    · exact absurd ‹_› (ofNat_append_ne n (by decide) rest _)
    · cases hsigned
      simp only [Option.bind_eq_bind, Option.bind_some, integerPart?_ofNat n hrest, hfraction,
        hexponent, List.nil_append, List.append_nil]
      rfl

/-- A written number is read as its digits. -/
theorem value?_ofNat (fuel depth n : Nat) {rest : List Char} (hrest : EndsNumber rest) :
    value? (fuel + 1) depth (Decimal.ofNat n ++ rest) = some (.number (Decimal.ofNat n), rest) := by
  rw [value?, skipBlanks_ofNat]
  split
  case h_7 =>
    rw [number?_ofNat n hrest]
    rfl
  all_goals exact absurd ‹_› (ofNat_append_ne n (by decide) rest _)

/-- Reading digits goes on from what was read before. -/
theorem foldl_of_digitsFrom? {s : List Char} {acc n : Nat}
    (h : Decimal.digitsFrom? acc s = some n) :
    s.foldl (fun n c => n * 10 + (c.toNat - 0x30)) acc = n := by
  induction s generalizing acc with
  | nil => exact Option.some.inj h
  | cons c s ih =>
    rw [Decimal.digitsFrom?] at h
    split at h
    · exact ih h
    · contradiction

/-- A written number is one below every bound that it is below. -/
theorem natBelow?_ofNat {n bound : Nat} (h : n < bound) :
    (number (Decimal.ofNat n)).natBelow? bound = some n := by
  have hdigits : (Decimal.ofNat n).all Char.isDigit = true :=
    List.all_eq_true.mpr fun _ => Decimal.isDigit_of_mem_ofNat
  have hvalue := foldl_of_digitsFrom? (Decimal.digitsFrom?_prepend n [])
  rw [← Decimal.ofNat] at hvalue
  simp only [natBelow?, hdigits, if_true, hvalue, h]

/-! ## Keys -/

variable {name : List Char}

/-- A plain name starts with a sign that no blank, string or literal starts with, and all its signs
are those of names. -/
theorem exists_of_isPlainName (hname : Quoted.isPlainName name = true) :
    ∃ c rest, name = c :: rest ∧ c ∉ [' ', '\t', '\n', '\r', '"', '{', '}'] ∧
      ∀ d ∈ name, Quoted.isNameChar d = true := by
  cases name with
  | nil => contradiction
  | cons c rest =>
    have hall := List.all_eq_true.mp (Bool.and_eq_true_iff.mp hname).2
    have hsigns : [' ', '\t', '\n', '\r', '"', '{', '}'].any Quoted.isNameChar = false := by
      decide +kernel
    refine ⟨c, rest, rfl, fun hc => ?_, hall⟩
    exact List.any_eq_false.mp hsigns c hc (hall c List.mem_cons_self)

/-- A bare key ends at the colon behind it. -/
theorem key?_bare (hname : Quoted.isPlainName name = true) (rest : List Char) :
    key? (name ++ ':' :: rest) = some (name, ':' :: rest) := by
  have hcolon : Quoted.isNameChar ':' = false := by decide +kernel
  obtain ⟨c, cs, hcons, hc, hall⟩ := exists_of_isPlainName hname
  rw [key?]
  · simp only [List.takeWhile_append_of_pos hall, List.dropWhile_append_of_pos hall, hcolon,
      List.takeWhile_cons, List.dropWhile_cons, Bool.false_eq_true, if_false, List.append_nil,
      hname, if_true]
  · intro tail htail
    rw [hcons] at htail
    exact hc (by simp [(List.cons.inj htail).1])

/-- A blank in front of a bare key is skipped, and nothing of the key is. -/
theorem skipBlanks_bare (hname : Quoted.isPlainName name = true) (rest : List Char) :
    skipBlanks (' ' :: (name ++ rest)) = name ++ rest := by
  obtain ⟨c, cs, rfl, hc, -⟩ := exists_of_isPlainName hname
  have hblank : skipBlanks (' ' :: (c :: cs ++ rest)) = skipBlanks (c :: (cs ++ rest)) := rfl
  rw [hblank, List.cons_append, skipBlanks, List.dropWhile_cons_of_neg]
  intro hblank
  rcases of_decide_eq_true hblank with rfl | rfl | rfl | rfl <;> exact hc (by decide)

/-! ## Fields -/

/-- A string behind a blank is a value. -/
theorem member?_quote (fuel : Nat) (text : String) (rest : List Char) :
    member? (fuel + 1) (' ' :: ((quote text).toList ++ rest)) = some (.string text, rest) := by
  have hread := value?_quote fuel maxDepth text rest
  have hquoted : (quote text).toList ++ rest =
      '"' :: (text.toList.flatMap escape ++ '"' :: rest) := by simp [quote]
  rw [hquoted] at hread ⊢
  have hskip (s : List Char) : skipBlanks (' ' :: '"' :: s) = '"' :: s := rfl
  rw [member?, hskip]
  exact hread

/-- A number behind a blank is a value. -/
theorem member?_ofNat (fuel n : Nat) {rest : List Char} (hrest : EndsNumber rest) :
    member? (fuel + 1) (' ' :: (Decimal.ofNat n ++ rest)) =
      some (.number (Decimal.ofNat n), rest) := by
  have hskip : skipBlanks (' ' :: (Decimal.ofNat n ++ rest)) = Decimal.ofNat n ++ rest :=
    skipBlanks_ofNat n rest
  rw [member?, hskip]
  split
  · exact absurd ‹_› (ofNat_append_ne n (by decide) rest _)
  · exact value?_ofNat fuel maxDepth n hrest

/-- A field of an object literal: its name, the text of its value and what this is read as. -/
structure Field where
  name : List Char
  text : List Char
  value : Json
  /-- The name needs no quotes. -/
  isPlain : Quoted.isPlainName name = true
  /-- The value ends where its text does. -/
  isRead : ∀ fuel rest, EndsNumber rest →
    member? (fuel + 1) (' ' :: (text ++ rest)) = some (value, rest)

namespace Field

/-- A field that holds a string. -/
def ofString (name : List Char) (h : Quoted.isPlainName name = true) (text : String) : Field where
  name
  text := (quote text).toList
  value := .string text
  isPlain := h
  isRead := fun fuel rest _ => member?_quote fuel text rest

/-- A field that holds a number. -/
def ofNat (name : List Char) (h : Quoted.isPlainName name = true) (n : Nat) : Field where
  name
  text := Decimal.ofNat n
  value := .number (Decimal.ofNat n)
  isPlain := h
  isRead := fun fuel _ => member?_ofNat fuel n

/-- The text of a field, behind a blank. -/
def slot (f : Field) : List Char :=
  ' ' :: (f.name ++ ':' :: ' ' :: f.text)

/-- What a field is read as. -/
def entry (f : Field) : String × Json :=
  (.ofList f.name, f.value)

end Field

/-- What stands behind the opening brace of an object literal with fields. -/
def slotsText (f : Field) : List Field → List Char
  | [] => f.slot ++ [' ', '}']
  | g :: fields => f.slot ++ ',' :: slotsText g fields

/-- The text of a field is read as the field, and what follows it says how the literal goes on. -/
theorem slots?_slot (fuel : Nat) (f : Field) {rest : List Char} (hrest : EndsNumber rest) :
    slots? (fuel + 2) (f.slot ++ rest) =
      match skipBlanks rest with
      | ',' :: rest => (slots? (fuel + 1) rest).map fun (fields, rest) => (f.entry :: fields, rest)
      | '}' :: rest => some ([f.entry], rest)
      | _ => none := by
  have hslot : f.slot ++ rest = ' ' :: (f.name ++ ':' :: ' ' :: (f.text ++ rest)) := by
    simp [Field.slot]
  have hcolon (s : List Char) : skipBlanks (':' :: s) = ':' :: s := rfl
  rw [hslot, slots?, skipBlanks_bare f.isPlain, key?_bare f.isPlain]
  simp only [Option.bind_eq_bind, Option.bind_some, hcolon, f.isRead fuel rest hrest]
  split
  · next tail _ => cases slots? (fuel + 1) tail <;> rfl
  · rfl
  · rfl

/-- All fields are read, and the literal ends at its brace. -/
theorem slots?_slotsText (f : Field) (fields : List Field) (fuel : Nat) (rest : List Char) :
    slots? (fuel + fields.length + 2) (slotsText f fields ++ rest) =
      some ((f :: fields).map Field.entry, rest) := by
  -- The induction is on the fields behind the first one. Each takes one step of the fuel.
  induction fields generalizing f with
  | nil =>
    have hends : EndsNumber (' ' :: '}' :: rest) := endsNumber_cons (by decide)
    rw [slotsText, List.append_assoc]
    exact slots?_slot fuel f hends
  | cons g fields ih =>
    have hends : EndsNumber (',' :: (slotsText g fields ++ rest)) := endsNumber_cons (by decide)
    rw [slotsText, List.append_assoc, List.cons_append]
    calc slots? (fuel + fields.length + 1 + 2) (f.slot ++ ',' :: (slotsText g fields ++ rest))
        = (slots? (fuel + fields.length + 2) (slotsText g fields ++ rest)).map
            fun (fields, rest) => (f.entry :: fields, rest) := slots?_slot _ f hends
      _ = some ((f :: g :: fields).map Field.entry, rest) := by
        rw [ih g]
        rfl

/-- Every field takes characters. -/
theorem length_lt_slotsText (f : Field) (fields : List Field) :
    fields.length + 1 < (slotsText f fields).length := by
  induction fields generalizing f with
  | nil =>
    simp only [slotsText, Field.slot, List.length_append, List.length_cons, List.length_nil]
    omega
  | cons g fields ih =>
    have hrest := ih g
    simp only [slotsText, List.length_append, List.length_cons]
    omega

/-- The name of the first field is the first thing that is read of an object literal. -/
theorem skipBlanks_slotsText (f : Field) (fields : List Field) (rest : List Char) :
    ∃ tail, skipBlanks (slotsText f fields ++ rest) = f.name ++ tail := by
  obtain ⟨behind, hbehind⟩ : ∃ behind, slotsText f fields = f.slot ++ behind := by
    cases fields <;> exact ⟨_, rfl⟩
  refine ⟨':' :: ' ' :: f.text ++ behind ++ rest, ?_⟩
  rw [← skipBlanks_bare f.isPlain, hbehind]
  simp [Field.slot]

/-- Braces with fields between them are one literal with these fields, whatever follows. -/
theorem literal?_slotsText (f : Field) (fields : List Field) (rest : List Char) :
    literal? ('{' :: (slotsText f fields ++ rest)) =
      some (.object ((f :: fields).map Field.entry), rest) := by
  have hopen (s : List Char) : skipBlanks ('{' :: s) = '{' :: s := rfl
  -- The length of the text is fuel enough for the fields.
  have hlength := length_lt_slotsText f fields
  obtain ⟨fuel, hfuel⟩ : ∃ fuel,
      (slotsText f fields ++ rest).length + 1 = fuel + fields.length + 2 := by
    rw [List.length_append]
    exact ⟨(slotsText f fields).length - fields.length - 1 + rest.length, by omega⟩
  have hfields := slots?_slotsText f fields fuel rest
  rw [← hfuel] at hfields
  obtain ⟨tail, htail⟩ := skipBlanks_slotsText f fields rest
  obtain ⟨c, cs, hname, hc, -⟩ := exists_of_isPlainName f.isPlain
  rw [literal?, hopen]
  simp only [List.length_cons]
  rw [member?, hopen]
  simp only [htail]
  split
  · next hclose =>
    rw [hname] at hclose
    exact absurd (by simp [(List.cons.inj hclose).1]) hc
  · rw [hfields]
    rfl

end Crossing.Json
