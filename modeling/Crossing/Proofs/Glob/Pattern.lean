import Crossing.Glob.Pattern
import Mathlib.Tactic.SplitIfs

/-!
# Reading patterns that go on

A pattern that does not end in a slash can be read with `/**` behind it if it can be read by itself.
It then has one more token at its end, unless it is `**` or ends in it (`parse_below`). The reader
goes step by step, and only a step at the last `**` sees that there is more behind
(`step_append`). A text without special signs is read as its characters (`parse_plain`).
-/

namespace Crossing.Glob

/-- A class is read the same with more text behind it. -/
theorem readClass_append {ranges : List (Char × Char)} {first hyphen : Bool} {s : List Char}
    {r : List (Char × Char)} {rest : List Char} (more : List Char)
    (h : readClass ranges first hyphen s = .ok (r, rest)) :
    readClass ranges first hyphen (s ++ more) = .ok (r, rest ++ more) ∧ rest <:+ s := by
  induction s generalizing ranges first hyphen with
  | nil => cases h
  | cons c s ih =>
    have further {ranges first hyphen} (h : readClass ranges first hyphen s = .ok (r, rest)) :
        readClass ranges first hyphen (s ++ more) = .ok (r, rest ++ more) ∧ rest <:+ c :: s :=
      (ih h).imp_right fun hrest => hrest.trans (List.suffix_cons c s)
    rw [List.cons_append]
    unfold readClass at h ⊢
    split at h
    · next hclose =>
      cases h
      rw [if_pos hclose]
      exact ⟨rfl, List.suffix_cons c _⟩
    · next hclose =>
      rw [if_neg hclose]
      split at h
      · next hhyphen =>
        rw [if_pos hhyphen]
        exact further h
      · next hhyphen =>
        rw [if_neg hhyphen]
        split at h
        · split at h
          · cases h
          · next hrange =>
            rw [if_neg hrange]
            exact further h
        · exact further h

/-- The step of the reader at a star behind the character `before`. -/
def starStep (before : Option Char) (p : Progress) :
    List Char → Option Char × Progress × List Char
  | '*' :: rest =>
    let (p, left) := p.doubleStar before rest
    (if left.length < rest.length then some '/' else some '*', p, left)
  | rest => (some '*', p.push .run, rest)

/-- A star that no other one follows is a run. -/
theorem starStep_of_ne {before : Option Char} {p : Progress} {rest : List Char}
    (h : ∀ s, rest ≠ '*' :: s) : starStep before p rest = (some '*', p.push .run, rest) := by
  unfold starStep
  split
  · exact absurd rfl (h _)
  · rfl

/-- The step of the reader behind the character `before`: the character that the next one stands
behind, what has been read, and the text after it. -/
def step (before : Option Char) (p : Progress) (c : Char) (rest : List Char) :
    Except PatternError (Option Char × Progress × List Char) :=
  match c with
  | '?' => .ok (some c, p.push .any, rest)
  | '*' => .ok (starStep before p rest)
  | '[' => (takeClass rest).map fun (t, rest) => (some ']', p.push t, rest)
  | '{' => .ok (some c, p.opened, rest)
  | '}' => p.close.map fun p => (some c, p, rest)
  | ',' => .ok (some c, p.comma, rest)
  | '\\' =>
    match rest with
    | e :: rest => .ok (some e, p.push (.literal e), rest)
    | [] => .error .danglingEscape
  | c => .ok (some c, p.push (.literal c), rest)

/-- A character that is no sign stands for itself. -/
theorem step_literal {c : Char} (before : Option Char) (p : Progress) (rest : List Char)
    (hany : c ≠ '?') (hstar : c ≠ '*') (hclass : c ≠ '[') (hopen : c ≠ '{') (hclose : c ≠ '}')
    (hcomma : c ≠ ',') (hescape : c ≠ '\\') :
    step before p c rest = .ok (some c, p.push (.literal c), rest) := by
  unfold step
  split <;> first | contradiction | rfl

/-- Reading is step after step. -/
theorem readFrom_cons (fuel : Nat) (before : Option Char) (p : Progress) (c : Char)
    (rest : List Char) :
    readFrom (fuel + 1) before p (c :: rest) =
      step before p c rest >>= fun (before, p, rest) => readFrom fuel before p rest := by
  conv => lhs; unfold readFrom
  split
  · rfl
  · change _ = readFrom fuel (starStep before p rest).1 (starStep before p rest).2.1
      (starStep before p rest).2.2
    split
    · rfl
    · next hstar => rw [starStep_of_ne hstar]
  · unfold step
    cases takeClass rest <;> rfl
  · rfl
  · unfold step
    cases p.close <;> rfl
  · rfl
  · unfold step
    split <;> rfl
  · next hany hstar hclass hopen hclose hcomma hescape =>
    rw [step_literal before p rest hany hstar hclass hopen hclose hcomma hescape]
    rfl

/-- `**/` stands at the start of a pattern only. -/
def Progress.LeadsFirst (p : Progress) : Prop :=
  .leading ∉ p.outer.dropLast

/-- What has been read can be gone on with the text `s`: it is not `**/` alone, unless there is more
to come. -/
structure Open (p : Progress) (s : List Char) : Prop where
  first : p.LeadsFirst
  begun : p.inner = [] → p.outer = [.leading] → s ≠ []

/-- What has been read can be gone on with if it has other current tokens, of which only the first
may be the leading sign. -/
theorem Progress.LeadsFirst.withCurrent {p : Progress} {s : List Char} {ts : List Token}
    (h : p.LeadsFirst)
    (hts : p.inner = [] → .leading ∉ ts.dropLast ∧ (ts = [.leading] → s ≠ [])) :
    Open (p.withCurrent ts) s := by
  obtain ⟨_ | ⟨g, inner⟩, outer⟩ := p
  · exact ⟨(hts rfl).1, fun _ => (hts rfl).2⟩
  · exact ⟨h, fun hnil => absurd hnil (List.cons_ne_nil _ _)⟩

/-- Outside of braces, only the first of the current tokens may be the leading sign. -/
theorem Progress.LeadsFirst.current {p : Progress} (h : p.LeadsFirst) (hp : p.inner = []) :
    .leading ∉ p.current.dropLast := by
  obtain ⟨_, _⟩ := p
  subst hp
  exact h

/-- What has been read can be gone on with after one token more. -/
theorem Progress.LeadsFirst.push {p : Progress} (h : p.LeadsFirst) (t : Token) (ht : t ≠ .leading)
    (s : List Char) : Open (p.push t) s := by
  refine h.withCurrent fun hp => ⟨?_, fun hts => absurd (List.cons.inj hts).1 ht⟩
  have hcurrent := h.current hp
  cases hc : p.current with
  | nil => exact List.not_mem_nil
  | cons u us =>
    rw [hc] at hcurrent
    rw [List.dropLast_cons_cons, List.mem_cons, not_or]
    exact ⟨ht.symm, hcurrent⟩

/-- A text that does not end in a slash has more behind one. -/
theorem ne_nil_of_getLast? {s : List Char} (h : ('/' :: s).getLast? ≠ some '/') : s ≠ [] := by
  rintro rfl
  exact h rfl

/-- The same with a token instead of the last one, which is a slash unless it stands for one. -/
def Progress.instead (t : Token) (p : Progress) : Progress :=
  match p.current with
  | .leading :: _ => p
  | .trailing :: _ => p
  | tokens => p.withCurrent (t :: tokens.tail)

/-- What has been read can be gone on with after another token in the place of the last one. -/
theorem Progress.LeadsFirst.instead {p : Progress} {s : List Char} (h : p.LeadsFirst) (t : Token)
    (ht : t ≠ .leading) (hs : s ≠ []) : Open (p.instead t) s := by
  unfold Progress.instead
  split
  · exact ⟨h, fun _ _ => hs⟩
  · exact ⟨h, fun _ _ => hs⟩
  · refine h.withCurrent fun hp => ⟨?_, fun hts => absurd (List.cons.inj hts).1 ht⟩
    have hcurrent := h.current hp
    rcases hc : p.current with _ | ⟨u, _ | ⟨v, vs⟩⟩
    · exact List.not_mem_nil
    · exact List.not_mem_nil
    · rw [hc, List.dropLast_cons_cons, List.mem_cons, not_or] at hcurrent
      rw [List.tail_cons, List.dropLast_cons_cons, List.mem_cons, not_or]
      exact ⟨ht.symm, hcurrent.2⟩

/-- Whether a `**` behind the character `before` is two stars that stand for themselves. -/
def Progress.Separate (before : Option Char) (p : Progress) : Prop :=
  before ≠ some '/' ∧ (p.inner.isEmpty ∨ (before ≠ some ',' ∧ before ≠ some '{'))

instance (before : Option Char) (p : Progress) : Decidable (p.Separate before) :=
  inferInstanceAs (Decidable (_ ∧ _))

/-- What two stars are at the end of a pattern. -/
theorem doubleStar_nil (before : Option Char) (p : Progress) :
    p.doubleStar before [] =
      if p.current.isEmpty then (p.push .leading, [])
      else if p.Separate before then ((p.push .run).push .run, [])
      else (p.instead .trailing, []) := rfl

/-- What two stars are in front of a character. -/
theorem doubleStar_cons (before : Option Char) (c : Char) (s : List Char) (p : Progress) :
    p.doubleStar before (c :: s) =
      if p.current.isEmpty then
        if c = '/' then (p.push .leading, s) else ((p.push .run).push .run, c :: s)
      else if p.Separate before then ((p.push .run).push .run, c :: s)
      else if c = '/' then (p.instead .between, s)
      else if (c = ',' ∨ c = '}') ∧ !p.inner.isEmpty then (p.instead .trailing, c :: s)
      else ((p.push .run).push .run, c :: s) := by
  by_cases hc : c = '/'
  · subst hc
    rfl
  · rw [if_neg hc, if_neg hc]
    unfold Progress.doubleStar
    simp only [hc, imp_false, not_false_eq_true, List.cons.injEq, false_and, implies_true]
    rfl

/-- A `**` that is not at the end of the text is read the same with more text behind. -/
theorem doubleStar_append (before : Option Char) {s : List Char} (hs : s ≠ []) (more : List Char)
    (p : Progress) :
    p.doubleStar before (s ++ more) =
      ((p.doubleStar before s).1, (p.doubleStar before s).2 ++ more) := by
  obtain ⟨c, s, rfl⟩ := List.exists_cons_of_ne_nil hs
  rw [List.cons_append, doubleStar_cons, doubleStar_cons]
  split_ifs <;> rfl

/-- What a `**` that is not at the end leaves of a text, and what has been read behind it. -/
theorem open_doubleStar (before : Option Char) {p : Progress} {s : List Char} (h : p.LeadsFirst)
    (hs : s ≠ []) (hend : s.getLast? ≠ some '/') :
    Open (p.doubleStar before s).1 (p.doubleStar before s).2 ∧ (p.doubleStar before s).2 <:+ s := by
  obtain ⟨c, s, rfl⟩ := List.exists_cons_of_ne_nil hs
  have hruns : Open ((p.push .run).push .run) (c :: s) :=
    (h.push .run nofun s).first.push .run nofun (c :: s)
  rw [doubleStar_cons]
  split_ifs with hnil hslash hsep hslash hgroup
  · subst hslash
    refine ⟨h.withCurrent fun hp => ⟨?_, fun _ => ne_nil_of_getLast? hend⟩, List.suffix_cons _ s⟩
    rw [List.isEmpty_iff.mp hnil]
    exact List.not_mem_nil
  · exact ⟨hruns, List.suffix_rfl⟩
  · exact ⟨hruns, List.suffix_rfl⟩
  · subst hslash
    exact ⟨h.instead .between nofun (ne_nil_of_getLast? hend), List.suffix_cons _ s⟩
  · exact ⟨h.instead .trailing nofun (List.cons_ne_nil c s), List.suffix_rfl⟩
  · exact ⟨hruns, List.suffix_rfl⟩

/-- A star that is not one of two at the end is read the same with more text behind. -/
theorem starStep_append (before : Option Char) {p : Progress} {rest more : List Char}
    (hmore : ∀ s, more ≠ '*' :: s) (hstar : rest ≠ ['*']) (h : p.LeadsFirst)
    (hend : rest.getLast? ≠ some '/') :
    starStep before p (rest ++ more) = ((starStep before p rest).1, (starStep before p rest).2.1,
      (starStep before p rest).2.2 ++ more) ∧
    Open (starStep before p rest).2.1 (starStep before p rest).2.2 ∧
    (starStep before p rest).2.2 <:+ rest := by
  by_cases hrest : ∃ s, rest = '*' :: s
  · obtain ⟨s, rfl⟩ := hrest
    have hs : s ≠ [] := by
      rintro rfl
      exact hstar rfl
    rw [List.getLast?_cons_of_ne_nil hs] at hend
    obtain ⟨hopen, hsuffix⟩ := open_doubleStar before h hs hend
    refine ⟨?_, hopen, hsuffix.trans (List.suffix_cons _ s)⟩
    simp only [starStep, List.cons_append, doubleStar_append before hs more, List.length_append,
      Nat.add_lt_add_iff_right]
  · have hne : ∀ s, rest ++ more ≠ '*' :: s := by
      intro s heq
      cases rest with
      | nil => exact hmore s heq
      | cons d rest => exact hrest ⟨rest, by rw [(List.cons.inj heq).1]⟩
    rw [starStep_of_ne hne, starStep_of_ne fun s hs => hrest ⟨s, hs⟩]
    exact ⟨rfl, h.push .run nofun rest, List.suffix_rfl⟩

/-- Whether a class is negated, and the text of its ranges. -/
def classBody (s : List Char) : Bool × List Char :=
  match s with
  | '!' :: rest => (true, rest)
  | '^' :: rest => (true, rest)
  | _ => (false, s)

/-- A class is read from its body on. -/
theorem takeClass_eq (s : List Char) :
    takeClass s = (readClass [] true false (classBody s).2).map fun (ranges, rest) =>
      (.class (classBody s).1 ranges, rest) := by
  change (readClass [] true false (classBody s).2 >>= _) = _
  cases readClass [] true false (classBody s).2 <;> rfl

/-- The body of a class does not depend on what follows the text. -/
theorem classBody_append {s : List Char} (hs : s ≠ []) (more : List Char) :
    classBody (s ++ more) = ((classBody s).1, (classBody s).2 ++ more) ∧ (classBody s).2 <:+ s := by
  obtain ⟨c, s, rfl⟩ := List.exists_cons_of_ne_nil hs
  by_cases hbang : c = '!'
  · subst hbang
    exact ⟨rfl, List.suffix_cons _ s⟩
  by_cases hcaret : c = '^'
  · subst hcaret
    exact ⟨rfl, List.suffix_cons _ s⟩
  have hplain (t : List Char) : classBody (c :: t) = (false, c :: t) := by
    unfold classBody
    split
    · next heq => exact absurd (List.cons.inj heq).1 hbang
    · next heq => exact absurd (List.cons.inj heq).1 hcaret
    · rfl
  rw [List.cons_append, hplain, hplain]
  exact ⟨rfl, List.suffix_rfl⟩

/-- A class is read in the same way if more text follows, and leaves it. -/
theorem takeClass_append {s rest : List Char} {t : Token} (more : List Char)
    (h : takeClass s = .ok (t, rest)) :
    takeClass (s ++ more) = .ok (t, rest ++ more) ∧ rest <:+ s ∧ t ≠ .leading := by
  rw [takeClass_eq] at h ⊢
  cases hclass : readClass [] true false (classBody s).2 with
  | error e =>
    rw [hclass] at h
    cases h
  | ok taken =>
    obtain ⟨ranges, left⟩ := taken
    rw [hclass] at h
    cases h
    have hs : s ≠ [] := by
      rintro rfl
      cases hclass
    obtain ⟨hbody, hsuffix⟩ := classBody_append hs more
    obtain ⟨hread, hleft⟩ := readClass_append more hclass
    rw [hbody, hread]
    exact ⟨rfl, hleft.trans hsuffix, nofun⟩

/-- What has been read can be gone on with after a comma. -/
theorem open_comma {p : Progress} (h : p.LeadsFirst) (s : List Char) : Open p.comma s := by
  unfold Progress.comma
  split
  · exact ⟨h, nofun⟩
  · exact h.push (.literal ',') nofun s

/-- What has been read can be gone on with after a closing brace. -/
theorem open_close {p p' : Progress} (h : p.LeadsFirst) (hclose : p.close = .ok p')
    (s : List Char) : Open p' s := by
  obtain ⟨_ | ⟨g, inner⟩, outer⟩ := p
  · cases hclose
  · cases hclose
    exact Progress.LeadsFirst.push (p := ⟨inner, outer⟩) h (.alternatives _) nofun s

/-- A step that does not end at a `**` is the same with more text behind. -/
theorem step_append {before b : Option Char} {p p' : Progress} {c : Char} {rest s more : List Char}
    (hmore : ∀ s, more ≠ '*' :: s) (hstar : c = '*' → rest ≠ ['*']) (hfirst : p.LeadsFirst)
    (hend : (c :: rest).getLast? ≠ some '/') (h : step before p c rest = .ok (b, p', s)) :
    step before p c (rest ++ more) = .ok (b, p', s ++ more) ∧ Open p' s ∧ s <:+ rest := by
  have hrest : rest.getLast? ≠ some '/' := by
    cases rest with
    | nil => nofun
    | cons d rest => exact hend
  unfold step at h ⊢
  split at h
  · cases h
    exact ⟨rfl, hfirst.push .any nofun _, List.suffix_rfl⟩
  · obtain ⟨hstep, hnext, hsuffix⟩ := starStep_append before hmore (hstar rfl) hfirst hrest
    rw [Except.ok.inj h] at hstep hnext hsuffix
    exact ⟨congrArg Except.ok hstep, hnext, hsuffix⟩
  · cases hclass : takeClass rest with
    | error e =>
      rw [hclass] at h
      cases h
    | ok taken =>
      obtain ⟨t, left⟩ := taken
      rw [hclass] at h
      cases h
      obtain ⟨hread, hsuffix, ht⟩ := takeClass_append more hclass
      rw [hread]
      exact ⟨rfl, hfirst.push t ht _, hsuffix⟩
  · cases h
    exact ⟨rfl, ⟨hfirst, nofun⟩, List.suffix_rfl⟩
  · cases hclose : p.close with
    | error e =>
      rw [hclose] at h
      cases h
    | ok q =>
      rw [hclose] at h
      cases h
      exact ⟨rfl, open_close hfirst hclose _, List.suffix_rfl⟩
  · cases h
    exact ⟨rfl, open_comma hfirst _, List.suffix_rfl⟩
  · split at h
    · cases h
      exact ⟨rfl, hfirst.push (.literal _) nofun _, List.suffix_cons _ _⟩
    · cases h
  · cases h
    exact ⟨rfl, hfirst.push (.literal _) nofun _, List.suffix_rfl⟩

/-- The tokens of a pattern with `/**` behind it. A pattern that is `**` or ends in it stays as it
is. -/
inductive Below (ts : List Token) : List Token → Prop where
  | more (h : ts ≠ [.leading]) : Below ts (ts ++ [.trailing])
  | all (h : ts = [.leading]) : Below ts ts
  | same (us : List Token) (h : ts = us ++ [.trailing]) : Below ts ts

/-- Literals behind `**/` have one more token with `/**` behind them. -/
theorem Below.plain {p : List Char} {us : List Token} (hp : p ≠ [])
    (h : Below (.leading :: p.map .literal) us) : us = .leading :: p.map .literal ++ [.trailing] := by
  cases h with
  | more => rfl
  | all heq => simp [hp] at heq
  | same ts heq =>
    have hlast : Token.trailing ∈ Token.leading :: p.map .literal := by
      rw [heq]
      simp
    simp at hlast

/-- Tokens are below the same ones with the trailing sign behind them. -/
theorem below_push {ts : List Token} (h : ts ≠ [.leading]) :
    Below ts.reverse (.trailing :: ts).reverse := by
  rw [List.reverse_cons]
  exact .more fun hts => h (List.reverse_eq_iff.mp hts)

/-- At the end of a pattern the reading is complete. -/
theorem readFrom_nil (fuel : Nat) (before : Option Char) (p : Progress) :
    readFrom fuel before p [] = .ok p := by
  cases fuel <;> rfl

/-- Reading `/**` outside of groups. -/
theorem readFrom_slash (fuel : Nat) (before : Option Char) (outer : List Token) :
    readFrom (fuel + 4) before ⟨[], outer⟩ "/**".toList = .ok ⟨[], .trailing :: outer⟩ := by
  cases fuel <;> rfl

/-- Other current tokens open and close no brace. -/
theorem inner_withCurrent {p : Progress} {ts : List Token} :
    (p.withCurrent ts).inner = [] ↔ p.inner = [] := by
  obtain ⟨_ | ⟨g, inner⟩, outer⟩ := p
  · exact Iff.rfl
  · exact ⟨nofun, nofun⟩

/-- Another last token opens and closes no brace. -/
theorem inner_instead {p : Progress} {t : Token} : (p.instead t).inner = [] ↔ p.inner = [] := by
  unfold Progress.instead
  split
  · exact Iff.rfl
  · exact Iff.rfl
  · exact inner_withCurrent

/-- Two stars at the end of a pattern leave nothing to read. -/
theorem snd_doubleStar_nil (before : Option Char) (p : Progress) :
    (p.doubleStar before []).2 = [] := by
  rw [doubleStar_nil]
  split_ifs <;> rfl

/-- Two stars at the end of a pattern open and close no brace. -/
theorem inner_doubleStar_nil {before : Option Char} {p : Progress} :
    (p.doubleStar before []).1.inner = [] ↔ p.inner = [] := by
  rw [doubleStar_nil]
  split_ifs
  · exact inner_withCurrent
  · exact inner_withCurrent.trans inner_withCurrent
  · exact inner_instead

/-- Outside of braces, another token takes the place of the last one, unless that is a leading or
trailing sign. -/
theorem instead_cons {t u : Token} (ht : t ≠ .leading) (ht' : t ≠ .trailing) (ts : List Token) :
    Progress.instead u ⟨[], t :: ts⟩ = ⟨[], u :: ts⟩ := by
  cases t <;> first | contradiction | rfl

/-- A `**` at the end, read with `/**` behind it. -/
theorem readFrom_doubleStar (fuel : Nat) (before : Option Char) {outer : List Token}
    (h : Progress.LeadsFirst ⟨[], outer⟩) :
    ∃ us, readFrom (fuel + 6) before ⟨[], outer⟩ "**/**".toList = .ok ⟨[], us⟩ ∧
      Below (Progress.doubleStar before [] ⟨[], outer⟩).1.outer.reverse us.reverse := by
  cases outer with
  | nil => exact ⟨[.leading], rfl, .all rfl⟩
  | cons t ts =>
    have hread : readFrom (fuel + 6) before ⟨[], t :: ts⟩ "**/**".toList =
        let next := Progress.doubleStar before "/**".toList ⟨[], t :: ts⟩
        readFrom (fuel + 5) (if next.2.length < 3 then some '/' else some '*') next.1 next.2 := rfl
    have hnext : Progress.doubleStar before "/**".toList ⟨[], t :: ts⟩ =
        if Progress.Separate before ⟨[], t :: ts⟩ then (⟨[], .run :: .run :: t :: ts⟩, "/**".toList)
        else (Progress.instead .between ⟨[], t :: ts⟩, "**".toList) :=
      doubleStar_cons before '/' "**".toList ⟨[], t :: ts⟩
    have hlast : Progress.doubleStar before [] ⟨[], t :: ts⟩ =
        if Progress.Separate before ⟨[], t :: ts⟩ then (⟨[], .run :: .run :: t :: ts⟩, [])
        else (Progress.instead .trailing ⟨[], t :: ts⟩, []) := rfl
    rw [hread, hnext, hlast]
    split_ifs with hsep
    · exact ⟨_, readFrom_slash (fuel + 1) _ _, below_push nofun⟩
    · by_cases hleading : t = .leading
      · subst hleading
        cases ts with
        | cons u us => exact absurd List.mem_cons_self h
        | nil => exact ⟨[.leading], rfl, .all rfl⟩
      by_cases htrailing : t = .trailing
      · subst htrailing
        exact ⟨.trailing :: ts, rfl, .same ts.reverse List.reverse_cons⟩
      rw [instead_cons hleading htrailing, instead_cons hleading htrailing]
      exact ⟨.trailing :: ts, rfl, .same ts.reverse List.reverse_cons⟩

/-- A text ends as its suffixes do. -/
theorem getLast?_of_suffix {s t : List Char} {c : Char} (h : s <:+ t) (hs : s.getLast? = some c) :
    t.getLast? = some c := by
  obtain ⟨u, rfl⟩ := h
  rw [List.getLast?_append, hs]
  rfl

/-- A pattern that does not end in a slash is read with `/**` behind it if it is read by itself. -/
theorem readFrom_below {fuel : Nat} {before : Option Char} {p q : Progress} {s : List Char}
    (hfuel : s.length < fuel) (hopen : Open p s) (hend : s.getLast? ≠ some '/')
    (h : readFrom fuel before p s = .ok q) (hq : q.inner = []) :
    ∃ us, readFrom (fuel + 3) before p (s ++ "/**".toList) = .ok ⟨[], us⟩ ∧
      Below q.outer.reverse us.reverse := by
  induction fuel generalizing before p s with
  | zero => omega
  | succ fuel ih =>
    cases s with
    | nil =>
      cases h
      obtain ⟨inner, outer⟩ := q
      obtain rfl : inner = [] := hq
      exact ⟨_, readFrom_slash fuel before outer, below_push fun h => hopen.begun rfl h rfl⟩
    | cons c rest =>
      by_cases hstars : c = '*' ∧ rest = ['*']
      · obtain ⟨rfl, rfl⟩ := hstars
        obtain ⟨fuel, rfl⟩ : ∃ n, fuel = n + 2 := ⟨fuel - 2, by simp at hfuel; omega⟩
        have hlast : readFrom (fuel + 3) before p ['*', '*'] =
            readFrom (fuel + 2) (some '*') (p.doubleStar before []).1 (p.doubleStar before []).2 :=
          rfl
        rw [snd_doubleStar_nil, readFrom_nil] at hlast
        rw [hlast] at h
        cases h
        obtain ⟨inner, outer⟩ := p
        obtain rfl : inner = [] := inner_doubleStar_nil.mp hq
        exact readFrom_doubleStar fuel before hopen.first
      · rw [readFrom_cons] at h
        rw [List.cons_append, Nat.add_right_comm, readFrom_cons]
        cases hstep : step before p c rest with
        | error e =>
          rw [hstep] at h
          cases h
        | ok next =>
          obtain ⟨b, p', s'⟩ := next
          rw [hstep] at h
          have hmore : ∀ t, "/**".toList ≠ '*' :: t := fun t ht => by
            simp at ht
          obtain ⟨hlong, hopen', hsuffix⟩ :=
            step_append hmore (fun hc hrest => hstars ⟨hc, hrest⟩) hopen.first hend hstep
          rw [hlong]
          have hlength := hsuffix.length_le
          rw [List.length_cons] at hfuel
          refine ih (by omega) hopen' (fun hlast => hend ?_) h
          exact getLast?_of_suffix (hsuffix.trans (List.suffix_cons c rest)) hlast

/-- A pattern that does not end in a slash has, with `/**` behind it, the tokens that `Below`
says. -/
theorem parse_below {s : List Char} {ts : List Token} (hend : s.getLast? ≠ some '/')
    (h : parse s = .ok ts) : ∃ us, parse (s ++ "/**".toList) = .ok us ∧ Below ts us := by
  unfold parse at h ⊢
  rw [List.length_append, Nat.add_right_comm]
  cases hread : readFrom (s.length + 1) none ⟨[], []⟩ s with
  | error e =>
    rw [hread] at h
    cases h
  | ok q =>
    rw [hread] at h
    obtain ⟨_ | ⟨g, inner⟩, outer⟩ := q
    · cases h
      have hopen : Open ⟨[], []⟩ s := ⟨List.not_mem_nil, nofun⟩
      obtain ⟨us, hlong, hbelow⟩ := readFrom_below (Nat.lt_succ_self _) hopen hend hread rfl
      exact ⟨us.reverse, by rw [show "/**".toList.length = 3 from rfl, hlong]; rfl, hbelow⟩
    · cases h

/-- The characters that mean something in a pattern. -/
def signs : List Char := ['*', '?', '[', ']', '{', '}', '\\']

/-- A character that is no sign stands for itself. -/
theorem step_plain {c : Char} (hc : c ∉ signs) (before : Option Char) (outer : List Token)
    (rest : List Char) :
    step before ⟨[], outer⟩ c rest = .ok (some c, ⟨[], .literal c :: outer⟩, rest) := by
  unfold step
  split <;> first | exact absurd (by decide) hc | rfl

/-- A text without signs stands for itself. -/
theorem readFrom_plain {fuel : Nat} {s : List Char} (hfuel : s.length ≤ fuel)
    (hs : ∀ c ∈ s, c ∉ signs) (before : Option Char) (outer : List Token) :
    readFrom fuel before ⟨[], outer⟩ s = .ok ⟨[], (s.map .literal).reverse ++ outer⟩ := by
  induction s generalizing fuel before outer with
  | nil => exact readFrom_nil fuel before _
  | cons c s ih =>
    cases fuel with
    | zero => cases hfuel
    | succ fuel =>
      rw [readFrom_cons, step_plain (hs c List.mem_cons_self)]
      change readFrom fuel _ _ _ = _
      rw [ih (Nat.le_of_succ_le_succ hfuel) fun d hd => hs d (List.mem_cons_of_mem c hd)]
      simp

/-- A text without special signs is read as its characters. -/
theorem parse_plain {s : List Char} (hs : ∀ c ∈ s, c ∉ signs) :
    parse ("**/".toList ++ s) = .ok (.leading :: s.map .literal) := by
  have hread : readFrom (("**/".toList ++ s).length + 1) none ⟨[], []⟩ ("**/".toList ++ s) =
      readFrom (s.length + 3) (if s.length < s.length + 1 then some '/' else some '*')
        ⟨[], [.leading]⟩ s := rfl
  unfold parse
  rw [hread, readFrom_plain (by omega) hs]
  change Except.ok _ = _
  simp

end Crossing.Glob
