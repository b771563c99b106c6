import Crossing.Proofs.Call.Chain
import Crossing.Proofs.Script.Brackets
import Crossing.Script.Calls

/-!
# Callees that the splitter reads as the grammar does

The grammar knows what stands in brackets and strings, the splitter only counts. They agree on the
leaves that most callees are made of: names, numbers, keywords, operators, brackets, and strings
without escapes (`closes_of_tidy`). Any other leaf may stand in a callee as well, as long as the
splitter comes out of the link that it stands in where it went in (`Readable`). A callee is
`Legible` if the client comes first, with a dot behind it, and all that follows is readable. Then
the splitter finds the client, and behind it segments that start with something (`FromClient.stems`).
-/

namespace Crossing.Script

open Text Chain Crossing.Script.Tree

/-! ## Leaves -/

/-- Whether a leaf means the same to the splitter and to the grammar. -/
def Token.IsCounted : Token → Prop
  | (.trivia, s) => ∀ c ∈ s, isBlank c = true
  | (.keyword, _) | (.number, _) | (.undefined, _) => True
  | (.word, s) | (.property, s) | (.privateName, s) | (.shorthand, s) => '\\' ∉ s
  | (.string, s) => '\\' ∉ s ∧ '&' ∉ s
  | (.mark, s) => s ≠ ['\x60']
  | (.remark, _) | (.pattern, _) | (.text, _) => False

instance : DecidablePred Token.IsCounted
  | (.trivia, s) => inferInstanceAs (Decidable (∀ c ∈ s, isBlank c = true))
  | (.keyword, _) | (.number, _) | (.undefined, _) => isTrue trivial
  | (.word, s) | (.property, s) | (.privateName, s) | (.shorthand, s) =>
    inferInstanceAs (Decidable ('\\' ∉ s))
  | (.string, s) => inferInstanceAs (Decidable ('\\' ∉ s ∧ '&' ∉ s))
  | (.mark, s) => inferInstanceAs (Decidable (s ≠ ['\x60']))
  | (.remark, _) | (.pattern, _) | (.text, _) => isFalse id

/-- The text of leaves without blanks. -/
def visibleText (ts : List Token) : List Char :=
  visible (ts.flatMap Prod.snd)

/-- What is visible of tokens is what is visible of the first one and then of the others. -/
theorem visibleText_cons (t : Token) (ts : List Token) :
    visibleText (t :: ts) = visible t.2 ++ visibleText ts := by
  rw [visibleText, List.flatMap_cons, visible_append, visibleText]

/-- Whether a leaf is a dot between two parts of a callee. -/
def Token.IsDot (t : Token) : Prop :=
  t = (.mark, ".".toList) ∨ t = (.mark, "?.".toList)

instance : DecidablePred Token.IsDot := fun t =>
  inferInstanceAs (Decidable (t = (.mark, ".".toList) ∨ t = (.mark, "?.".toList)))

/-- Whether leaves start with a character that is neither a dot nor a marker in front of one. -/
def StartsSegment (ts : List Token) : Prop :=
  ∃ c ∈ (visibleText ts).head?, c ≠ '.' ∧ c ≠ '?' ∧ c ≠ '!'

instance : DecidablePred StartsSegment := fun ts =>
  inferInstanceAs (Decidable (∃ c ∈ (visibleText ts).head?, c ≠ '.' ∧ c ≠ '?' ∧ c ≠ '!'))

/-- Whether leaves mean the same to the splitter and to the grammar when some brackets are open.
Where none is, there is something behind each dot. -/
def Tidy : (depth : Nat) → List Token → Prop
  | _, [] => True
  | depth, t :: ts =>
    if t.opens then Tidy (depth + 1) ts
    else if t.closes then Tidy (depth - 1) ts
    else t.IsCounted ∧ (depth = 0 → t.1 ≠ .string → '.' ∈ t.2 → t.IsDot ∧ StartsSegment ts) ∧
      Tidy depth ts

/-- Whether leaves are tidy can be decided. -/
def decidableTidy : (depth : Nat) → (ts : List Token) → Decidable (Tidy depth ts)
  | _, [] => isTrue trivial
  | depth, t :: ts =>
    have := decidableTidy (depth + 1) ts
    have := decidableTidy (depth - 1) ts
    have := decidableTidy depth ts
    inferInstanceAs (Decidable (if t.opens then Tidy (depth + 1) ts
      else if t.closes then Tidy (depth - 1) ts
      else t.IsCounted ∧
        (depth = 0 → t.1 ≠ .string → '.' ∈ t.2 → t.IsDot ∧ StartsSegment ts) ∧ Tidy depth ts))

instance (depth : Nat) (ts : List Token) : Decidable (Tidy depth ts) := decidableTidy depth ts

/-- What opens, closes or quotes nothing to the grammar does not do so to the splitter. -/
theorem notMem_of_isPlain {s : List Char} (h : ∀ c ∈ s, isPlain c = true) :
    ∀ c ∈ visible s, c ∉ quotes ++ openers ++ closers := by
  have hsigns : (quotes ++ openers ++ closers).all (!isPlain ·) = true := by decide
  intro c hc hsign
  have hnot := List.all_eq_true.mp hsigns c hsign
  rw [h c (List.mem_filter.mp hc).1] at hnot
  contradiction

/-- A leaf that counts is a string, or opens, closes and quotes nothing. -/
theorem Token.IsCounted.cases {t : Token} (h : t.IsCounted) (hspelled : t.Spelled)
    (hopens : ¬ t.opens = true) (hcloses : ¬ t.closes = true) :
    (∃ quote ∈ quotes, ∃ body, visible t.2 = quote :: (body ++ [quote]) ∧ quote ∉ body ∧
      '\\' ∉ body) ∨
    t.1 ≠ .string ∧ ∀ c ∈ visible t.2, c ∉ quotes ++ openers ++ closers := by
  obtain ⟨kind, s⟩ := t
  cases kind with
  | trivia =>
    have hnone : visible s = [] := visible_eq_nil.mpr h
    exact .inr ⟨nofun, by simp [hnone]⟩
  | keyword | number => exact .inr ⟨nofun, notMem_of_isPlain hspelled⟩
  | undefined =>
    have hplain : "undefined".toList.all isPlain = true := by decide
    exact .inr ⟨nofun, notMem_of_isPlain (hspelled ▸ List.all_eq_true.mp hplain)⟩
  | word | property | privateName | shorthand =>
    exact .inr ⟨nofun, notMem_of_isPlain (hspelled.2.2 h)⟩
  | mark =>
    have hplain : ∀ c ∈ s, isPlain c = true := by
      rcases hspelled with hmark | hmark | hmark | hmark
      · exact absurd hmark hopens
      · exact absurd hmark hcloses
      · exact absurd hmark h
      · exact hmark
    exact .inr ⟨nofun, notMem_of_isPlain hplain⟩
  | string =>
    obtain ⟨quote, hquote, body, rfl, hbody⟩ := hspelled
    obtain ⟨hescape, hentity⟩ := h
    simp only [List.mem_cons, List.mem_append, List.not_mem_nil, or_false, not_or] at hescape hentity
    have hquotes : (['"', '\''].all fun q => quotes.contains q && !isBlank q) = true := by decide
    have hboth := List.all_eq_true.mp hquotes quote hquote
    rw [Bool.and_eq_true, List.contains_iff_mem, Bool.not_eq_true'] at hboth
    obtain ⟨hmem, hblank⟩ := hboth
    refine .inl ⟨quote, hmem, visible body, by simp [visible, hblank], ?_, ?_⟩
    · exact fun hin => hbody hescape.2.1 hentity.2.1 (List.mem_filter.mp hin).1
    · exact fun hin => hescape.2.1 (List.mem_filter.mp hin).1
  | remark | pattern | text => exact h.elim

/-- A leaf that counts leaves the splitter where it was. -/
theorem Token.IsCounted.after {t : Token} (h : t.IsCounted) (hspelled : t.Spelled)
    (hopens : ¬ t.opens = true) (hcloses : ¬ t.closes = true) (depth : Nat) :
    (Scan.code depth).after (visible t.2) = .code depth := by
  rcases h.cases hspelled hopens hcloses with ⟨quote, hmem, body, hs, hquote, hescape⟩ | ⟨-, hs⟩
  · rw [hs]
    exact (whole_string hmem hquote hescape depth).1
  · exact code_after hs depth

/-- No segment starts in a leaf that counts, unless a dot stands in it outside of brackets. -/
theorem Token.IsCounted.whole {t : Token} (h : t.IsCounted) (hspelled : t.Spelled)
    (hopens : ¬ t.opens = true) (hcloses : ¬ t.closes = true) {depth : Nat}
    (hdot : depth = 0 → t.1 ≠ .string → '.' ∉ t.2) :
    splitFrom (.code depth) (visible t.2) = [visible t.2] := by
  rcases h.cases hspelled hopens hcloses with ⟨quote, hmem, body, hs, hquote, hescape⟩ |
    ⟨hkind, hs⟩
  · rw [hs]
    exact (whole_string hmem hquote hescape depth).2
  · exact splitFrom_code hs fun hmem hdepth => hdot hdepth hkind (List.mem_filter.mp hmem).1

/-- A bracket that opens is one to the splitter. -/
theorem after_opens {t : Token} (h : t.opens = true) (depth : Nat) :
    (Scan.code depth).after (visible t.2) = .code (depth + 1) ∧
      splitFrom (.code depth) (visible t.2) = [visible t.2] := by
  obtain ⟨kind, s⟩ := t
  cases kind with
  | mark =>
    obtain ⟨sign, hsign, hs⟩ := List.any_eq_true.mp h
    rw [eq_of_beq hs]
    have hvisible : ∀ sign ∈ ["(", "[", "\x7b", "$\x7b"], visible sign.toList = ['('] ∨
        visible sign.toList = ['['] ∨ visible sign.toList = ['\x7b'] ∨
        visible sign.toList = ['$', '\x7b'] := by decide
    rcases hvisible sign hsign with h | h | h | h <;> rw [h] <;>
      exact ⟨rfl, by simp [splitFrom, extend]⟩
  | _ => simp [Token.opens] at h

/-- A bracket that closes is one to the splitter. -/
theorem after_closes {t : Token} (h : t.closes = true) (depth : Nat) :
    (Scan.code (depth + 1)).after (visible t.2) = .code depth ∧
      splitFrom (.code (depth + 1)) (visible t.2) = [visible t.2] := by
  obtain ⟨kind, s⟩ := t
  cases kind with
  | mark =>
    obtain ⟨sign, hsign, hs⟩ := List.any_eq_true.mp h
    rw [eq_of_beq hs]
    have hvisible : ∀ sign ∈ [")", "]", "\x7d"], visible sign.toList = [')'] ∨
        visible sign.toList = [']'] ∨ visible sign.toList = ['\x7d'] := by decide
    rcases hvisible sign hsign with h | h | h <;> rw [h] <;>
      exact ⟨rfl, by simp [splitFrom, extend]⟩
  | _ => simp [Token.closes] at h

/-- Behind a dot there starts a segment. -/
theorem tail_splitFrom_dot {t : Token} (h : t.IsDot) (s : List Char) :
    (Scan.code 0).after (visible t.2) = .code 0 ∧
      (splitFrom (.code 0) (visible t.2 ++ s)).tail = splitFrom (.code 0) s := by
  rcases h with rfl | rfl <;> exact ⟨rfl, rfl⟩

/-- The first segment of leaves that start with something else than a dot or a marker shows. -/
theorem StartsSegment.shows {ts : List Token} (h : StartsSegment ts) {segment : List Char}
    {rest : List (List Char)} (hsplit : splitFrom (.code 0) (visibleText ts) = segment :: rest) :
    Shows segment := by
  obtain ⟨c, hc, hdot, hmarker⟩ := h
  obtain ⟨s, hs⟩ := List.head?_eq_some_iff.mp hc
  rw [hs] at hsplit
  obtain ⟨segment', rfl⟩ := exists_of_splitFrom_cons hdot hsplit
  exact ⟨c, segment', rfl, hmarker⟩

/-- Whether a text closes some brackets and what it opens itself, and all segments that start in it
show. -/
structure Closes (depth : Nat) (s : List Char) : Prop where
  closes : (Scan.code depth).after s = .code 0
  shows : ∀ segment ∈ (splitFrom (.code depth) s).tail, Shows segment

/-- A piece in which no segment starts leaves it to what follows. -/
theorem Closes.piece {depth inner : Nat} {s t : List Char} (h : Closes inner t)
    (hafter : (Scan.code depth).after s = .code inner)
    (hwhole : splitFrom (.code depth) s = [s]) : Closes depth (s ++ t) where
  closes := by rw [after_append, hafter, h.closes]
  shows := by
    rw [tail_splitFrom_append hwhole, hafter]
    exact h.shows

/-- A dot parts what is in front of it from a segment that shows. -/
theorem Closes.dot {t : Token} (ht : t.IsDot) {ts : List Token} (hstarts : StartsSegment ts)
    (h : Closes 0 (visibleText ts)) : Closes 0 (visible t.2 ++ visibleText ts) := by
  obtain ⟨hafter, htail⟩ := tail_splitFrom_dot ht (visibleText ts)
  refine ⟨by rw [after_append, hafter, h.closes], fun segment hsegment => ?_⟩
  rw [htail] at hsegment
  have hshows := h.shows
  cases hsplit : splitFrom (.code 0) (visibleText ts) with
  | nil => exact absurd hsplit (splitFrom_ne_nil _ _)
  | cons head rest =>
    rw [hsplit] at hsegment hshows
    rcases List.mem_cons.mp hsegment with rfl | hrest
    · exact hstarts.shows hsplit
    · exact hshows segment hrest

/-- Tidy leaves that close some brackets do so to the splitter. -/
theorem closes_of_tidy {depth : Nat} {ts : List Token} (hnested : Nested depth ts)
    (hspelled : ∀ t ∈ ts, t.Spelled) (htidy : Tidy depth ts) : Closes depth (visibleText ts) := by
  induction ts generalizing depth with
  | nil =>
    obtain rfl : depth = 0 := hnested
    exact ⟨rfl, fun _ h => absurd h List.not_mem_nil⟩
  | cons t ts ih =>
    rw [Nested] at hnested
    rw [Tidy] at htidy
    obtain ⟨ht, hts⟩ := List.forall_mem_cons.mp hspelled
    rw [visibleText_cons]
    by_cases hopens : t.opens = true
    · rw [if_pos hopens] at hnested htidy
      obtain ⟨hafter, hwhole⟩ := after_opens hopens depth
      exact (ih hnested hts htidy).piece hafter hwhole
    rw [if_neg hopens] at hnested htidy
    by_cases hcloses : t.closes = true
    · rw [if_pos hcloses] at hnested htidy
      obtain ⟨outer, rfl, hnested⟩ := hnested
      obtain ⟨hafter, hwhole⟩ := after_closes hcloses outer
      exact (ih hnested hts htidy).piece hafter hwhole
    rw [if_neg hcloses] at hnested htidy
    obtain ⟨hcounted, hdots, htidy⟩ := htidy
    by_cases hdot : depth = 0 ∧ t.1 ≠ .string ∧ '.' ∈ t.2
    · obtain ⟨rfl, hkind, hmem⟩ := hdot
      obtain ⟨hisDot, hstarts⟩ := hdots rfl hkind hmem
      exact (ih hnested hts htidy).dot hisDot hstarts
    · have hno (hdepth : depth = 0) (hkind : t.1 ≠ .string) : '.' ∉ t.2 :=
        fun hmem => hdot ⟨hdepth, hkind, hmem⟩
      exact (ih hnested hts htidy).piece (hcounted.after ht hopens hcloses depth)
        (hcounted.whole ht hopens hcloses hno)

/-! ## Callees -/

/-- Whether the splitter comes out of trees where it went in, and finds the dots between them. It is
so if it reads their text without blanks that way, whatever they are, and always if they are made of
tidy leaves. -/
def Readable (ts : List Tree) : Prop :=
  Smooth (visible (textOf ts)) ∨ Tidy 0 (tokensOf ts)

instance : DecidablePred Readable := fun ts =>
  inferInstanceAs (Decidable (Smooth (visible (textOf ts)) ∨ Tidy 0 (tokensOf ts)))

/-- Trees that close what they open are read as they should be if they are readable. -/
theorem Readable.smooth {ts : List Tree} (h : Readable ts) (hnested : Nested 0 (tokensOf ts))
    (hspelled : ∀ t ∈ tokensOf ts, t.Spelled) : Smooth (visible (textOf ts)) := by
  rcases h with h | h
  · exact h
  · have hcloses := closes_of_tidy hnested hspelled h
    rw [visibleText, flatMap_tokensOf] at hcloses
    exact ⟨hcloses.closes, hcloses.shows⟩

/-- Whether a tree leads from the client on: a dot comes first, and then names, arguments, elements
and markers, each of them readable. -/
def FromClient : Tree → Prop
  | .node kind (base :: rest) =>
    kind.follows = true ∧ Readable rest ∧
      (IsClient (visible base.text) ∧ StartsDotted (visible (textOf rest)) ∨ FromClient base)
  | _ => False

/-- Whether a tree leads from the client on can be decided. -/
def decidableFromClient : (t : Tree) → Decidable (FromClient t)
  | .node kind (base :: rest) =>
    have := decidableFromClient base
    inferInstanceAs (Decidable (kind.follows = true ∧ Readable rest ∧
      (IsClient (visible base.text) ∧ StartsDotted (visible (textOf rest)) ∨ FromClient base)))
  | .node _ [] | .leaf .. => isFalse id

instance : DecidablePred FromClient := decidableFromClient

/-- Whether a callee leads from the client to a member, with nothing but blanks behind the last
dot. -/
def Legible : Tree → Prop
  | .node kind (base :: tail) =>
    kind = .member ∧ FromClient base ∧ Smooth (visible (textOf (Reading.splitTrivia tail).1)) ∧
      visible (textOf (Reading.splitTrivia (Reading.splitTrivia tail).2.tail).1) = []
  | _ => False

instance : DecidablePred Legible
  | .node kind (base :: tail) =>
    inferInstanceAs (Decidable (kind = .member ∧ FromClient base ∧
      Smooth (visible (textOf (Reading.splitTrivia tail).1)) ∧
      visible (textOf (Reading.splitTrivia (Reading.splitTrivia tail).2.tail).1) = []))
  | .node _ [] | .leaf .. => isFalse id

/-- The text of a tree that leads from the client on does so for the splitter. -/
theorem FromClient.stems {t : Tree} (h : FromClient t) (hlayout : t.Every evenTails)
    (hspelled : ∀ l ∈ t.tokens, l.Spelled) : Stems (visible t.text) := by
  fun_induction FromClient t with
  | case1 kind base rest ih =>
    obtain ⟨hkind, hrest, hbase⟩ := h
    rw [tokens, tokensOf, List.forall_mem_append] at hspelled
    rw [text, textOf, visible_append]
    have hsmooth := hrest.smooth (hlayout.1 hkind) hspelled.2
    rcases hbase with ⟨hclient, hdot⟩ | hbase
    · exact stems_of_isClient hclient hsmooth hdot
    · exact (ih hbase hlayout.2.1 hspelled.1).append hsmooth
  | case2 => exact h.elim

end Crossing.Script
