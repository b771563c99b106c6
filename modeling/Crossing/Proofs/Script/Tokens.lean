import Crossing.Proofs.Script.Sound
import Crossing.Script.Fidelity

/-!
# The tokens of a reading

The leaves of a tree in the order of the text. Reading builds nodes, and moves operators into
operands, but it never changes the leaves (`tokens_build`). So what the rules of a grammar say of
their lexemes holds of the leaves of every tree that is read (`Rule.isEven_read`): each is spelled
as its kind demands, and every bracket that is opened is closed. A rule that says so is `Even`.
-/

namespace Crossing.Script

open Crossing.Script.Tree

/-- A leaf: what it is, and its text. -/
abbrev Token := Leaf × List Char

mutual

/-- The leaves of a tree. -/
def Tree.tokens : Tree → List Token
  | .leaf kind s => [(kind, s)]
  | .node _ ts => Tree.tokensOf ts

/-- The leaves of trees that follow one another. -/
def Tree.tokensOf : List Tree → List Token
  | [] => []
  | t :: ts => t.tokens ++ Tree.tokensOf ts

end

/-- The leaves of trees are those of the first ones and then those of the others. -/
theorem tokensOf_append (ts us : List Tree) : tokensOf (ts ++ us) = tokensOf ts ++ tokensOf us := by
  induction ts with
  | nil => rfl
  | cons t ts ih => rw [List.cons_append, tokensOf, tokensOf, ih, List.append_assoc]

/-- One tree has its tokens. -/
theorem tokensOf_singleton (t : Tree) : tokensOf [t] = t.tokens := by
  rw [tokensOf, tokensOf, List.append_nil]

mutual

/-- The text of a tree is that of its leaves. -/
theorem flatMap_tokens (t : Tree) : t.tokens.flatMap Prod.snd = t.text := by
  cases t with
  | leaf kind s => simp [tokens, text]
  | node kind ts => rw [tokens, text, flatMap_tokensOf ts]

/-- The tokens of trees hold their text. -/
theorem flatMap_tokensOf (ts : List Tree) : (tokensOf ts).flatMap Prod.snd = textOf ts := by
  cases ts with
  | nil => rfl
  | cons t ts => rw [tokensOf, textOf, List.flatMap_append, flatMap_tokens t, flatMap_tokensOf ts]

end

/-! ## Nodes are made of the leaves that were read -/

/-- Both trees that an operation can come to have the leaves of the operator and of its operand. -/
theorem tokens_split (op : List Tree) (t : Tree) :
    (Operation.split op t).1.tokens = tokensOf op ++ t.tokens ∧
      ∀ u, (Operation.split op t).2 = some u → u.tokens = tokensOf op ++ t.tokens := by
  have hwhole (t : Tree) : (Tree.node .other (op ++ [t])).tokens = tokensOf op ++ t.tokens := by
    rw [tokens, tokensOf_append, tokensOf_singleton]
  fun_induction Operation.split op t with
  | case1 kind base rest whole _ inner outer hsplit first hfirst grown ih =>
    rw [hsplit] at ih
    have hgrown : grown.tokens = tokensOf op ++ (node kind (base :: rest)).tokens := by
      have htokens : first.tokens = tokensOf op ++ base.tokens := by
        split at hfirst
        · rw [← Option.some.inj hfirst, ih.1]
        · exact ih.2 first hfirst
      simp [grown, tokens, tokensOf, htokens]
    refine ⟨?_, fun u hu => Option.some.inj hu ▸ hgrown⟩
    dsimp only
    split
    · exact hgrown
    · exact hwhole _
  | case2 | case3 | case4 => exact ⟨hwhole _, fun u hu => by contradiction⟩

/-- A node has the leaves of the trees that it is built of. -/
theorem tokens_build (shape : Shape) (ts : List Tree) : (shape.build ts).tokens = tokensOf ts := by
  cases shape with
  | kind k => rw [Shape.build, tokens]
  | operation =>
    simp only [Shape.build]
    split
    · next operand h =>
      obtain ⟨before, rfl⟩ := List.getLast?_eq_some_iff.mp h
      rw [List.dropLast_concat, Operation.apply, (tokens_split before operand).1, tokensOf_append,
        tokensOf_singleton]
    · next h =>
      rw [List.getLast?_eq_none_iff.mp h]
      rfl

/-- Trees as one node have the leaves that they had. -/
theorem tokensOf_wrap (shape : Shape) (ts : List Tree) :
    tokensOf (Reading.wrap shape ts) = tokensOf ts := by
  unfold Reading.wrap
  split
  · rfl
  · next before inner _ h =>
    have hparts : ts = before ++ inner := by
      rw [← List.takeWhile_append_dropWhile (p := Tree.isTrivia) (l := ts)]
      exact congrArg (fun p => p.1 ++ p.2) h
    rw [hparts, tokensOf_append, tokensOf_append, tokensOf_singleton, tokens_build]

/-! ## Brackets -/

/-- Whether a leaf is a bracket that opens. -/
def Token.opens : Token → Bool
  | (.mark, s) => ["(", "[", "\x7b", "$\x7b"].any (s == ·.toList)
  | _ => false

/-- Whether a leaf is a bracket that closes. -/
def Token.closes : Token → Bool
  | (.mark, s) => [")", "]", "\x7d"].any (s == ·.toList)
  | _ => false

/-- Whether leaves close every bracket that they open, and `depth` others. -/
def Nested : (depth : Nat) → List Token → Prop
  | depth, [] => depth = 0
  | depth, t :: ts =>
    if t.opens then Nested (depth + 1) ts
    else if t.closes then ∃ outer, depth = outer + 1 ∧ Nested outer ts
    else Nested depth ts

/-- Leaves that close what they open may stand in front of others. -/
theorem nested_append {ts : List Token} {inner : Nat} (h : Nested inner ts) (outer : Nat)
    (us : List Token) : Nested (inner + outer) (ts ++ us) ↔ Nested outer us := by
  induction ts generalizing inner with
  | nil =>
    obtain rfl : inner = 0 := h
    rw [Nat.zero_add, List.nil_append]
  | cons t ts ih =>
    rw [List.cons_append, Nested]
    rw [Nested] at h
    split at h
    · next hopens =>
      rw [if_pos hopens, Nat.add_right_comm]
      exact ih h
    · next hopens =>
      rw [if_neg hopens]
      split at h
      · next hcloses =>
        obtain ⟨inner, rfl, h⟩ := h
        rw [if_pos hcloses]
        constructor
        · rintro ⟨rest, hrest, hnested⟩
          obtain rfl : rest = inner + outer := by omega
          exact (ih h).mp hnested
        · intro hnested
          exact ⟨inner + outer, by omega, (ih h).mpr hnested⟩
      · next hcloses =>
        rw [if_neg hcloses]
        exact ih h

/-- The same in front of leaves that close nothing more. -/
theorem nested_zero_append {ts us : List Token} {depth : Nat} (h : Nested 0 ts) :
    Nested depth (ts ++ us) ↔ Nested depth us := by
  have happend := nested_append h depth us
  rwa [Nat.zero_add] at happend

/-! ## Spelling -/

/-- Whether a character opens, closes or quotes nothing. -/
def isPlain (c : Char) : Bool := !"\"'\x60()[]\x7b\x7d".toList.contains c

/-- Whether a character may stand in a name: those of names, and those of escapes. -/
def isNameChar (c : Char) : Bool :=
  isWordChar c || "#-\\\x7b\x7d".toList.contains c

/-- How leaves of each kind are spelled, as far as anything depends on it. -/
def Token.Spelled : Token → Prop
  | (.undefined, s) => s = "undefined".toList
  | (.word, s) | (.property, s) | (.privateName, s) | (.shorthand, s) =>
    s ≠ [] ∧ (∀ c ∈ s, isNameChar c = true) ∧ ('\\' ∉ s → ∀ c ∈ s, isPlain c = true)
  | (.keyword, s) | (.number, s) => ∀ c ∈ s, isPlain c = true
  | (.string, s) =>
    ∃ q ∈ ['"', '\''], ∃ body, s = q :: (body ++ [q]) ∧ ('\\' ∉ body → '&' ∉ body → q ∉ body)
  | (.mark, s) =>
    Token.opens (.mark, s) = true ∨ Token.closes (.mark, s) = true ∨ s = ['\x60'] ∨
      ∀ c ∈ s, isPlain c = true
  | _ => True

/-- A bracket that opens is none that closes. -/
theorem not_opens_of_closes {t : Token} (h : t.closes = true) : ¬ t.opens = true := by
  obtain ⟨kind, s⟩ := t
  cases kind with
  | mark =>
    obtain ⟨sign, hsign, hs⟩ := List.any_eq_true.mp h
    rw [eq_of_beq hs]
    clear hs h
    revert sign
    decide
  | _ => exact absurd h (by simp [Token.closes])

/-- Brackets are spelled as they should be. -/
theorem spelled_of_bracket {t : Token} (h : t.opens = true ∨ t.closes = true) : t.Spelled := by
  obtain ⟨kind, s⟩ := t
  cases kind with
  | mark =>
    rcases h with h | h
    · exact .inl h
    · exact .inr (.inl h)
  | _ => simp [Token.opens, Token.closes] at h

/-! ## Even rules -/

/-- Whether the lexeme of a kind is spelled as the kind demands. -/
def Spells (kind : Leaf) (l : Lexeme) : Prop :=
  ∀ s, l s ≠ 0 → Token.Spelled (kind, s.take (l s))

variable {σ : Type} {grammar : σ → Rule σ}

/-- Whether a rule reads one leaf with a property. -/
def Rule.Reads (p : Token → Prop) (r : Rule σ) : Prop :=
  ∃ kind l, (r = .lexeme kind l ∨ r = .glued kind l) ∧ ∀ s, l s ≠ 0 → p (kind, s.take (l s))

/-- Whether rules that follow one another close every bracket that they open, and `depth` others,
where rules that are no brackets satisfy `p`. -/
inductive Runs (p : Rule σ → Prop) : (depth : Nat) → List (Rule σ) → Prop
  | nil : Runs p 0 []
  | inner {depth r rs} (h : p r) (hs : Runs p depth rs) : Runs p depth (r :: rs)
  | opening {depth r rs} (h : r.Reads (·.opens = true)) (hs : Runs p (depth + 1) rs) :
    Runs p depth (r :: rs)
  | closing {depth r rs} (h : r.Reads (·.closes = true)) (hs : Runs p depth rs) :
    Runs p (depth + 1) (r :: rs)

/-- Whether a rule spells its leaves as their kinds demand, closes every bracket that it opens, and
leaves it to chains to make the nodes that are made by what follows their first child. -/
inductive Even (grammar : σ → Rule σ) : Rule σ → Prop
  | lexeme {kind l} (h : Spells kind l)
    (hbracket : ∀ s, l s ≠ 0 → Nested 0 [(kind, s.take (l s))]) : Even grammar (.lexeme kind l)
  | glued {kind l} (h : Spells kind l)
    (hbracket : ∀ s, l s ≠ 0 → Nested 0 [(kind, s.take (l s))]) : Even grammar (.glued kind l)
  | test (p : Mode → List Char → Bool) : Even grammar (.test p)
  | sequence {rules} (h : Runs (Even grammar) 0 rules) : Even grammar (.sequence rules)
  | either {rules} (h : ∀ r ∈ rules, Even grammar r) : Even grammar (.either rules)
  | many {r} (h : Even grammar r) : Even grammar (.many r)
  | optional {r} (h : Even grammar r) : Even grammar (.optional r)
  | ahead (r) : Even grammar (.ahead r)
  | without (r) : Even grammar (.without r)
  | symbol (s) : Even grammar (.symbol s)
  | node {shape r} (h : Even grammar r) (hmade : ∀ k, shape = .kind k → k.follows = false) :
    Even grammar (.node shape r)
  | chain {head tails} (hhead : Even grammar head) (htails : ∀ t ∈ tails, Even grammar t.2.2) :
    Even grammar (.chain head tails)
  | within (change) {r} (h : Even grammar r) : Even grammar (.within change r)

/-- Whether leaves are spelled as they should be and close, together with what they open, `depth`
brackets. -/
structure IsEven (depth : Nat) (ts : List Token) : Prop where
  nested : Nested depth ts
  spelled : ∀ t ∈ ts, t.Spelled

/-- No leaves are even. -/
theorem isEven_nil : IsEven 0 [] := ⟨rfl, fun _ h => absurd h List.not_mem_nil⟩

/-- The leaves of no trees are even. -/
theorem isEven_tokensOf_nil : IsEven 0 (tokensOf []) := isEven_nil

/-- Leaves that close what they open may stand in front of others. -/
theorem IsEven.append {depth : Nat} {ts us : List Token} (hts : IsEven 0 ts)
    (hus : IsEven depth us) : IsEven depth (ts ++ us) where
  nested := (nested_zero_append hts.nested).mpr hus.nested
  spelled := List.forall_mem_append.mpr ⟨hts.spelled, hus.spelled⟩

/-- A bracket that opens stands in front of leaves that close it. -/
theorem IsEven.opening {depth : Nat} {t : Token} (h : t.opens = true) {ts : List Token}
    (hts : IsEven (depth + 1) ts) : IsEven depth (t :: ts) where
  nested := by
    rw [Nested, if_pos h]
    exact hts.nested
  spelled := List.forall_mem_cons.mpr ⟨spelled_of_bracket (.inl h), hts.spelled⟩

/-- A bracket that closes stands in front of leaves that close one less. -/
theorem IsEven.closing {depth : Nat} {t : Token} (h : t.closes = true) {ts : List Token}
    (hts : IsEven depth ts) : IsEven (depth + 1) (t :: ts) where
  nested := by
    rw [Nested, if_neg (not_opens_of_closes h), if_pos h]
    exact ⟨depth, rfl, hts.nested⟩
  spelled := List.forall_mem_cons.mpr ⟨spelled_of_bracket (.inr h), hts.spelled⟩

namespace Reading

/-- Whether the leaves of a reading are even. -/
def IsEven (depth : Nat) (r : Reading) : Prop :=
  ∀ ts rest, r = some (ts, rest) → Script.IsEven depth (tokensOf ts)

variable {depth : Nat}

/-- A reading that fails is even. -/
theorem isEven_none : IsEven depth none := by
  intro ts rest h
  contradiction

/-- A reading of nothing is even. -/
theorem isEven_nothing (s : List Char) : IsEven 0 (some ([], s)) := by
  intro ts rest h
  cases h
  exact isEven_nil

/-- A gap is of no account. -/
theorem isEven_triviaLeaf (n : Nat) (s : List Char) :
    Script.IsEven 0 (tokensOf (triviaLeaf n s)) := by
  unfold triviaLeaf
  split
  · exact isEven_nil
  · exact ⟨rfl, fun t ht => by rw [List.mem_singleton.mp ht]; exact trivial⟩

/-- A leaf that is read is the one that was asked for. -/
theorem isEven_leaf {before : List Tree} (hbefore : Script.IsEven 0 (tokensOf before)) {kind : Leaf}
    {n : Nat} {s : List Char} (h : n ≠ 0 → Script.IsEven depth [(kind, s.take n)]) :
    IsEven depth (leaf before kind n s) := by
  intro ts rest heq
  unfold leaf at heq
  split at heq
  · contradiction
  · next hn =>
    cases heq
    rw [tokensOf_append]
    exact hbefore.append (h hn)

/-- What is read by one of several rules is even if what each of them reads is. -/
theorem isEven_either {ρ : Type} {read : ρ → List Char → Reading} {rules : List ρ}
    {s : List Char} (hread : ∀ r ∈ rules, IsEven 0 (read r s)) : IsEven 0 (either read rules s) := by
  induction rules with
  | nil => exact isEven_none
  | cons r rules ih =>
    intro ts rest h
    simp only [either] at h
    split at h
    · next found hfound => exact hread r List.mem_cons_self _ _ (hfound.trans h)
    · exact ih (fun r' hr' => hread r' (List.mem_cons_of_mem r hr')) _ _ h

/-- What is read by repetition is even if each part is. -/
theorem isEven_many {read : List Char → Reading} (hread : ∀ s, IsEven 0 (read s)) (n : Nat)
    {before : List Tree} (hbefore : Script.IsEven 0 (tokensOf before)) (s : List Char) :
    IsEven 0 (many read n before s) := by
  induction n generalizing before s with
  | zero => intro ts rest h; cases h; exact hbefore
  | succ n ih =>
    intro ts rest h
    simp only [many] at h
    split at h
    · cases h; exact hbefore
    · cases h; exact hbefore
    · next first s' hne hfirst =>
      refine ih ?_ _ _ _ h
      rw [tokensOf_append]
      exact hbefore.append (hread s _ _ hfirst)

/-- What a tail reads is even. -/
theorem isEven_tail {ρ : Type} {read : ρ → List Char → Reading} {base : Tree} {s : List Char}
    {tails : List (Shape × (Tree → Bool) × ρ)} (hread : ∀ t ∈ tails, ∀ s, IsEven 0 (read t.2.2 s))
    {shape : Shape} {ts : List Tree} {rest : List Char}
    (h : tail read base s tails = some (shape, ts, rest)) : Script.IsEven 0 (tokensOf ts) := by
  induction tails with
  | nil => contradiction
  | cons t tails ih =>
    have hlater := ih fun t' ht' => hread t' (List.mem_cons_of_mem t ht')
    obtain ⟨shape', follows, r⟩ := t
    simp only [tail] at h
    split at h
    · exact hlater h
    · exact hlater h
    · next ts' rest' _ hr =>
      cases h
      split at hr
      · exact hread _ List.mem_cons_self s _ _ hr
      · contradiction

/-- A tree grows by leaves that are even. -/
theorem isEven_grow {ρ : Type} {read : ρ → List Char → Reading}
    {tails : List (Shape × (Tree → Bool) × ρ)} (hread : ∀ t ∈ tails, ∀ s, IsEven 0 (read t.2.2 s))
    (n : Nat) {before : List Token} {base : Tree} (hbase : Script.IsEven 0 (before ++ base.tokens))
    (s : List Char) : Script.IsEven 0 (before ++ (grow read tails n base s).1.tokens) := by
  induction n generalizing base s with
  | zero => exact hbase
  | succ n ih =>
    simp only [grow]
    split
    · next shape ts s' h =>
      refine ih ?_ s'
      rw [tokens_build, tokensOf, ← List.append_assoc]
      exact hbase.append (isEven_tail hread h)
    · exact hbase

/-- What is read as a chain is even if its head and its tails are. -/
theorem isEven_chain {ρ : Type} {read : ρ → List Char → Reading}
    {tails : List (Shape × (Tree → Bool) × ρ)} (hread : ∀ t ∈ tails, ∀ s, IsEven 0 (read t.2.2 s))
    (n : Nat) {head : Reading} (hhead : IsEven 0 head) : IsEven 0 (chain read n tails head) := by
  intro ts rest h
  unfold chain at h
  split at h
  · next first s =>
    split at h
    · next base hbase =>
      cases h
      have hfirst := hhead _ _ rfl
      obtain ⟨before, rfl⟩ := List.getLast?_eq_some_iff.mp hbase
      rw [tokensOf_append, tokensOf_singleton] at hfirst
      rw [List.dropLast_concat, tokensOf_append, tokensOf_singleton]
      exact isEven_grow hread n hfirst s
    · contradiction
  · contradiction

end Reading

/-- A lexeme of a rule is read behind a gap, or without one. -/
theorem Rule.Reads.tokens {p : Token → Prop} {r : Rule σ} (h : r.Reads p) {fuel : Nat} {mode : Mode}
    {s rest : List Char} {ts : List Tree}
    (hread : Rule.read grammar fuel r mode s = some (ts, rest)) :
    ∃ gap t, tokensOf ts = gap ++ [t] ∧ IsEven 0 gap ∧ p t := by
  have hleaf {before : List Tree} (hbefore : IsEven 0 (tokensOf before)) {kind : Leaf} {n : Nat}
      {s : List Char} (hp : n ≠ 0 → p (kind, s.take n))
      (hread : Reading.leaf before kind n s = some (ts, rest)) :
      ∃ gap t, tokensOf ts = gap ++ [t] ∧ IsEven 0 gap ∧ p t := by
    unfold Reading.leaf at hread
    split at hread
    · contradiction
    · next hn =>
      cases hread
      exact ⟨tokensOf before, _, by rw [tokensOf_append, tokensOf_singleton, Tree.tokens], hbefore,
        hp hn⟩
  cases fuel with
  | zero => contradiction
  | succ fuel =>
    obtain ⟨kind, l, rfl | rfl, hl⟩ := h
    · exact hleaf (Reading.isEven_triviaLeaf _ _) (hl _) hread
    · exact hleaf isEven_tokensOf_nil (hl _) hread

/-- What the rules of a sequence read. -/
theorem Reading.exists_of_sequence_cons {ρ : Type} {read : ρ → List Char → Reading} {r : ρ}
    {rules : List ρ} {s rest : List Char} {ts : List Tree}
    (h : sequence read (r :: rules) s = some (ts, rest)) : ∃ us s' vs,
      read r s = some (us, s') ∧ sequence read rules s' = some (vs, rest) ∧ ts = us ++ vs := by
  simp only [sequence] at h
  split at h
  · next us s' hus =>
    split at h
    · next vs s'' hvs =>
      cases h
      exact ⟨us, s', vs, hus, hvs, rfl⟩
    · contradiction
  · contradiction

/-- Rules that follow one another read even leaves if those that are no brackets do. -/
theorem Runs.isEven {p : Rule σ → Prop} {depth : Nat} {rules : List (Rule σ)} (h : Runs p depth rules)
    {fuel : Nat} {mode : Mode}
    (hp : ∀ r, p r → ∀ s, Reading.IsEven 0 (Rule.read grammar fuel r mode s)) (s : List Char) :
    Reading.IsEven depth
      (Reading.sequence (fun r s => Rule.read grammar fuel r mode s) rules s) := by
  -- A bracket changes the depth for the rules behind it; what any other rule reads is even by itself.
  induction h generalizing s with
  | nil => exact Reading.isEven_nothing s
  | inner h hs ih =>
    intro ts rest hread
    obtain ⟨us, s', vs, hus, hvs, rfl⟩ := Reading.exists_of_sequence_cons hread
    rw [tokensOf_append]
    exact (hp _ h s _ _ hus).append (ih s' _ _ hvs)
  | opening h hs ih =>
    intro ts rest hread
    obtain ⟨us, s', vs, hus, hvs, rfl⟩ := Reading.exists_of_sequence_cons hread
    obtain ⟨gap, t, htokens, hgap, hopens⟩ := h.tokens hus
    rw [tokensOf_append, htokens, List.append_assoc, List.singleton_append]
    exact hgap.append (IsEven.opening hopens (ih s' _ _ hvs))
  | closing h hs ih =>
    intro ts rest hread
    obtain ⟨us, s', vs, hus, hvs, rfl⟩ := Reading.exists_of_sequence_cons hread
    obtain ⟨gap, t, htokens, hgap, hcloses⟩ := h.tokens hus
    rw [tokensOf_append, htokens, List.append_assoc, List.singleton_append]
    exact hgap.append (IsEven.closing hcloses (ih s' _ _ hvs))

/-- An even rule of an even grammar reads even leaves. -/
theorem Rule.isEven_read (hgrammar : ∀ s, Even grammar (grammar s)) (fuel : Nat) {rule : Rule σ}
    (hrule : Even grammar rule) (mode : Mode) (s : List Char) :
    Reading.IsEven 0 (Rule.read grammar fuel rule mode s) := by
  induction fuel generalizing rule mode s with
  | zero => exact Reading.isEven_none
  | succ fuel ih =>
    cases hrule with
    | lexeme h hbracket =>
      exact Reading.isEven_leaf (Reading.isEven_triviaLeaf _ _) fun hn =>
        ⟨hbracket _ hn, List.forall_mem_singleton.mpr (h _ hn)⟩
    | glued h hbracket =>
      exact Reading.isEven_leaf isEven_tokensOf_nil fun hn =>
        ⟨hbracket _ hn, List.forall_mem_singleton.mpr (h _ hn)⟩
    | test p =>
      simp only [read]
      split
      · exact Reading.isEven_nothing s
      · exact Reading.isEven_none
    | sequence h => exact h.isEven (fun r hr s => ih hr mode s) s
    | either h => exact Reading.isEven_either fun r hr => ih (h r hr) mode s
    | many h => exact Reading.isEven_many (fun s => ih h mode s) fuel isEven_tokensOf_nil s
    | «optional» h =>
      intro ts rest heq
      simp only [read] at heq
      cases hr : Rule.read grammar fuel _ mode s with
      | none => rw [hr] at heq; exact Reading.isEven_nothing s _ _ heq
      | some found => rw [hr] at heq; exact ih h mode s _ _ (hr.trans heq)
    | ahead r =>
      simp only [read]
      split
      · exact Reading.isEven_nothing s
      · exact Reading.isEven_none
    | without r =>
      simp only [read]
      split
      · exact Reading.isEven_none
      · exact Reading.isEven_nothing s
    | symbol σ => exact ih (hgrammar σ) mode s
    | node h hmade =>
      intro ts rest heq
      simp only [read, Option.map_eq_some_iff] at heq
      obtain ⟨⟨ts', rest'⟩, hr, heq⟩ := heq
      cases heq
      rw [tokensOf_wrap]
      exact ih h mode s _ _ hr
    | chain hhead htails =>
      exact Reading.isEven_chain (fun t ht s => ih (htails t ht) mode s) fuel (ih hhead mode s)
    | within change h => exact ih h (change mode) s

/-! ## What follows the first child -/

/-- The layout of nodes that close behind their first child whatever they open there. -/
def evenTails : Layout
  | k, _ :: rest => k.follows = true → Nested 0 (tokensOf rest)
  | _, [] => True

/-- Operations change nothing but first children. -/
theorem open_evenTails : evenTails.Open where
  other ts := by
    cases ts with
    | nil => trivial
    | cons t ts => exact fun h => absurd h (by decide)
  rebase _ h _ := h

/-- A node that is not made by what follows its first child has the layout. -/
theorem evenTails_of_not_follows {k : Kind} (h : k.follows = false) (ts : List Tree) :
    evenTails k ts := by
  cases ts with
  | nil => trivial
  | cons t ts => exact fun hk => absurd (hk.symm.trans h) (by decide)

/-- A rule of a sequence is a lexeme, if it is no even rule. -/
theorem Runs.of_mem {p : Rule σ → Prop} {depth : Nat} {rules : List (Rule σ)} (h : Runs p depth rules)
    {r : Rule σ} (hr : r ∈ rules) : p r ∨ ∃ q, r.Reads q := by
  induction h with
  | nil => exact absurd hr List.not_mem_nil
  | inner h hs ih =>
    rcases List.mem_cons.mp hr with rfl | hr
    · exact .inl h
    · exact ih hr
  | opening h hs ih | closing h hs ih =>
    rcases List.mem_cons.mp hr with rfl | hr
    · exact .inr ⟨_, h⟩
    · exact ih hr

/-- An even rule of an even grammar makes nodes that close behind their first child whatever they
open there. -/
theorem sound_of_even (hgrammar : ∀ s, Even grammar (grammar s)) {rule : Rule σ}
    (hrule : Even grammar rule) : Sound evenTails grammar rule := by
  match rule, hrule with
  | .lexeme kind l, _ => exact .lexeme kind l
  | .glued kind l, _ => exact .glued kind l
  | _, .test p => exact .test p
  | .sequence rules, .sequence h =>
    refine .sequence fun r hr => ?_
    rcases h.of_mem hr with hr' | ⟨q, kind, l, rfl | rfl, -⟩
    · have : sizeOf r < sizeOf rules := List.sizeOf_lt_of_mem hr
      exact sound_of_even hgrammar hr'
    · exact .lexeme kind l
    · exact .glued kind l
  | .either rules, .either h =>
    refine .either fun r hr => ?_
    have : sizeOf r < sizeOf rules := List.sizeOf_lt_of_mem hr
    exact sound_of_even hgrammar (h r hr)
  | _, .many h => exact .many (sound_of_even hgrammar h)
  | _, .optional h => exact .optional (sound_of_even hgrammar h)
  | _, .ahead r => exact .ahead r
  | _, .without r => exact .without r
  | _, .symbol s => exact .symbol s
  | _, .node h hmade =>
    refine .node (sound_of_even hgrammar h) fun k hk => ?_
    exact (fun _ _ _ _ _ _ => evenTails_of_not_follows (hmade k hk) _)
  | .chain head tails, .chain hhead htails =>
    refine .chain (sound_of_even hgrammar hhead) (fun t ht => ?_) fun t ht k hk => ?_
    · have : sizeOf t < sizeOf tails := List.sizeOf_lt_of_mem ht
      have : sizeOf t.2.2 < sizeOf t := by
        obtain ⟨shape, follows, r⟩ := t
        simp
        omega
      exact sound_of_even hgrammar (htails t ht)
    · intro fuel mode s ts rest hread base _
      exact (Rule.isEven_read hgrammar fuel (htails t ht) mode s _ _ hread).nested
  | _, .within change h => exact .within change (sound_of_even hgrammar h)
termination_by sizeOf rule

end Crossing.Script
