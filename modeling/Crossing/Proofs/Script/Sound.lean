import Crossing.Script.Rule

/-!
# What a grammar makes of nodes

A layout says of each kind of node what its children are. A grammar is `Sound` for a layout if each
rule that makes nodes of a kind gives them children as the layout says; then every tree that is read
by it has that layout throughout (`Rule.every_read`). What a rule gives is stated by `Gives`, over
all readings, so each rule is looked at once and by itself.
-/

namespace Crossing.Script

/-- What the children of a node of each kind are like. -/
abbrev Layout := Kind → List Tree → Prop

mutual

/-- Whether all nodes of a tree have a layout. -/
def Tree.Every (L : Layout) : Tree → Prop
  | .leaf _ _ => True
  | .node k ts => L k ts ∧ Tree.EveryOf L ts

/-- Whether all nodes of several trees have a layout. -/
def Tree.EveryOf (L : Layout) : List Tree → Prop
  | [] => True
  | t :: ts => t.Every L ∧ Tree.EveryOf L ts

end

open Crossing.Script.Tree

/-- All nodes of several trees have a layout if those of each tree have it. -/
theorem everyOf_iff {L : Layout} {ts : List Tree} : EveryOf L ts ↔ ∀ t ∈ ts, t.Every L := by
  induction ts with
  | nil => simp [EveryOf]
  | cons t ts ih => simp [EveryOf, ih]

/-- A layout asks nothing of no trees. -/
theorem everyOf_nil (L : Layout) : EveryOf L [] := trivial

/-- The layout of joined lists of trees is that of both. -/
theorem everyOf_append {L : Layout} {ts us : List Tree} :
    EveryOf L (ts ++ us) ↔ EveryOf L ts ∧ EveryOf L us := by
  simp [everyOf_iff, or_imp, forall_and]

/-- A layout that operations keep: it asks nothing of other nodes, and of a node that is made by
what follows its first child, nothing about that child. -/
structure Layout.Open (L : Layout) : Prop where
  other : ∀ ts, L .other ts
  rebase : ∀ {k base rest}, k.follows = true → L k (base :: rest) → ∀ first, L k (first :: rest)

variable {σ : Type}

/-- Whether the trees of every reading of a rule have a property. -/
def Gives (grammar : σ → Rule σ) (r : Rule σ) (Q : List Tree → Prop) : Prop :=
  ∀ fuel mode s ts rest, Rule.read grammar fuel r mode s = some (ts, rest) → Q ts

/-- Whether a rule makes its nodes as a layout says. -/
inductive Sound (L : Layout) (grammar : σ → Rule σ) : Rule σ → Prop
  | lexeme (leaf : Leaf) (l : Lexeme) : Sound L grammar (.lexeme leaf l)
  | glued (leaf : Leaf) (l : Lexeme) : Sound L grammar (.glued leaf l)
  | test (p : Mode → List Char → Bool) : Sound L grammar (.test p)
  | sequence {rules : List (Rule σ)} (h : ∀ r ∈ rules, Sound L grammar r) :
    Sound L grammar (.sequence rules)
  | either {rules : List (Rule σ)} (h : ∀ r ∈ rules, Sound L grammar r) :
    Sound L grammar (.either rules)
  | many {r : Rule σ} (h : Sound L grammar r) : Sound L grammar (.many r)
  | optional {r : Rule σ} (h : Sound L grammar r) : Sound L grammar (.optional r)
  | ahead (r : Rule σ) : Sound L grammar (.ahead r)
  | without (r : Rule σ) : Sound L grammar (.without r)
  | symbol (s : σ) : Sound L grammar (.symbol s)
  | node {shape : Shape} {r : Rule σ} (h : Sound L grammar r)
    (hmade : ∀ k, shape = .kind k → Gives grammar r fun ts => L k (Reading.splitTrivia ts).2) :
    Sound L grammar (.node shape r)
  | chain {head : Rule σ} {tails : List (Shape × (Tree → Bool) × Rule σ)}
    (hhead : Sound L grammar head) (htails : ∀ t ∈ tails, Sound L grammar t.2.2)
    (hmade : ∀ t ∈ tails, ∀ k, t.1 = .kind k →
      Gives grammar t.2.2 fun ts => ∀ base, L k (base :: ts)) :
    Sound L grammar (.chain head tails)
  | within (change : Mode → Mode) {r : Rule σ} (h : Sound L grammar r) :
    Sound L grammar (.within change r)

/-! ## Operations -/

/-- An operation makes nodes of the layout from trees of the layout. -/
theorem every_split {L : Layout} (hL : L.Open) (op : List Tree) (t : Tree) (hop : EveryOf L op)
    (ht : t.Every L) : (Operation.split op t).1.Every L ∧
      ∀ u, (Operation.split op t).2 = some u → u.Every L := by
  have hwhole (t : Tree) (ht : t.Every L) : (Tree.node .other (op ++ [t])).Every L :=
    ⟨hL.other _, everyOf_append.mpr ⟨hop, ht, trivial⟩⟩
  -- An operand that is an operation itself gives up its first operand to the new one.
  fun_induction Operation.split op t with
  | case1 kind base rest whole hfollows inner outer hsplit first hfirst grown ih =>
    obtain ⟨hkind, hbase, hrest⟩ := ht
    have hfirstEvery : first.Every L := by
      have ih := ih hbase
      rw [hsplit] at ih
      split at hfirst
      · exact Option.some.inj hfirst ▸ ih.1
      · exact ih.2 first hfirst
    have hgrown : grown.Every L := ⟨hL.rebase hfollows hkind first, hfirstEvery, hrest⟩
    refine ⟨?_, fun u hu => Option.some.inj hu ▸ hgrown⟩
    dsimp only
    split
    · exact hgrown
    · exact hwhole _ ⟨hkind, hbase, hrest⟩
  | case2 | case3 | case4 => exact ⟨hwhole _ ht, fun u hu => by contradiction⟩

/-- A node is of the layout if its children are, and if it is of a kind, its list of children too. -/
theorem every_build {L : Layout} (hL : L.Open) {shape : Shape} {ts : List Tree}
    (hts : EveryOf L ts) (hmade : ∀ k, shape = .kind k → L k ts) : (shape.build ts).Every L := by
  cases shape with
  | kind k => exact ⟨hmade k rfl, hts⟩
  | operation =>
    simp only [Shape.build]
    split
    · next operand h =>
      obtain ⟨before, rfl⟩ := List.getLast?_eq_some_iff.mp h
      rw [everyOf_append] at hts
      rw [List.dropLast_concat]
      exact (every_split hL before operand hts.1 hts.2.1).1
    · exact ⟨hL.other _, trivial⟩

/-! ## Readings -/

namespace Reading

/-- Whether the trees of a reading are of a layout. -/
def IsEvery (L : Layout) (r : Reading) : Prop :=
  ∀ ts rest, r = some (ts, rest) → EveryOf L ts

variable {L : Layout}

/-- A reading that fails gives no trees. -/
theorem isEvery_none : IsEvery L none := fun _ _ h => nomatch h

/-- A reading of nothing gives no trees. -/
theorem isEvery_nothing (s : List Char) : IsEvery L (some ([], s)) := by
  intro ts rest h
  cases h
  trivial

/-- A leaf that is read has no children to lay out. -/
theorem isEvery_leaf {before : List Tree} (hbefore : EveryOf L before) (kind : Leaf) (n : Nat)
    (s : List Char) : IsEvery L (leaf before kind n s) := by
  intro ts rest h
  unfold leaf at h
  split at h
  · contradiction
  · cases h
    exact everyOf_append.mpr ⟨hbefore, trivial, trivial⟩

/-- Blanks have no children to lay out. -/
theorem every_triviaLeaf (n : Nat) (s : List Char) : EveryOf L (triviaLeaf n s) := by
  unfold triviaLeaf
  split <;> simp [EveryOf, Every]

/-- What is read in a sequence has the layout if its parts have it. -/
theorem isEvery_sequence {ρ : Type} {read : ρ → List Char → Reading} {rules : List ρ}
    (hread : ∀ r ∈ rules, ∀ s, IsEvery L (read r s)) (s : List Char) :
    IsEvery L (sequence read rules s) := by
  induction rules generalizing s with
  | nil => exact isEvery_nothing s
  | cons r rules ih =>
    intro ts rest h
    simp only [sequence] at h
    split at h
    · next first s' hfirst =>
      split at h
      · next others s'' hothers =>
        cases h
        have hlater := ih (fun r' hr' => hread r' (List.mem_cons_of_mem r hr')) s' _ _ hothers
        exact everyOf_append.mpr ⟨hread r List.mem_cons_self s _ _ hfirst, hlater⟩
      · contradiction
    · contradiction

/-- What is read by one of several rules has the layout if each of them gives it. -/
theorem isEvery_either {ρ : Type} {read : ρ → List Char → Reading} {rules : List ρ}
    {s : List Char} (hread : ∀ r ∈ rules, IsEvery L (read r s)) :
    IsEvery L (either read rules s) := by
  induction rules with
  | nil => exact isEvery_none
  | cons r rules ih =>
    intro ts rest h
    simp only [either] at h
    split at h
    · next found hfound => exact hread r List.mem_cons_self _ _ (hfound.trans h)
    · exact ih (fun r' hr' => hread r' (List.mem_cons_of_mem r hr')) _ _ h

/-- What is read by repetition has the layout if each part has it. -/
theorem isEvery_many {read : List Char → Reading} (hread : ∀ s, IsEvery L (read s)) (n : Nat)
    {before : List Tree} (hbefore : EveryOf L before) (s : List Char) :
    IsEvery L (many read n before s) := by
  induction n generalizing before s with
  | zero => intro ts rest h; cases h; exact hbefore
  | succ n ih =>
    intro ts rest h
    simp only [many] at h
    split at h
    · cases h; exact hbefore
    · cases h; exact hbefore
    · next first s' hne hfirst =>
      exact ih (everyOf_append.mpr ⟨hbefore, hread s _ _ hfirst⟩) _ _ _ h

/-- A node around trees has the layout if they have it and its children are as the kind demands. -/
theorem every_wrap (hL : L.Open) {shape : Shape} {ts : List Tree} (hts : EveryOf L ts)
    (hmade : ∀ k, shape = .kind k → L k (splitTrivia ts).2) : EveryOf L (wrap shape ts) := by
  unfold wrap
  split
  · exact hts
  · next before inner _ h =>
    -- Blanks and comments in front of a node stay outside of it.
    have hparts : ts = before ++ inner := by
      rw [← List.takeWhile_append_dropWhile (p := Tree.isTrivia) (l := ts)]
      exact congrArg (fun p => p.1 ++ p.2) h
    rw [h] at hmade
    rw [hparts, everyOf_append] at hts
    exact everyOf_append.mpr ⟨hts.1, every_build hL hts.2 hmade, trivial⟩

/-- The node that a tail makes of a tree of the layout is of the layout. -/
theorem every_tail (hL : L.Open) {ρ : Type} {read : ρ → List Char → Reading} {base : Tree}
    (hbase : base.Every L) {s : List Char} {tails : List (Shape × (Tree → Bool) × ρ)}
    (hread : ∀ t ∈ tails, ∀ s, IsEvery L (read t.2.2 s))
    (hmade : ∀ t ∈ tails, ∀ k, t.1 = .kind k → ∀ s ts rest, read t.2.2 s = some (ts, rest) →
      ∀ base, L k (base :: ts))
    {shape : Shape} {ts : List Tree} {rest : List Char}
    (h : tail read base s tails = some (shape, ts, rest)) :
    (shape.build (base :: ts)).Every L := by
  induction tails with
  | nil => contradiction
  | cons t tails ih =>
    have hlater := ih (fun t' ht' => hread t' (List.mem_cons_of_mem t ht'))
      (fun t' ht' => hmade t' (List.mem_cons_of_mem t ht'))
    obtain ⟨shape', follows, r⟩ := t
    simp only [tail] at h
    split at h
    · exact hlater h
    · exact hlater h
    · next ts' rest' _ hr =>
      cases h
      split at hr
      · refine every_build hL ⟨hbase, hread _ List.mem_cons_self s _ _ hr⟩ fun k hk => ?_
        exact hmade _ List.mem_cons_self k hk s _ _ hr base
      · contradiction

/-- A chain has the layout if its start and its tails have it. -/
theorem every_grow (hL : L.Open) {ρ : Type} {read : ρ → List Char → Reading}
    {tails : List (Shape × (Tree → Bool) × ρ)}
    (hread : ∀ t ∈ tails, ∀ s, IsEvery L (read t.2.2 s))
    (hmade : ∀ t ∈ tails, ∀ k, t.1 = .kind k → ∀ s ts rest, read t.2.2 s = some (ts, rest) →
      ∀ base, L k (base :: ts))
    (n : Nat) {base : Tree} (hbase : base.Every L) (s : List Char) :
    (grow read tails n base s).1.Every L := by
  induction n generalizing base s with
  | zero => exact hbase
  | succ n ih =>
    simp only [grow]
    split
    · next shape ts s' h => exact ih (every_tail hL hbase hread hmade h) s'
    · exact hbase

/-- What is read as a chain has the layout if its head and its tails have it. -/
theorem isEvery_chain (hL : L.Open) {ρ : Type} {read : ρ → List Char → Reading}
    {tails : List (Shape × (Tree → Bool) × ρ)}
    (hread : ∀ t ∈ tails, ∀ s, IsEvery L (read t.2.2 s))
    (hmade : ∀ t ∈ tails, ∀ k, t.1 = .kind k → ∀ s ts rest, read t.2.2 s = some (ts, rest) →
      ∀ base, L k (base :: ts))
    (n : Nat) {head : Reading} (hhead : IsEvery L head) : IsEvery L (chain read n tails head) := by
  intro ts rest h
  unfold chain at h
  split at h
  · next first s =>
    split at h
    · next base hbase =>
      cases h
      have hfirst := hhead _ _ rfl
      -- The chain grows on the last tree of the head; those before it stay.
      obtain ⟨before, rfl⟩ := List.getLast?_eq_some_iff.mp hbase
      rw [everyOf_append] at hfirst
      rw [List.dropLast_concat]
      exact everyOf_append.mpr ⟨hfirst.1, every_grow hL hread hmade n hfirst.2.1 s, trivial⟩
    · contradiction
  · contradiction

end Reading

/-- What is read by a sound rule of a sound grammar is of the layout throughout. -/
theorem Rule.every_read {L : Layout} (hL : L.Open) {grammar : σ → Rule σ}
    (hgrammar : ∀ s, Sound L grammar (grammar s)) (fuel : Nat) {rule : Rule σ}
    (hrule : Sound L grammar rule) (mode : Mode) (s : List Char) :
    Reading.IsEvery L (Rule.read grammar fuel rule mode s) := by
  -- The induction is on the fuel: each rule former reads its parts with less of it. What a symbol
  -- stands for is any rule of the grammar, so all rules are taken together.
  induction fuel generalizing rule mode s with
  | zero => exact Reading.isEvery_none
  | succ fuel ih =>
    cases hrule with
    | lexeme kind l => exact Reading.isEvery_leaf (Reading.every_triviaLeaf _ _) kind _ _
    | glued kind l => exact Reading.isEvery_leaf (everyOf_nil L) kind _ _
    | test p =>
      simp only [read]
      split
      · exact Reading.isEvery_nothing s
      · exact Reading.isEvery_none
    | sequence h => exact Reading.isEvery_sequence (fun r hr s => ih (h r hr) mode s) s
    | either h => exact Reading.isEvery_either fun r hr => ih (h r hr) mode s
    | many h => exact Reading.isEvery_many (fun s => ih h mode s) fuel (everyOf_nil L) s
    | «optional» h =>
      intro ts rest heq
      simp only [read] at heq
      cases hr : Rule.read grammar fuel _ mode s with
      | none => rw [hr] at heq; exact Reading.isEvery_nothing s _ _ heq
      | some found => rw [hr] at heq; exact ih h mode s _ _ (hr.trans heq)
    | ahead r =>
      simp only [read]
      split
      · exact Reading.isEvery_nothing s
      · exact Reading.isEvery_none
    | without r =>
      simp only [read]
      split
      · exact Reading.isEvery_none
      · exact Reading.isEvery_nothing s
    | symbol σ => exact ih (hgrammar σ) mode s
    | node h hmade =>
      intro ts rest heq
      simp only [read, Option.map_eq_some_iff] at heq
      obtain ⟨⟨ts', rest'⟩, hr, heq⟩ := heq
      cases heq
      exact Reading.every_wrap hL (ih h mode s _ _ hr) fun k hk => hmade k hk _ _ _ _ _ hr
    | chain hhead htails hmade =>
      exact Reading.isEvery_chain hL (fun t ht s => ih (htails t ht) mode s)
        (fun t ht k hk s ts rest hr => hmade t ht k hk _ _ _ _ _ hr) fuel (ih hhead mode s)
    | within change h => exact ih h (change mode) s

end Crossing.Script
