import Crossing.Proofs.Script.Sound
import Crossing.Script.Grammar.Symbol

/-!
# What rules give

The properties of the trees of a reading that a layout can be stated by: `Lone p` is one tree that
satisfies `p` behind a gap of blanks and comments, and `Leads p` is a list whose first tree behind a
gap satisfies `p`. A rule that is put together of others gives what they give, one after another
(`gives_sequence_cons`).
-/

namespace Crossing.Script

variable {σ : Type} {grammar : σ → Rule σ}

/-- The blanks and comments that a text starts with, as a leaf if there are any. -/
def gapOf (s : List Char) : List Tree :=
  Reading.triviaLeaf (trivia s) s

/-- A gap is made of blanks and comments. -/
theorem isTrivia_of_mem_gapOf {s : List Char} {g : Tree} (h : g ∈ gapOf s) : g.isTrivia = true := by
  unfold gapOf Reading.triviaLeaf at h
  split at h
  · exact absurd h List.not_mem_nil
  · rw [List.mem_singleton.mp h, Tree.isTrivia]

/-- A gap, and behind it one tree with a property. -/
def Lone (p : Tree → Prop) (ts : List Tree) : Prop :=
  ∃ s t, ts = gapOf s ++ [t] ∧ t.isTrivia = false ∧ p t

/-- A gap, behind it a tree with a property, and perhaps others. -/
def Leads (p : Tree → Prop) (ts : List Tree) : Prop :=
  ∃ s t rest, ts = gapOf s ++ t :: rest ∧ t.isTrivia = false ∧ p t

/-- One tree leads, whatever follows it. -/
theorem Lone.leads_append {p : Tree → Prop} {ts : List Tree} (h : Lone p ts) (us : List Tree) :
    Leads p (ts ++ us) := by
  obtain ⟨s, t, rfl, ht, hp⟩ := h
  exact ⟨s, t, us, by simp, ht, hp⟩

/-- What one tree satisfies may be weakened. -/
theorem Lone.imp {p q : Tree → Prop} (hpq : ∀ t, p t → q t) {ts : List Tree} (h : Lone p ts) :
    Lone q ts := by
  obtain ⟨s, t, rfl, ht, hp⟩ := h
  exact ⟨s, t, rfl, ht, hpq t hp⟩

/-- A gap is parted from the first tree that is none. -/
theorem splitTrivia_gapOf (s : List Char) {t : Tree} (ht : t.isTrivia = false) (rest : List Tree) :
    Reading.splitTrivia (gapOf s ++ t :: rest) = (gapOf s, t :: rest) := by
  have hgap : ∀ g ∈ gapOf s, g.isTrivia = true := fun _ => isTrivia_of_mem_gapOf
  rw [Reading.splitTrivia, List.takeWhile_append_of_pos hgap, List.dropWhile_append_of_pos hgap,
    List.takeWhile_cons_of_neg (by simp [ht]), List.dropWhile_cons_of_neg (by simp [ht]),
    List.append_nil]

/-! ## Lexemes -/

/-- A lexeme gives its leaf. -/
theorem gives_lexeme {kind : Leaf} {l : Lexeme} {p : Tree → Prop}
    (hkind : kind ≠ .trivia ∧ kind ≠ .remark) (hp : ∀ s, l s ≠ 0 → p (.leaf kind (s.take (l s)))) :
    Gives grammar (.lexeme kind l) (Lone p) := by
  intro fuel mode s ts rest h
  cases fuel with
  | zero => contradiction
  | succ fuel =>
    simp only [Rule.read, Reading.leaf] at h
    split at h
    · contradiction
    · next hl =>
      cases h
      refine ⟨s, _, rfl, ?_, hp _ hl⟩
      unfold Tree.isTrivia
      split
      · next heq => cases heq; exact absurd rfl hkind.1
      · next heq => cases heq; exact absurd rfl hkind.2
      · rfl

/-- The longest sign that a text starts with is a start of it. -/
theorem take_signAt (s : List Char) : s.take (signAt s).length = signAt s := by
  unfold signAt
  cases hfind : signs.find? (·.isPrefixOf s) with
  | none =>
    simp only [Option.getD_none, List.length_take]
    rw [List.take_eq_take_iff]
    omega
  | some sign =>
    have hstart := List.find?_some hfind
    obtain ⟨rest, rfl⟩ := List.isPrefixOf_iff_prefix.mp hstart
    simp

/-- One of several signs is read as one of them. -/
theorem take_oneOf {wanted : List String} {s : List Char} (h : oneOf wanted s ≠ 0) :
    ∃ w ∈ wanted, s.take (oneOf wanted s) = w.toList := by
  unfold oneOf at h ⊢
  dsimp only at h ⊢
  split at h
  · next hmem =>
    obtain ⟨w, hw, heq⟩ := List.mem_map.mp (List.contains_iff_mem.mp hmem)
    rw [if_pos hmem, take_signAt]
    exact ⟨w, hw, heq.symm⟩
  · exact absurd rfl h

/-- A run of characters is read as it is. -/
theorem take_exactly {run : String} {s : List Char} (h : exactly run s ≠ 0) :
    s.take (exactly run s) = run.toList := by
  unfold exactly at h ⊢
  split at h
  · next hstart =>
    obtain ⟨rest, rfl⟩ := List.isPrefixOf_iff_prefix.mp hstart
    rw [if_pos hstart, List.take_left]
  · exact absurd rfl h

/-- A sign gives its mark. -/
theorem gives_sign (w : String) :
    Gives grammar (.lexeme .mark (oneOf [w])) (Lone (· = .leaf .mark w.toList)) := by
  refine gives_lexeme (by decide) fun s hs => ?_
  obtain ⟨w', hw', heq⟩ := take_oneOf hs
  rw [heq, List.mem_singleton.mp hw']

/-- A run of characters gives its mark. -/
theorem gives_start (w : String) :
    Gives grammar (.lexeme .mark (exactly w)) (Lone (· = .leaf .mark w.toList)) :=
  gives_lexeme (by decide) fun s hs => by rw [take_exactly hs]

/-! ## Rules of rules -/

variable {Q R : List Tree → Prop} {p q : Tree → Prop}

/-- What a rule gives may be weakened. -/
theorem Gives.imp {r : Rule σ} (h : Gives grammar r Q) (hQR : ∀ ts, Q ts → R ts) :
    Gives grammar r R :=
  fun fuel mode s ts rest hread => hQR ts (h fuel mode s ts rest hread)

/-- Nothing can be said of a rule that reads anything. -/
theorem gives_any (r : Rule σ) : Gives grammar r fun _ => True :=
  fun _ _ _ _ _ _ => trivial

/-- A symbol gives what its rule gives. -/
theorem gives_symbol {s : σ} (h : Gives grammar (grammar s) Q) : Gives grammar (.symbol s) Q := by
  intro fuel mode text ts rest hread
  cases fuel with
  | zero => contradiction
  | succ fuel => exact h fuel mode text ts rest hread

/-- One of several rules gives what all of them give. -/
theorem gives_either {rules : List (Rule σ)} (h : ∀ r ∈ rules, Gives grammar r Q) :
    Gives grammar (.either rules) Q := by
  intro fuel mode s ts rest hread
  cases fuel with
  | zero => contradiction
  | succ fuel =>
    simp only [Rule.read] at hread
    -- Which of the rules was read does not count, so the induction is on the rules.
    induction rules with
    | nil => contradiction
    | cons r rules ih =>
      simp only [Reading.either] at hread
      split at hread
      · next found hfound =>
        exact h r List.mem_cons_self fuel mode s ts rest (hfound.trans hread)
      · exact ih (fun r' hr' => h r' (List.mem_cons_of_mem r hr')) hread

/-- No rules give no trees. -/
theorem gives_sequence_nil : Gives grammar (.sequence []) (· = []) := by
  intro fuel mode s ts rest hread
  cases fuel with
  | zero => contradiction
  | succ fuel =>
    cases hread
    rfl

/-- A sequence gives what its first rule gives, and behind it what the others give. -/
theorem gives_sequence_cons {r : Rule σ} {rules : List (Rule σ)} (hfirst : Gives grammar r Q)
    (hothers : Gives grammar (.sequence rules) R) :
    Gives grammar (.sequence (r :: rules)) fun ts => ∃ us vs, ts = us ++ vs ∧ Q us ∧ R vs := by
  intro fuel mode s ts rest hread
  cases fuel with
  | zero => contradiction
  | succ fuel =>
    simp only [Rule.read, Reading.sequence] at hread
    split at hread
    · next us s' hus =>
      split at hread
      · next vs s'' hvs =>
        cases hread
        exact ⟨us, vs, rfl, hfirst fuel mode s us s' hus, hothers (fuel + 1) mode s' vs _ hvs⟩
      · contradiction
    · contradiction

/-- A sequence of one rule gives what the rule gives. -/
theorem gives_sequence_singleton {r : Rule σ} (h : Gives grammar r Q) :
    Gives grammar (.sequence [r]) Q := by
  refine (gives_sequence_cons h gives_sequence_nil).imp ?_
  rintro ts ⟨us, vs, rfl, hus, rfl⟩
  rwa [List.append_nil]

/-- What the first rule of a sequence gives leads. -/
theorem gives_leads {r : Rule σ} {rules : List (Rule σ)} (h : Gives grammar r (Lone p)) :
    Gives grammar (.sequence (r :: rules)) (Leads p) := by
  refine (gives_sequence_cons h (gives_any _)).imp ?_
  rintro ts ⟨us, vs, rfl, hus, -⟩
  exact hus.leads_append vs

/-- What a rule gives that may be left out leads, or what the next rule gives. -/
theorem gives_leads_optional {r : Rule σ} {rules : List (Rule σ)} (h : Gives grammar r (Lone p))
    (hothers : Gives grammar (.sequence rules) (Leads p)) :
    Gives grammar (.sequence (.optional r :: rules)) (Leads p) := by
  -- Left out, the first rule gives no trees, and what the next rule gives leads.
  have hopt : Gives grammar (.optional r) fun ts => ts = [] ∨ Lone p ts := by
    intro fuel mode s ts rest hread
    cases fuel with
    | zero => contradiction
    | succ fuel =>
      simp only [Rule.read] at hread
      cases hr : Rule.read grammar fuel r mode s with
      | none =>
        rw [hr] at hread
        cases hread
        exact .inl rfl
      | some found =>
        rw [hr] at hread
        exact .inr (h fuel mode s ts rest (hr.trans hread))
  refine (gives_sequence_cons hopt hothers).imp ?_
  rintro ts ⟨us, vs, rfl, rfl | hus, hvs⟩
  · exact hvs
  · exact hus.leads_append vs

/-- A rule whose trees are led by something gives one node. -/
theorem gives_node {k : Kind} {r : Rule σ} (h : Gives grammar r (Leads p)) :
    Gives grammar (.node (.kind k) r) (Lone fun t => t.hasKind k = true) := by
  intro fuel mode s ts rest hread
  cases fuel with
  | zero => contradiction
  | succ fuel =>
    simp only [Rule.read, Option.map_eq_some_iff] at hread
    obtain ⟨⟨us, rest'⟩, hus, heq⟩ := hread
    cases heq
    -- The gap in front stays outside of the node.
    obtain ⟨text, t, inner, rfl, ht, -⟩ := h fuel mode s us _ hus
    rw [Reading.wrap, splitTrivia_gapOf text ht]
    exact ⟨text, _, rfl, rfl, by simp [Shape.build, Tree.hasKind]⟩

end Crossing.Script
