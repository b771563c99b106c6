import Crossing.Script.Reader

/-!
# What is read is the text

Reading loses nothing: the trees that a rule reads and the rest that it leaves are the text that it
was given, whatever the grammar. So a script is the text of its tree, and a position in the tree is
one in the text.
-/

namespace Crossing.Script

open Crossing.Script.Tree

/-- Whatever is read of a text, the trees and the rest together are the text. -/
def Reading.Keeps (s : List Char) (r : Reading) : Prop :=
  ∀ ts rest, r = some (ts, rest) → textOf ts ++ rest = s

/-- The text of trees is the text of all but the last one and then that of the last one. -/
theorem textOf_dropLast {ts : List Tree} {last : Tree} (h : ts.getLast? = some last) :
    textOf ts.dropLast ++ last.text = textOf ts := by
  obtain ⟨before, rfl⟩ := List.getLast?_eq_some_iff.mp h
  simp [textOf_append, textOf]

/-- A node has the text of the trees that it is built of. -/
theorem Shape.text_build (shape : Shape) (ts : List Tree) :
    (shape.build ts).text = textOf ts := by
  cases shape with
  | kind k => simp [build, text]
  | operation =>
    simp only [build]
    split
    · next operand h =>
      rw [Operation.text_apply, textOf_dropLast h]
    · next h => simp [List.getLast?_eq_none_iff.mp h, text, textOf]

namespace Reading

/-- A reading that fails has no text to keep. -/
theorem keeps_none (s : List Char) : Keeps s none := fun _ _ h => nomatch h

/-- Blanks have the text that was read for them. -/
theorem textOf_triviaLeaf (n : Nat) (s : List Char) : textOf (triviaLeaf n s) = s.take n := by
  unfold triviaLeaf
  split <;> simp_all [textOf, text]

/-- A leaf keeps the text. -/
theorem keeps_leaf (before : List Tree) (kind : Leaf) (n : Nat) (s : List Char) :
    Keeps (textOf before ++ s) (leaf before kind n s) := by
  intro ts rest h
  unfold leaf at h
  split at h
  · contradiction
  · cases h
    simp [textOf_append, textOf, text]

/-- A sequence of rules keeps the text if they do. -/
theorem keeps_sequence {ρ : Type} {read : ρ → List Char → Reading}
    (hread : ∀ r s, Keeps s (read r s)) (rules : List ρ) (s : List Char) :
    Keeps s (sequence read rules s) := by
  induction rules generalizing s with
  | nil => intro ts rest h; cases h; rfl
  | cons r rules ih =>
    intro ts rest h
    simp only [sequence] at h
    split at h
    · next first s' hfirst =>
      split at h
      · next others s'' hothers =>
        cases h
        rw [textOf_append, List.append_assoc, ih s' _ _ hothers, hread r s _ _ hfirst]
      · contradiction
    · contradiction

/-- One of several rules keeps the text if they do. -/
theorem keeps_either {ρ : Type} {read : ρ → List Char → Reading}
    (hread : ∀ r s, Keeps s (read r s)) (rules : List ρ) (s : List Char) :
    Keeps s (either read rules s) := by
  induction rules with
  | nil => exact keeps_none s
  | cons r rules ih =>
    intro ts rest h
    simp only [either] at h
    split at h
    · next found hfound => exact hread r s _ _ (hfound.trans h)
    · exact ih _ _ h

/-- A repeated rule keeps the text if it does. -/
theorem keeps_many {read : List Char → Reading} (hread : ∀ s, Keeps s (read s)) (n : Nat)
    (before : List Tree) (s : List Char) : Keeps (textOf before ++ s) (many read n before s) := by
  induction n generalizing before s with
  | zero => intro ts rest h; cases h; rfl
  | succ n ih =>
    intro ts rest h
    simp only [many] at h
    split at h
    · cases h; rfl
    · cases h; rfl
    · next first s' hne hfirst =>
      have := ih _ _ _ _ h
      rw [this, textOf_append, List.append_assoc, hread s _ _ hfirst]

/-- The blanks in front and the other trees have the text of the trees. -/
theorem textOf_splitTrivia (ts : List Tree) :
    textOf (splitTrivia ts).1 ++ textOf (splitTrivia ts).2 = textOf ts := by
  rw [← textOf_append]
  simp [splitTrivia]

/-- A node around trees has their text. -/
theorem textOf_wrap (shape : Shape) (ts : List Tree) : textOf (wrap shape ts) = textOf ts := by
  unfold wrap
  split
  · rfl
  · next before inner _ h =>
    rw [← textOf_splitTrivia ts, h, textOf_append]
    simp [textOf, Shape.text_build]

/-- The tail of a chain keeps the text. -/
theorem tail_keeps {ρ : Type} {read : ρ → List Char → Reading} (hread : ∀ r s, Keeps s (read r s))
    {base : Tree} {s : List Char} {tails : List (Shape × (Tree → Bool) × ρ)} {shape : Shape}
    {ts : List Tree} {rest : List Char} (h : tail read base s tails = some (shape, ts, rest)) :
    textOf ts ++ rest = s := by
  induction tails with
  | nil => contradiction
  | cons t tails ih =>
    obtain ⟨shape', follows, r⟩ := t
    simp only [tail] at h
    split at h
    · exact ih h
    · exact ih h
    · next ts' rest' _ hr =>
      cases h
      split at hr
      · exact hread r s _ _ hr
      · contradiction

/-- A chain keeps the text while it grows. -/
theorem grow_keeps {ρ : Type} {read : ρ → List Char → Reading} (hread : ∀ r s, Keeps s (read r s))
    (tails : List (Shape × (Tree → Bool) × ρ)) (n : Nat) (base : Tree) (s : List Char) :
    (grow read tails n base s).1.text ++ (grow read tails n base s).2 = base.text ++ s := by
  induction n generalizing base s with
  | zero => rfl
  | succ n ih =>
    simp only [grow]
    split
    · next shape ts s' h =>
      rw [ih, Shape.text_build, textOf, List.append_assoc, tail_keeps hread h]
    · rfl

/-- A chain keeps the text if its head and its tails do. -/
theorem keeps_chain {ρ : Type} {read : ρ → List Char → Reading} (hread : ∀ r s, Keeps s (read r s))
    (n : Nat) (tails : List (Shape × (Tree → Bool) × ρ)) {head : Reading} {s : List Char}
    (hhead : Keeps s head) : Keeps s (chain read n tails head) := by
  intro ts rest h
  unfold chain at h
  split at h
  · next first s' =>
    split at h
    · next base hbase =>
      cases h
      rw [← hhead _ _ rfl, ← textOf_dropLast hbase, textOf_append]
      simp only [textOf, List.append_nil, List.append_assoc]
      rw [grow_keeps hread]
    · contradiction
  · contradiction

end Reading

/-- What a rule reads of a text, and the rest, are the text. -/
theorem Rule.keeps_read {σ : Type} (grammar : σ → Rule σ) (fuel : Nat) (rule : Rule σ) (mode : Mode)
    (s : List Char) : Reading.Keeps s (Rule.read grammar fuel rule mode s) := by
  induction fuel generalizing rule mode s with
  | zero => exact Reading.keeps_none s
  | succ fuel ih =>
    have nothing : Reading.Keeps s (some ([], s)) := fun _ _ h => by cases h; rfl
    cases rule with
    | lexeme kind l =>
      have h := Reading.keeps_leaf (Reading.triviaLeaf (trivia s) s) kind
        (l (s.drop (trivia s))) (s.drop (trivia s))
      rwa [Reading.textOf_triviaLeaf, List.take_append_drop] at h
    | glued kind l => exact Reading.keeps_leaf [] kind (l s) s
    | test p =>
      simp only [read]
      split
      · exact nothing
      · exact Reading.keeps_none s
    | sequence rules => exact Reading.keeps_sequence (fun r s => ih r mode s) rules s
    | either rules => exact Reading.keeps_either (fun r s => ih r mode s) rules s
    | many r => exact Reading.keeps_many (fun s => ih r mode s) fuel [] s
    | «optional» r =>
      intro ts rest h
      simp only [read] at h
      cases hr : Rule.read grammar fuel r mode s with
      | none => rw [hr] at h; exact nothing _ _ h
      | some found => rw [hr] at h; exact ih r mode s _ _ (hr.trans h)
    | ahead r =>
      simp only [read]
      split
      · exact nothing
      · exact Reading.keeps_none s
    | without r =>
      simp only [read]
      split
      · exact Reading.keeps_none s
      · exact nothing
    | symbol σ => exact ih (grammar σ) mode s
    | node shape r =>
      intro ts rest h
      simp only [read, Option.map_eq_some_iff] at h
      obtain ⟨⟨ts', rest'⟩, hr, heq⟩ := h
      cases heq
      rw [Reading.textOf_wrap]
      exact ih r mode s _ _ hr
    | chain head tails =>
      exact Reading.keeps_chain (fun r s => ih r mode s) fuel tails (ih head mode s)
    | within change r => exact ih r (change mode) s

/-- A script is the text of its tree. -/
theorem text_parse? {d : Dialect} {s : List Char} {script : Tree} (h : parse? d s = some script) :
    script.text = s := by
  unfold parse? at h
  split at h
  · next ts rest hread =>
    split at h
    · next hrest =>
      cases h
      have := Rule.keeps_read _ _ _ _ _ _ _ hread
      rw [text, textOf_append, Reading.textOf_triviaLeaf, List.take_length, this]
    · contradiction
  · contradiction

end Crossing.Script
