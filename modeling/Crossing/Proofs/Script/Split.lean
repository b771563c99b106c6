import Crossing.Proofs.Text.Utf8
import Crossing.Script.Tree
import Mathlib.Data.List.Forall2

/-!
# Lists of trees, parted

Members of a list are sought by a property of single trees, from the front (`splitFirst?`) or from
the back (`splitLast?`). What is found is the same, position by position, in two lists that look
alike to the property, and its place in the text is the end of what stands before it.
-/

namespace Crossing.Script

open Text Crossing.Script.Tree

/-- Trees that follow one another, parted at the first one with a property. -/
def splitFirst? (p : Tree → Bool) : List Tree → Option (List Tree × Tree × List Tree)
  | [] => none
  | t :: ts =>
    if p t then some ([], t, ts)
    else (splitFirst? p ts).map fun (before, found, after) => (t :: before, found, after)

/-- Trees that follow one another, parted at the last one with a property. -/
def splitLast? (p : Tree → Bool) (ts : List Tree) : Option (List Tree × Tree × List Tree) :=
  (splitFirst? p ts.reverse).map fun (after, found, before) =>
    (before.reverse, found, after.reverse)

variable {p : Tree → Bool} {ts us before after : List Tree} {t : Tree}

/-- What the first tree with a property is. -/
theorem splitFirst?_eq_some : splitFirst? p ts = some (before, t, after) ↔
    ts = before ++ t :: after ∧ p t = true ∧ ∀ u ∈ before, p u = false := by
  induction ts generalizing before with
  | nil => simp [splitFirst?]
  | cons u ts ih =>
    rw [splitFirst?]
    by_cases hu : p u = true
    · rw [if_pos hu]
      constructor
      · intro h
        cases h
        exact ⟨rfl, hu, fun _ h => absurd h List.not_mem_nil⟩
      · rintro ⟨hts, ht, hbefore⟩
        cases before with
        | nil => cases hts; rfl
        | cons v before =>
          cases hts
          rw [hbefore u List.mem_cons_self] at hu
          contradiction
    · rw [if_neg hu, Option.map_eq_some_iff]
      constructor
      · rintro ⟨⟨before, t, after⟩, h, heq⟩
        cases heq
        obtain ⟨rfl, ht, hbefore⟩ := ih.mp h
        refine ⟨rfl, ht, fun v hv => ?_⟩
        rcases List.mem_cons.mp hv with rfl | hv
        · exact Bool.eq_false_iff.mpr hu
        · exact hbefore v hv
      · rintro ⟨hts, ht, hbefore⟩
        cases before with
        | nil => cases hts; exact absurd ht hu
        | cons v before =>
          cases hts
          exact ⟨(before, t, after),
            ih.mpr ⟨rfl, ht, fun v hv => hbefore v (List.mem_cons_of_mem _ hv)⟩, rfl⟩

/-- No tree with a property is found if there is none. -/
theorem splitFirst?_eq_none : splitFirst? p ts = none ↔ ∀ u ∈ ts, p u = false := by
  induction ts with
  | nil => simp [splitFirst?]
  | cons u ts ih =>
    rw [splitFirst?]
    by_cases hu : p u = true
    · simp [hu]
    · simp [hu, ih]

/-- What the last tree with a property is. -/
theorem splitLast?_eq_some : splitLast? p ts = some (before, t, after) ↔
    ts = before ++ t :: after ∧ p t = true ∧ ∀ u ∈ after, p u = false := by
  rw [splitLast?, Option.map_eq_some_iff]
  constructor
  · rintro ⟨⟨after, t, before⟩, h, heq⟩
    cases heq
    obtain ⟨hts, ht, hafter⟩ := splitFirst?_eq_some.mp h
    refine ⟨?_, ht, fun u hu => hafter u (List.mem_reverse.mp hu)⟩
    rw [← List.reverse_reverse ts, hts]
    simp
  · rintro ⟨rfl, ht, hafter⟩
    refine ⟨(after.reverse, t, before.reverse), splitFirst?_eq_some.mpr ⟨?_, ht, fun u hu =>
      hafter u (List.mem_reverse.mp hu)⟩, by simp⟩
    simp

/-- No last tree with a property is found if there is none. -/
theorem splitLast?_eq_none : splitLast? p ts = none ↔ ∀ u ∈ ts, p u = false := by
  rw [splitLast?, Option.map_eq_none_iff, splitFirst?_eq_none]
  simp only [List.mem_reverse]

/-- The last tree with a property is sought in the rest of a list first. -/
theorem splitLast?_cons (u : Tree) : splitLast? p (u :: ts) =
    ((splitLast? p ts).map fun (before, t, after) => (u :: before, t, after)).or
      (if p u then some ([], u, ts) else none) := by
  -- The first tree of a list is the last one with the property only if no later one has it.
  cases hts : splitLast? p ts with
  | some parted =>
    obtain ⟨before, t, after⟩ := parted
    obtain ⟨rfl, ht, hafter⟩ := splitLast?_eq_some.mp hts
    exact splitLast?_eq_some.mpr ⟨rfl, ht, hafter⟩
  | none =>
    have hnone := splitLast?_eq_none.mp hts
    by_cases hu : p u = true
    · rw [if_pos hu]
      exact splitLast?_eq_some.mpr ⟨rfl, hu, hnone⟩
    · rw [if_neg hu]
      refine splitLast?_eq_none.mpr fun v hv => ?_
      rcases List.mem_cons.mp hv with rfl | hv
      · exact Bool.eq_false_iff.mpr hu
      · exact hnone v hv

/-- A list that is not empty is parted at its last tree. -/
theorem splitLast?_concat (ts : List Tree) (t : Tree) :
    splitLast? (fun _ => true) (ts ++ [t]) = some (ts, t, []) :=
  splitLast?_eq_some.mpr ⟨rfl, rfl, fun _ h => absurd h List.not_mem_nil⟩

/-! ## Lists that look alike -/

/-- Whether two lists that are parted are so at the same place, with related trees at each. -/
def Parted (R : Tree → Tree → Prop) (x y : List Tree × Tree × List Tree) : Prop :=
  List.Forall₂ R x.1 y.1 ∧ R x.2.1 y.2.1 ∧ List.Forall₂ R x.2.2 y.2.2

variable {R : Tree → Tree → Prop}

/-- Related lists are parted at the same place. -/
theorem splitFirst?_rel (hp : ∀ t u, R t u → p t = p u) (h : List.Forall₂ R ts us) :
    Option.Rel (Parted R) (splitFirst? p ts) (splitFirst? p us) := by
  induction h with
  | nil => exact .none
  | @cons t u ts us htu htsus ih =>
    rw [splitFirst?, splitFirst?, hp t u htu]
    split
    · exact .some ⟨.nil, htu, htsus⟩
    · generalize splitFirst? p ts = x, splitFirst? p us = y at ih
      cases ih with
      | none => exact .none
      | some hrel => exact .some ⟨.cons htu hrel.1, hrel.2⟩

/-- Related lists are parted at the same place from the back. -/
theorem splitLast?_rel (hp : ∀ t u, R t u → p t = p u) (h : List.Forall₂ R ts us) :
    Option.Rel (Parted R) (splitLast? p ts) (splitLast? p us) := by
  -- The last one is the first one of the reversed lists, which are related too.
  have hrel := splitFirst?_rel hp (List.rel_reverse h)
  rw [splitLast?, splitLast?]
  generalize splitFirst? p ts.reverse = x, splitFirst? p us.reverse = y at hrel
  cases hrel with
  | none => exact .none
  | some hrel => exact .some ⟨List.rel_reverse hrel.2.2, hrel.2.1, List.rel_reverse hrel.1⟩

/-! ## Places -/

/-- Nothing lies between a position and itself. -/
theorem Spot.after_nil (spot : Spot) : spot.after [] = spot := rfl

/-- The position after two texts is that after the second one from behind the first one. -/
theorem Spot.after_append (spot : Spot) (s t : List Char) :
    spot.after (s ++ t) = (spot.after s).after t := by
  unfold Spot.after
  rw [Utf8.width_append, List.count_append, Nat.add_assoc, Nat.add_assoc]

/-- Trees that follow one another stand where those before them end. -/
theorem placed_append (spot : Spot) (ts us : List Tree) :
    placed spot (ts ++ us) = placed spot ts ++ placed (spot.after (textOf ts)) us := by
  induction ts generalizing spot with
  | nil => simp [placed, textOf, Spot.after, Utf8.width]
  | cons t ts ih =>
    rw [List.cons_append, placed, placed, textOf, ih, Spot.after_append, List.cons_append]

/-- Trees without a property are not among the placed ones with it. -/
theorem filter_placed_eq_nil {spot : Spot} (h : ∀ t ∈ ts, p t = false) :
    (placed spot ts).filter (p ·.2) = [] := by
  induction ts generalizing spot with
  | nil => rfl
  | cons t ts ih =>
    rw [placed, List.filter_cons_of_neg (by simp [h t List.mem_cons_self]),
      ih fun u hu => h u (List.mem_cons_of_mem t hu)]

/-- The first of the placed trees with a property, and those behind it. -/
theorem filter_placed_of_splitFirst? (spot : Spot) (h : splitFirst? p ts = some (before, t, after)) :
    (placed spot ts).filter (p ·.2) = (spot.after (textOf before), t) ::
      (placed ((spot.after (textOf before)).after t.text) after).filter (p ·.2) := by
  obtain ⟨rfl, ht, hbefore⟩ := splitFirst?_eq_some.mp h
  rw [placed_append, List.filter_append, filter_placed_eq_nil hbefore, placed, List.nil_append,
    List.filter_cons, if_pos ht]

/-- The last of the placed trees with a property, and those before it. -/
theorem filter_placed_of_splitLast? (spot : Spot) (h : splitLast? p ts = some (before, t, after)) :
    (placed spot ts).filter (p ·.2) =
      (placed spot before).filter (p ·.2) ++ [(spot.after (textOf before), t)] := by
  obtain ⟨rfl, ht, hafter⟩ := splitLast?_eq_some.mp h
  rw [placed_append, List.filter_append, placed, List.filter_cons, if_pos ht,
    filter_placed_eq_nil hafter]

end Crossing.Script
