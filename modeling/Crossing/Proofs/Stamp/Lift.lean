import Crossing.Proofs.Options.Target
import Crossing.Proofs.Stamp.Stamped

/-!
# Literals of a source as options trees

What the options tree of an object literal says, in terms of the literal: where slots are added
(`anchor?_eq`), which member a key stands for (`lookup_liftSlots`), and so which edit extends the
literal by a record (`extend?_eq`).
-/

namespace Crossing.Stamp

open Script Script.Tree Options

mutual

/-- The options tree of a literal is one of a source. -/
theorem original_liftValue (spot : Spot) (t : Script.Tree) : (liftValue spot t).Original := by
  unfold liftValue
  split
  · next ts =>
    split
    · exact ⟨rfl, original_liftSlots spot ts⟩
    · exact trivial
  · exact trivial

/-- The slots of a literal are those of a source. -/
theorem original_liftSlots (spot : Spot) (ts : List Script.Tree) :
    SlotsOriginal (liftSlots spot ts) := by
  cases ts with
  | nil => exact trivial
  | cons t ts =>
    have hrest := original_liftSlots (spot.after t.text) ts
    unfold liftSlots
    split
    · exact hrest
    · exact hrest
    · exact ⟨rfl, trivial, hrest⟩
    · next members =>
      obtain ⟨hinserted, hvalue⟩ := original_liftPair spot none members
      exact ⟨hinserted, hvalue, hrest⟩
    · exact ⟨rfl, trivial, hrest⟩

/-- The slot of a pair is one of a source. -/
theorem original_liftPair (spot : Spot) (key : Option Script.Tree) (ts : List Script.Tree) :
    (liftPair spot key ts).inserted = false ∧ (liftPair spot key ts).value.Original := by
  match ts with
  | [] => exact ⟨rfl, trivial⟩
  | [t] => exact ⟨rfl, original_liftValue spot t⟩
  | t :: u :: ts =>
    rw [liftPair]
    exact original_liftPair _ _ (u :: ts)

end

/-- There are no members in front of a place if all trees there are passed over. -/
theorem isEmpty_parts (spot : Spot) (ts : List Script.Tree) :
    ((placed spot ts).filter (!·.2.isFiller)).reverse.isEmpty = ts.all (·.isFiller) := by
  induction ts generalizing spot with
  | nil => rfl
  | cons t ts ih =>
    rw [placed, List.all_cons, List.filter_cons]
    cases ht : t.isFiller with
    | true => rw [← ih (spot.after t.text)]; simp
    | false => simp

/-- Slots are added to a literal behind its last member, or behind the sign that stands there. -/
theorem anchor?_eq (spot : Spot) (ts : List Script.Tree) : anchor? spot (.node .object ts) =
    (seat? ts).map fun (before, last, _) =>
      ⟨((spot.after (textOf before)).after last.text).offset, layoutOf before last⟩ := by
  unfold anchor? seat? placedParts
  simp only [Script.Tree.children]
  -- The last two children that are not passed over are the bracket and what stands before it.
  cases hclosing : splitLast? (!·.isFiller) ts with
  | none =>
    have hnone : (placed spot ts).filter (!·.2.isFiller) = [] :=
      filter_placed_eq_nil (p := (!·.isFiller)) (splitLast?_eq_none.mp hclosing)
    rw [hnone]
    rfl
  | some parted =>
    obtain ⟨members, closing, after⟩ := parted
    have hparts := filter_placed_of_splitLast? spot hclosing
    rw [hparts, List.reverse_append]
    cases hlast : splitLast? (!·.isFiller) members with
    | none =>
      have hnone : (placed spot members).filter (!·.2.isFiller) = [] :=
        filter_placed_eq_nil (p := (!·.isFiller)) (splitLast?_eq_none.mp hlast)
      simp [hnone, hlast]
    | some parted =>
      obtain ⟨before, last, gap⟩ := parted
      have hmembers := filter_placed_of_splitLast? spot hlast
      rw [hmembers, List.reverse_append]
      simp only [List.reverse_singleton, List.singleton_append, Option.bind_eq_bind,
        Option.bind_some, hlast, stop, layoutOf, isEmpty_parts]
      split <;> rfl

/-- The key of a pair is its first child that is no blank. -/
theorem key_liftPair (spot : Spot) (key : Option Script.Tree) (ts : List Script.Tree) :
    (liftPair spot key ts).key = match key with
      | some t => key? t
      | none => pairKey? ts := by
  induction ts generalizing spot key with
  | nil => cases key <;> rfl
  | cons t ts ih =>
    cases ts with
    | nil => cases key <;> rfl
    | cons u ts =>
      rw [liftPair, ih]
      cases key with
      | some t => rfl
      | none =>
        rw [pairKey?]
        cases t.isTrivia <;> rfl

/-- The value of a pair is its last child. -/
theorem value_liftPair (spot : Spot) (key : Option Script.Tree) (front : List Script.Tree)
    (value : Script.Tree) : (liftPair spot key (front ++ [value])).value =
      liftValue (spot.after (textOf front)) value := by
  induction front generalizing spot key with
  | nil => rfl
  | cons t front ih =>
    rw [textOf, Spot.after_append, ← ih]
    cases front <;> rfl

/-- The value of a pair is parted from what stands before it. -/
theorem pairParts?_eq_some {t value : Script.Tree} {front : List Script.Tree} :
    pairParts? t = some (front, value) ↔ t = .node .pair (front ++ [value]) := by
  unfold pairParts?
  split
  · next ts =>
    rcases List.eq_nil_or_concat ts with rfl | ⟨front', value', rfl⟩
    · simp [splitLast?, splitFirst?]
    · rw [List.concat_eq_append, splitLast?_concat]
      simp [Prod.ext_iff]
  · next hpair =>
    constructor
    · intro h
      contradiction
    · rintro rfl
      exact absurd rfl (hpair _)

/-- The value of a member that is a slot of a key. -/
def memberValue (spot : Spot) (member : Script.Tree) : Value Anchor :=
  match pairParts? member with
  | some (front, value) => liftValue (spot.after (textOf front)) value
  | none => .other

/-- The value of a pair is that of its slot. -/
theorem memberValue_pair (spot : Spot) (members : List Script.Tree) :
    memberValue spot (.node .pair members) = (liftPair spot none members).value := by
  rcases List.eq_nil_or_concat members with rfl | ⟨front, value, rfl⟩
  · rfl
  · rw [List.concat_eq_append, value_liftPair, memberValue, pairParts?_eq_some.mpr rfl]

/-- A key stands for the last member that is a slot of it. -/
theorem lookup_liftSlots (key : String) (spot : Spot) (ts : List Script.Tree) :
    lookup key (liftSlots spot ts) = (splitLast? (isAt key) ts).map fun (before, member, _) =>
      memberValue (spot.after (textOf before)) member := by
  induction ts generalizing spot with
  | nil => rfl
  | cons t ts ih =>
    -- A later member of the key goes before this one.
    have hrest := ih (spot.after t.text)
    have hlater : ((splitLast? (isAt key) ts).map fun (before, u, after) =>
        (t :: before, u, after)).map (fun (before, member, _) =>
          memberValue (spot.after (textOf before)) member) =
        lookup key (liftSlots (spot.after t.text) ts) := by
      rw [hrest, Option.map_map]
      congr 1
      funext ⟨before, u, after⟩
      simp only [Function.comp_apply, textOf, Spot.after_append]
    rw [splitLast?_cons, Option.map_or, hlater]
    conv_lhs => unfold liftSlots
    generalize liftSlots (spot.after t.text) ts = rest
    split
    · simp [isAt]
    · simp [isAt]
    · next s =>
      rw [List.singleton_append, lookup]
      by_cases hs : some (String.ofList s) = some key <;> simp [isAt, hs, memberValue, pairParts?]
    · next members =>
      rw [List.singleton_append, lookup, key_liftPair]
      by_cases hkey : pairKey? members = some key
      · simp [isAt, hkey, textOf, Spot.after_nil, memberValue_pair]
      · simp [isAt, hkey]
    · next hshorthand hpair =>
      have hnone : isAt key t = false := by
        unfold isAt
        split
        · exact absurd rfl (hshorthand _)
        · exact absurd rfl (hpair _)
        · rfl
      simp [lookup, hnone]

/-- Options that are written anew hold the record. -/
theorem freshOptions_eq (record : String) :
    freshOptions record = nestedText recordPath record := by
  obtain ⟨key, rest, hpath, hrender⟩ := renderSlots_missing (α := Anchor) contextPath recordKey record
  unfold freshOptions Literal.ensure Literal.render
  dsimp only
  rw [ensure_nil, hrender, recordPath, hpath]
  rfl

/-- An object literal is extended by the slot that `target?` finds in its options tree. -/
theorem extend?_eq (spot : Spot) (object : Script.Tree) (record : String) :
    extend? spot object record =
      (target? record recordPath (liftValue spot object)).map fun (anchor, slot) =>
        [anchor.edit [slot]] := by
  -- All values of the source have a place, so the slot that is added is the only one pending.
  have horiginal := original_liftValue spot object
  unfold extend? lift?
  cases hvalue : liftValue spot object with
  | object anchor slots =>
    rw [hvalue] at horiginal
    obtain ⟨anchor, rfl⟩ := Option.isSome_iff_exists.mp horiginal.1
    have hensure := pending_ensure contextPath recordKey record horiginal.2 anchor
    simp only [Option.bind_eq_bind, Option.bind_some, Literal.ensure, Literal.pending, recordPath]
    generalize Options.ensure contextPath recordKey record slots = ensured at hensure ⊢
    obtain ⟨outcome, extended⟩ := ensured
    split at hensure
    · next place slot htarget =>
      obtain ⟨rfl, hpending⟩ := hensure
      rw [htarget]
      simp [hpending]
    · next htarget =>
      rw [htarget]
      cases outcome with
      | inserted => exact absurd rfl hensure
      | alreadyPresent => rfl
      | blocked => rfl
  | expr text => rfl
  | other => rfl

end Crossing.Stamp
