import Crossing.Proofs.Options.Atomic
import Mathlib.Data.List.Forall2

/-!
# Options trees only grow

A run of `ensure` puts expressions into a literal one after the other. Some of them are blocked, some
are there already, and some go into levels that earlier ones made. None of this takes anything away
(`ensureAll_append_only`): without what was added, the tree after a run is the tree before it, and
each literal has the slots that it had, in their order, and then slots that were added.

The proof carries a relation between a tree and what it may grow into (`Value.Grows`). One `ensure`
is a step of it, and it is transitive, since what was made here grows into something made here.
-/

namespace Crossing.Options

variable {α : Type}

/-- An expression, and where it is to be put. -/
structure Entry where
  path : List String
  leaf : String
  text : String

/-- Puts expressions into a literal, one after the other. -/
def Literal.ensureAll (entries : List Entry) (l : Literal α) : Literal α :=
  entries.foldl (fun l e => (l.ensure e.path e.leaf e.text).2) l

mutual

/-- A value without all that was added to it. -/
def Value.stripped : Value α → Value α
  | .object anchor slots => .object anchor (strippedSlots slots)
  | .expr text => .expr text
  | .other => .other

/-- Slots without those that were added, and without all that was added to the others. -/
def strippedSlots : List (Slot (Value α)) → Slots α
  | [] => []
  | ⟨key, value, inserted⟩ :: rest =>
    if inserted then strippedSlots rest
    else ⟨key, value.stripped, false⟩ :: strippedSlots rest

end

/-- A literal without all that was added to it. -/
def Literal.stripped (l : Literal α) : Literal α :=
  { l with slots := strippedSlots l.slots }

/-- The value at a place, which is given by the numbers of the slots that lead to it. -/
def Value.inside? : (place : List Nat) → Value α → Option (Value α)
  | [], value => some value
  | n :: place, .object _ slots => slots[n]?.bind fun slot => slot.value.inside? place
  | _ :: _, _ => none

/-- A literal as a value. -/
def Literal.tree (l : Literal α) : Value α :=
  .object l.anchor l.slots

/-! ## What was made here -/

mutual

/-- Whether a value was made here: it is an expression, or a literal without an anchor that holds
nothing else. -/
def Value.Made : Value α → Prop
  | .object anchor slots => anchor = none ∧ SlotsMade slots
  | .expr _ => True
  | .other => False

/-- Whether slots were made here: they have keys, are marked, and have values made here. -/
def SlotsMade : List (Slot (Value α)) → Prop
  | [] => True
  | ⟨key, value, inserted⟩ :: rest =>
    (key.isSome = true ∧ inserted = true ∧ value.Made) ∧ SlotsMade rest

end

/-- Slots made here are marked. -/
theorem SlotsMade.inserted {slots : Slots α} (h : SlotsMade slots) :
    ∀ slot ∈ slots, slot.inserted = true := by
  induction slots with
  | nil => exact fun slot hslot => absurd hslot List.not_mem_nil
  | cons slot rest ih =>
    obtain ⟨⟨-, hinserted, -⟩, hrest⟩ := h
    exact List.forall_mem_cons.mpr ⟨hinserted, ih hrest⟩

/-- The levels of a path that is missing are made here. -/
theorem slotsMade_missing (path : List String) (leaf text : String) :
    SlotsMade (missing path leaf text : Slots α) := by
  induction path with
  | nil => exact ⟨⟨rfl, rfl, trivial⟩, trivial⟩
  | cons key path ih => exact ⟨⟨rfl, rfl, rfl, ih⟩, trivial⟩

/-! ## What a tree may grow into -/

mutual

/-- Whether a value may grow into another one. -/
inductive Value.Grows : (old new : Value α) → Prop
  | object {anchor : Option α} {slots slots' : List (Slot (Value α))}
    (h : SlotsGrow slots slots') : Value.Grows (.object anchor slots) (.object anchor slots')
  | expr (text : String) : Value.Grows (.expr text) (.expr text)
  | other : Value.Grows .other .other

/-- Whether slots may grow into other ones: each stays and its value grows, and what comes behind
the last of them was made here. -/
inductive SlotsGrow : (old new : List (Slot (Value α))) → Prop
  | gained {slots : List (Slot (Value α))} (h : SlotsMade slots) : SlotsGrow [] slots
  | slot {key : Option String} {value value' : Value α} {inserted : Bool}
    {rest rest' : List (Slot (Value α))} (hvalue : Value.Grows value value')
    (hrest : SlotsGrow rest rest') :
    SlotsGrow (⟨key, value, inserted⟩ :: rest) (⟨key, value', inserted⟩ :: rest')

end

mutual

/-- A value may stay as it is. -/
theorem Value.Grows.refl (value : Value α) : value.Grows value := by
  cases value with
  | object anchor slots => exact .object (.refl slots)
  | expr text => exact .expr text
  | other => exact .other

/-- Slots may stay as they are. -/
theorem SlotsGrow.refl (slots : List (Slot (Value α))) : SlotsGrow slots slots := by
  cases slots with
  | nil => exact .gained trivial
  | cons slot rest => exact .slot (.refl slot.value) (.refl rest)

end

mutual

/-- What was made here grows into something made here. -/
theorem Value.Made.grows {old new : Value α} (h : old.Made) (hgrows : old.Grows new) :
    new.Made := by
  cases hgrows with
  | object hslots => exact ⟨h.1, h.2.grows hslots⟩
  | expr text => exact h
  | other => exact h

/-- Slots made here grow into slots made here. -/
theorem SlotsMade.grows {old new : List (Slot (Value α))} (h : SlotsMade old)
    (hgrow : SlotsGrow old new) : SlotsMade new := by
  cases hgrow with
  | gained hnew => exact hnew
  | slot hvalue hrest =>
    obtain ⟨⟨hkey, hinserted, hmade⟩, hold⟩ := h
    exact ⟨⟨hkey, hinserted, hmade.grows hvalue⟩, hold.grows hrest⟩

end

mutual

/-- A value that has grown may grow further. -/
theorem Value.Grows.trans {old mid new : Value α} (h : old.Grows mid) (h' : mid.Grows new) :
    old.Grows new := by
  cases h with
  | object hslots =>
    cases h' with
    | object hslots' => exact .object (hslots.trans hslots')
  | expr text => exact h'
  | other => exact h'

/-- Slots that have grown may grow further. -/
theorem SlotsGrow.trans {old mid new : List (Slot (Value α))} (h : SlotsGrow old mid)
    (h' : SlotsGrow mid new) : SlotsGrow old new := by
  cases h with
  | gained hmade => exact .gained (hmade.grows h')
  | slot hvalue hrest =>
    cases h' with
    | slot hvalue' hrest' => exact .slot (hvalue.trans hvalue') (hrest.trans hrest')

end

/-- Slots may grow behind others that stay. -/
theorem SlotsGrow.behind {slots slots' : Slots α} (h : SlotsGrow slots slots') (front : Slots α) :
    SlotsGrow (front ++ slots) (front ++ slots') := by
  induction front with
  | nil => exact h
  | cons slot front ih => exact .slot (.refl slot.value) ih

/-- A slot that is added was made here. -/
theorem slotsGrow_append (key : String) {value : Value α} (h : value.Made) (slots : Slots α) :
    SlotsGrow slots (append key value slots) := by
  have hadded : SlotsGrow [] [(⟨some key, value, true⟩ : Slot (Value α))] :=
    .gained ⟨⟨rfl, rfl, h⟩, trivial⟩
  simpa [append] using hadded.behind slots

/-- The value of a key may grow where it stands. -/
theorem slotsGrow_replace {key : String} {slots : Slots α} {value value' : Value α}
    (hkey : lookup key slots = some value) (h : value.Grows value') :
    SlotsGrow slots (replace key value' slots) := by
  obtain ⟨front, marked, back, rfl, hback⟩ := exists_of_lookup hkey
  rw [replace_append hback]
  exact SlotsGrow.behind (.slot h (.refl back)) front

/-- Putting an expression into slots lets them grow. -/
theorem slotsGrow_ensure (path : List String) (leaf text : String) (slots : Slots α) :
    SlotsGrow slots (ensure path leaf text slots).2 := by
  induction path generalizing slots with
  | nil =>
    rw [ensure]
    split
    · exact .refl slots
    · have hmade : (Value.expr text : Value α).Made := trivial
      exact slotsGrow_append leaf hmade slots
  | cons key path ih =>
    cases hkey : lookup key slots with
    | none =>
      rw [ensure_of_none hkey]
      have hmade : (Value.object none (missing path leaf text) : Value α).Made :=
        ⟨rfl, slotsMade_missing path leaf text⟩
      exact slotsGrow_append key hmade slots
    | some value =>
      cases value with
      | object anchor inner =>
        rw [ensure_of_object hkey]
        exact slotsGrow_replace hkey (.object (ih inner))
      | expr _ =>
        rw [ensure_of_other hkey rfl]
        exact .refl slots
      | other =>
        rw [ensure_of_other hkey rfl]
        exact .refl slots

namespace Literal

variable (entries : List Entry) (l : Literal α)

/-- A run leaves a literal at its anchor. -/
theorem anchor_ensureAll : (l.ensureAll entries).anchor = l.anchor := by
  induction entries generalizing l with
  | nil => rfl
  | cons e entries ih => exact ih (l.ensure e.path e.leaf e.text).2

/-- A run lets a literal grow. -/
theorem slotsGrow_ensureAll : SlotsGrow l.slots (l.ensureAll entries).slots := by
  induction entries generalizing l with
  | nil => exact .refl l.slots
  | cons e entries ih =>
    exact (slotsGrow_ensure e.path e.leaf e.text l.slots).trans (ih (l.ensure e.path e.leaf e.text).2)

/-- A run goes on where its first part ends. -/
theorem ensureAll_append (first second : List Entry) :
    l.ensureAll (first ++ second) = (l.ensureAll first).ensureAll second :=
  List.foldl_append

/-- A run lets the tree of a literal grow. -/
theorem grows_ensureAll : l.tree.Grows (l.ensureAll entries).tree := by
  rw [tree, tree, anchor_ensureAll]
  exact .object (slotsGrow_ensureAll entries l)

end Literal

/-! ## What stays -/

/-- Without what was added, nothing is left of slots made here. -/
theorem strippedSlots_of_made {slots : Slots α} (h : SlotsMade slots) :
    strippedSlots slots = [] := by
  induction slots with
  | nil => rfl
  | cons slot rest ih =>
    obtain ⟨⟨-, hinserted, -⟩, hrest⟩ := h
    rw [strippedSlots, if_pos hinserted, ih hrest]

mutual

/-- Without what was added, a value is what it was before it grew. -/
theorem Value.Grows.stripped {old new : Value α} (h : old.Grows new) :
    new.stripped = old.stripped := by
  cases h with
  | object hslots => rw [Value.stripped, Value.stripped, hslots.stripped]
  | expr text => rfl
  | other => rfl

/-- Without what was added, slots are what they were before they grew. -/
theorem SlotsGrow.stripped {old new : List (Slot (Value α))} (h : SlotsGrow old new) :
    strippedSlots new = strippedSlots old := by
  cases h with
  | gained hmade => exact strippedSlots_of_made hmade
  | slot hvalue hrest => rw [strippedSlots, strippedSlots, hvalue.stripped, hrest.stripped]

end

/-- Whether two slots have the same key and the same mark. -/
def Slot.Alike {V : Type} (s t : Slot V) : Prop :=
  s.key = t.key ∧ s.inserted = t.inserted

/-- Slots that have grown are those that there were, and then some that were made here. -/
theorem SlotsGrow.exists_gained {slots slots' : Slots α} (h : SlotsGrow slots slots') :
    ∃ kept gained, slots' = kept ++ gained ∧ List.Forall₂ Slot.Alike kept slots ∧
      SlotsMade gained := by
  induction slots generalizing slots' with
  | nil =>
    cases h with
    | gained hmade => exact ⟨[], slots', rfl, .nil, hmade⟩
  | cons slot rest ih =>
    cases h with
    | @slot key value value' inserted _ rest' hvalue hrest =>
      obtain ⟨kept, gained, rfl, hkept, hgained⟩ := ih hrest
      exact ⟨⟨key, value', inserted⟩ :: kept, gained, rfl, .cons ⟨rfl, rfl⟩ hkept, hgained⟩

/-- The slot with a number stays, and its value grows. -/
theorem SlotsGrow.getElem? {slots slots' : Slots α} (h : SlotsGrow slots slots') {n : Nat}
    {slot : Slot (Value α)} (hslot : slots[n]? = some slot) :
    ∃ slot', slots'[n]? = some slot' ∧ slot'.Alike slot ∧ slot.value.Grows slot'.value := by
  induction slots generalizing slots' n with
  | nil => contradiction
  | cons first rest ih =>
    cases h with
    | slot hvalue hrest =>
      cases n with
      | zero =>
        cases hslot
        exact ⟨_, rfl, ⟨rfl, rfl⟩, hvalue⟩
      | succ n => exact ih hrest hslot

/-- The value at a place stays there, and grows. -/
theorem Value.Grows.inside? {old new value : Value α} (h : old.Grows new) {place : List Nat}
    (hvalue : old.inside? place = some value) :
    ∃ value', new.inside? place = some value' ∧ value.Grows value' := by
  induction place generalizing old new with
  | nil =>
    cases hvalue
    exact ⟨new, rfl, h⟩
  | cons n place ih =>
    cases h with
    | object hslots =>
      obtain ⟨slot, hslot, hvalue⟩ := Option.bind_eq_some_iff.mp hvalue
      obtain ⟨slot', hslot', -, hgrows⟩ := hslots.getElem? hslot
      obtain ⟨value', hvalue', hgrown⟩ := ih hgrows hvalue
      exact ⟨value', by rw [Value.inside?, hslot', Option.bind_some, hvalue'], hgrown⟩
    | expr text => contradiction
    | other => contradiction

/-- Whatever a run puts into a literal: without what was added, the tree is what it was; each literal
of it stays where it was and has its slots, key by key and mark by mark, in front of those that it
gained; and every other value of it is the same. -/
theorem ensureAll_append_only (entries : List Entry) (l : Literal α) :
    (l.ensureAll entries).stripped = l.stripped ∧
      (∀ place anchor slots, l.tree.inside? place = some (.object anchor slots) →
        ∃ kept gained,
          (l.ensureAll entries).tree.inside? place = some (.object anchor (kept ++ gained)) ∧
            List.Forall₂ Slot.Alike kept slots ∧ ∀ slot ∈ gained, slot.inserted = true) ∧
      ∀ place value, l.tree.inside? place = some value → value.isObject = false →
        (l.ensureAll entries).tree.inside? place = some value := by
  have hgrows := l.grows_ensureAll entries
  refine ⟨?_, fun place anchor slots hplace => ?_, fun place value hplace hobject => ?_⟩
  · rw [Literal.stripped, Literal.stripped, l.anchor_ensureAll,
      (l.slotsGrow_ensureAll entries).stripped]
  · obtain ⟨value, hvalue, hobject⟩ := hgrows.inside? hplace
    cases hobject with
    | object hslots =>
      obtain ⟨kept, gained, rfl, hkept, hgained⟩ := hslots.exists_gained
      exact ⟨kept, gained, hvalue, hkept, hgained.inserted⟩
  · obtain ⟨value', hvalue, hgrown⟩ := hgrows.inside? hplace
    cases hgrown with
    | object hslots => contradiction
    | expr text => exact hvalue
    | other => exact hvalue

/-- Expressions that get into a literal that was there, into a level that the first of them made, and
nowhere: one is there already, and one is blocked. -/
def assorted : List Entry :=
  [⟨["trpc", "context"], "__boundary", "X"⟩, ⟨["keep", "y"], "z", "1"⟩, ⟨["keep", "y"], "w", "2"⟩,
    ⟨["trpc", "context"], "__boundary", "Y"⟩, ⟨["keep", "x"], "v", "3"⟩]

/-- A literal below a key that stands twice, and a value that no expression gets into. -/
theorem ensureAll_append_only_shadowed :
    shadowed.tree.inside? [3] = some (.object (some 2) [⟨some "x", .other, false⟩]) ∧
      (shadowed.ensureAll assorted).stripped = shadowed.stripped ∧
      (∃ kept gained, (shadowed.ensureAll assorted).tree.inside? [3] =
          some (.object (some 2) (kept ++ gained)) ∧
        List.Forall₂ Slot.Alike kept [⟨some "x", .other, false⟩] ∧
          ∀ slot ∈ gained, slot.inserted = true) ∧
      (shadowed.ensureAll assorted).tree.inside? [3, 0] = some .other := by
  obtain ⟨hstripped, hliteral, hother⟩ := ensureAll_append_only assorted shadowed
  exact ⟨rfl, hstripped, hliteral [3] _ _ rfl, hother [3, 0] _ rfl rfl⟩

end Crossing.Options
