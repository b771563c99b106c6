import Crossing.Options.Render

/-!
# What putting an expression into an options tree adds

A literal of a source gains one slot, and only one of its literals gains it (`pending_ensure`): the
innermost one that the keys of the path lead to, which has no slot for the next key. `target?` finds
this literal and the text of the slot.
-/

namespace Crossing.Options

open Text

variable {α : Type}

mutual

/-- Whether a value is one of a source: its literals have anchors, and nothing was added. -/
def Value.Original : Value α → Prop
  | .object anchor slots => anchor.isSome = true ∧ SlotsOriginal slots
  | .expr _ => True
  | .other => True

/-- Whether slots are those of a source. -/
def SlotsOriginal : List (Slot (Value α)) → Prop
  | [] => True
  | ⟨_, value, inserted⟩ :: rest => inserted = false ∧ value.Original ∧ SlotsOriginal rest

end

/-- The text of a value below levels of keys. -/
def nestedText : List String → String → String
  | [], text => text
  | key :: path, text => braces [Quoted.key key ++ ": " ++ nestedText path text]

/-- The literal that gains a slot when an expression is put at the end of a path, by its anchor, and
the text of the slot. -/
def target? (text : String) : List String → Value α → Option (α × String)
  | key :: path, .object (some anchor) slots =>
    match lookup key slots with
    | none => some (anchor, Quoted.key key ++ ": " ++ nestedText path text)
    | some value => target? text path value
  | _, _ => none

/-- The slots that stand for a path that is missing. -/
def missing : (path : List String) → (leaf text : String) → Slots α
  | [], leaf, text => [⟨some leaf, .expr text, true⟩]
  | key :: path, leaf, text => [⟨some key, .object none (missing path leaf text), true⟩]

/-- A path that is missing is made. -/
theorem ensure_nil (path : List String) (leaf text : String) :
    ensure path leaf text ([] : Slots α) = (.inserted, missing path leaf text) := by
  induction path with
  | nil => rfl
  | cons key path ih =>
    rw [ensure, lookup, ih]
    rfl

/-- The text of the slots that stand for a missing path. -/
theorem renderSlots_missing (path : List String) (leaf text : String) :
    ∃ key rest, path ++ [leaf] = key :: rest ∧ renderSlots (missing path leaf text : Slots α) =
      [Quoted.key key ++ ": " ++ nestedText rest text] := by
  induction path with
  | nil => exact ⟨leaf, [], rfl, rfl⟩
  | cons key path ih =>
    obtain ⟨key', rest, hpath, hrender⟩ := ih
    refine ⟨key, path ++ [leaf], rfl, ?_⟩
    simp only [missing, renderSlots, Value.render?, hrender, hpath, nestedText]

mutual

/-- A value of a source has gained nothing. -/
theorem pending_original {value : Value α} (h : value.Original) : value.pending = [] := by
  cases value with
  | object anchor slots =>
    obtain ⟨anchor, rfl⟩ := Option.isSome_iff_exists.mp h.1
    obtain ⟨hadded, hpending⟩ := pendingSlots_original h.2
    simp [Value.pending, hadded, hpending, renderSlots]
  | expr text => rfl
  | other => rfl

/-- The slots of a source have gained nothing. -/
theorem pendingSlots_original {slots : List (Slot (Value α))} (h : SlotsOriginal slots) :
    slots.filter (·.inserted) = [] ∧ pendingSlots slots = [] := by
  cases slots with
  | nil => exact ⟨rfl, rfl⟩
  | cons slot rest =>
    obtain ⟨key, value, inserted⟩ := slot
    obtain ⟨rfl, hvalue, hrest⟩ := h
    obtain ⟨hadded, hpending⟩ := pendingSlots_original hrest
    exact ⟨by simp [hadded], by simp [pendingSlots, hpending, pending_original hvalue]⟩

end

/-- The value of a key in a source is one of the source. -/
theorem original_of_lookup {key : String} {slots : Slots α} (h : SlotsOriginal slots)
    {value : Value α} (hvalue : lookup key slots = some value) : value.Original := by
  induction slots with
  | nil => exact absurd hvalue (by simp [lookup])
  | cons slot rest ih =>
    obtain ⟨k, v, inserted⟩ := slot
    obtain ⟨-, hv, hrest⟩ := h
    rw [lookup, Option.or_eq_some_iff] at hvalue
    rcases hvalue with hvalue | ⟨-, hvalue⟩
    · exact ih hrest hvalue
    · split at hvalue
      · cases hvalue
        exact hv
      · contradiction

/-- Slots of a source of which one has another value have gained what this value has gained. -/
theorem pending_replace {key : String} {slots : Slots α} (h : SlotsOriginal slots)
    (hkey : hasKey key slots = true) (value : Value α) :
    (replace key value slots).filter (·.inserted) = [] ∧
      pendingSlots (replace key value slots) = value.pending := by
  induction slots with
  | nil => exact absurd hkey (by simp [hasKey, lookup])
  | cons slot rest ih =>
    obtain ⟨k, v, inserted⟩ := slot
    obtain ⟨rfl, hv, hrest⟩ := h
    obtain ⟨hadded, hpending⟩ := pendingSlots_original hrest
    rw [replace]
    split
    · exact ⟨by simp [hadded], by simp [pendingSlots, hpending]⟩
    · next hlater =>
      -- If no later slot had the key, this one would be the last that has it.
      have hkeyRest : hasKey key rest = true := by
        simp only [hasKey, lookup, Option.isSome_or, Bool.or_eq_true] at hkey
        rcases hkey with hkey | hkey
        · exact hkey
        · split at hkey
          · next hk => simpa [hk] using hlater
          · contradiction
      obtain ⟨hadded, hpending⟩ := ih hrest hkeyRest
      exact ⟨by simp [hadded], by simp [pendingSlots, hpending, pending_original hv]⟩

/-- A literal of a source to which one slot is added has gained this slot. -/
theorem pending_append {slots : Slots α} (h : SlotsOriginal slots) (anchor : α) {key : String}
    {value : Value α} {text : String} (hvalue : value.render? = some text) :
    (Value.object (some anchor) (append key value slots)).pending =
      [(anchor, [Quoted.key key ++ ": " ++ text])] := by
  obtain ⟨hadded, -⟩ := pendingSlots_original h
  have hslots : pendingSlots (append key value slots) = [] := by
    unfold append
    clear hadded
    induction slots with
    | nil => rfl
    | cons slot rest ih =>
      obtain ⟨k, v, inserted⟩ := slot
      obtain ⟨rfl, hv, hrest⟩ := h
      rw [List.cons_append, pendingSlots, ih hrest]
      simp [pending_original hv]
  -- The slot that is added is the only one, and nothing is pending below the others.
  have hgained : renderSlots ((append key value slots).filter (·.inserted)) =
      [Quoted.key key ++ ": " ++ text] := by
    rw [append, List.filter_append, hadded]
    simp [renderSlots, hvalue]
  rw [Value.pending, hgained, hslots]
  rfl

/-- Putting an expression at the end of a path adds the slot that `target?` finds, and it fails
exactly if none is found. -/
theorem pending_ensure (path : List String) (leaf text : String) {slots : Slots α}
    (h : SlotsOriginal slots) (anchor : α) :
    match target? text (path ++ [leaf]) (.object (some anchor) slots) with
    | some (place, slot) => (ensure path leaf text slots).1 = .inserted ∧
      (Value.object (some anchor) (ensure path leaf text slots).2).pending = [(place, [slot])]
    | none => (ensure path leaf text slots).1 ≠ .inserted := by
  induction path generalizing slots anchor with
  | nil =>
    rw [ensure, List.nil_append, target?]
    cases hleaf : lookup leaf slots with
    | none =>
      have habsent : hasKey leaf slots = false := by simp [hasKey, hleaf]
      rw [habsent]
      exact ⟨rfl, pending_append h anchor rfl⟩
    | some value =>
      have hpresent : hasKey leaf slots = true := by simp [hasKey, hleaf]
      rw [hpresent]
      exact Outcome.noConfusion
  -- On the way down, a missing key gets all of the rest of the path, and a literal is gone into.
  | cons key path ih =>
    rw [ensure, List.cons_append, target?]
    cases hkey : lookup key slots with
    | none =>
      obtain ⟨next, rest, hpath, hrender⟩ := renderSlots_missing (α := α) path leaf text
      refine ⟨by rw [ensure_nil], ?_⟩
      have htext : (Value.object none (missing path leaf text) : Value α).render? =
          some (nestedText (path ++ [leaf]) text) := by
        rw [Value.render?, hrender, hpath]
        rfl
      dsimp only
      rw [ensure_nil]
      exact pending_append h anchor htext
    | some value =>
      have horiginal := original_of_lookup h hkey
      have hpresent : hasKey key slots = true := by simp [hasKey, hkey]
      cases value with
      | object inner innerSlots =>
        obtain ⟨inner, rfl⟩ := Option.isSome_iff_exists.mp horiginal.1
        have hinner := ih horiginal.2 inner
        dsimp only at hinner ⊢
        split at hinner
        · obtain ⟨houtcome, hpending⟩ := hinner
          refine ⟨houtcome, ?_⟩
          obtain ⟨hadded, hrest⟩ := pending_replace h hpresent
            (.object (some inner) (ensure path leaf text innerSlots).2)
          rw [Value.pending, hadded, hrest, hpending]
          rfl
        · exact hinner
      | expr text => cases path <;> exact Outcome.noConfusion
      | other => cases path <;> exact Outcome.noConfusion

end Crossing.Options
