import Crossing.Options.Basic

/-!
# Options trees by what they say

A literal without its anchors and without the marks on what was added (`Value.plain`). The expression
that `ensure` puts at the end of a path is a text; here it counts as the value that the text stands
for, which is a parameter. Whatever is put into a literal shows in it (`plain_ensure_ne`).
-/

namespace Crossing.Options

variable {α : Type}

mutual

/-- A value without anchors and marks, where every expression stands for a given value. -/
def Value.plain : (value : Value α) → (denoted : Value Unit) → Value Unit
  | .object _ slots, denoted => .object none (plainSlots slots denoted)
  | .expr _, denoted => denoted
  | .other, _ => .other

/-- The slots without anchors and marks. -/
def plainSlots : (slots : List (Slot (Value α))) → (denoted : Value Unit) → Slots Unit
  | [], _ => []
  | ⟨key, value, _⟩ :: rest, denoted => ⟨key, value.plain denoted, false⟩ :: plainSlots rest denoted

end

/-- A literal without anchors and marks. -/
def Literal.plain (l : Literal α) (denoted : Value Unit) : Slots Unit :=
  plainSlots l.slots denoted

variable (denoted : Value Unit)

/-- Joined slots stand for what the first ones stand for and then the second ones. -/
theorem plainSlots_append (xs ys : Slots α) :
    plainSlots (xs ++ ys) denoted = plainSlots xs denoted ++ plainSlots ys denoted := by
  induction xs with
  | nil => rfl
  | cons x xs ih => rw [List.cons_append, plainSlots, plainSlots, ih, List.cons_append]

/-- A key stands for the same value. -/
theorem lookup_plainSlots (key : String) (xs : Slots α) :
    lookup key (plainSlots xs denoted) = (lookup key xs).map (·.plain denoted) := by
  induction xs with
  | nil => rfl
  | cons x xs ih =>
    rw [plainSlots, lookup, lookup, ih, Option.map_or]
    split <;> rfl

/-- A slot that is added is the last one. -/
theorem plainSlots_appended (key : String) (value : Value α) (xs : Slots α) :
    plainSlots (append key value xs) denoted =
      plainSlots xs denoted ++ [⟨some key, value.plain denoted, false⟩] := by
  rw [append, plainSlots_append]
  rfl

/-! ## The last slot of a key -/

/-- A key that a slot has is a key of the slots. -/
theorem hasKey_append (key : String) (xs : Slots α) (value : Value α) (marked : Bool)
    (ys : Slots α) : hasKey key (xs ++ ⟨some key, value, marked⟩ :: ys) = true := by
  unfold hasKey
  induction xs with
  | nil => simp [lookup]
  | cons x xs ih => simp [lookup, ih]

/-- The last slot of a key gets the value. -/
theorem replace_append {key : String} {ys : Slots α} (hkey : hasKey key ys = false)
    (xs : Slots α) (value value' : Value α) (marked : Bool) :
    replace key value' (xs ++ ⟨some key, value, marked⟩ :: ys) =
      xs ++ ⟨some key, value', marked⟩ :: ys := by
  induction xs with
  | nil => rw [List.nil_append, List.nil_append, replace, if_pos ⟨rfl, hkey⟩]
  | cons x xs ih =>
    have hlater := hasKey_append key xs value marked ys
    rw [List.cons_append, List.cons_append, replace, ih, if_neg]
    rintro ⟨-, hnone⟩
    rw [hlater] at hnone
    contradiction

/-- The value that was put at a key is found there. -/
theorem lookup_replace {key : String} {xs : Slots α} (hkey : hasKey key xs = true)
    (value : Value α) : lookup key (replace key value xs) = some value := by
  induction xs with
  | nil => contradiction
  | cons x xs ih =>
    rw [replace]
    split
    · next hlast =>
      obtain ⟨hk, hrest⟩ := hlast
      have hnone : lookup key xs = none := by simpa [hasKey] using hrest
      rw [lookup, hnone, if_pos hk]
      rfl
    · next hlater =>
      have hrest : hasKey key xs = true := by
        by_cases hk : x.key = some key
        · simpa [hk] using hlater
        · simpa [hasKey, lookup, hk] using hkey
      rw [lookup, ih hrest]
      rfl

/-! ## What is put into a literal shows -/

/-- A literal that an expression was put into is another one. -/
theorem plain_ensure_ne (path : List String) (leaf text : String) {slots : Slots α}
    (h : (ensure path leaf text slots).1 = .inserted) :
    plainSlots (ensure path leaf text slots).2 denoted ≠ plainSlots slots denoted := by
  -- Slots that have got one more are longer than they were.
  have hlonger (key : String) (value : Value α) (xs : Slots α) :
      plainSlots (append key value xs) denoted ≠ plainSlots xs denoted := by
    intro hsame
    have hlength := congrArg List.length hsame
    rw [plainSlots_appended, List.length_append] at hlength
    simp at hlength
  induction path generalizing slots with
  | nil =>
    rw [ensure] at h ⊢
    split at h
    · contradiction
    · next habsent =>
      rw [if_neg habsent]
      exact hlonger _ _ _
  | cons key path ih =>
    rw [ensure] at h ⊢
    cases hkey : lookup key slots with
    | none => exact hlonger _ _ _
    | some value =>
      rw [hkey] at h
      cases value with
      | object anchor inner =>
        -- The value of the key has changed, and so have the slots.
        intro hsame
        have hpresent : hasKey key slots = true := by rw [hasKey, hkey]; rfl
        have hvalues := congrArg (lookup key) hsame
        dsimp only at hvalues
        rw [lookup_plainSlots, lookup_plainSlots, lookup_replace hpresent, hkey] at hvalues
        simp only [Option.map_some, Value.plain] at hvalues
        exact ih h (Value.object.inj (Option.some.inj hvalues)).2
      | expr text => contradiction
      | other => contradiction

end Crossing.Options
