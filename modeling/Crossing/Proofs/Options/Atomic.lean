import Crossing.Proofs.Options.Plain
import Crossing.Proofs.Options.Target

/-!
# What becomes of an expression that is put into an options tree

`ensure` makes the levels of a path on its way down, before it is known what is at the end. Whether
the expression gets there can nevertheless be seen in the tree as it was (`ensure_atomic`): it is
blocked exactly if a key on the path has a value that is no object, and it is there already exactly
if the innermost object has its key. In both cases no level has been made, since below a new level
nothing can block and no key is there. In all other cases the expression is found at the end of the
path, and what keys lead to elsewhere is what they led to before.
-/

namespace Crossing.Options

variable {α : Type}

/-- The value of the last slot of a key. -/
def last? (key : String) (slots : Slots α) : Option (Value α) :=
  (slots.filter (·.key == some key)).getLast?.map (·.value)

/-- The value that keys lead to, one inside of the other. -/
def Value.at? : (keys : List String) → (value : Value α) → Option (Value α)
  | [], value => some value
  | key :: keys, .object _ slots => (last? key slots).bind (Value.at? keys)
  | _ :: _, _ => none

/-- Whether a value is an object literal. -/
def Value.isObject : Value α → Bool
  | .object _ _ => true
  | _ => false

namespace Literal

/-- The value that keys lead to in a literal. -/
def at? (keys : List String) (l : Literal α) : Option (Value α) :=
  (Value.object l.anchor l.slots).at? keys

/-- Whether a key on a path leads to a value that is no object. -/
def Blocks (path : List String) (l : Literal α) : Prop :=
  ∃ front value, front <+: path ∧ l.at? front = some value ∧ value.isObject = false

/-- Whether all keys of a path lead to objects, and the innermost one has a further key. -/
def Holds (path : List String) (leaf : String) (l : Literal α) : Prop :=
  ∃ anchor slots, l.at? path = some (.object anchor slots) ∧ ∃ slot ∈ slots, slot.key = some leaf

end Literal

/-! ## The last slot of a key -/

/-- The value of a key is that of its last slot. -/
theorem lookup_eq_last? (key : String) (slots : Slots α) : lookup key slots = last? key slots := by
  induction slots with
  | nil => rfl
  | cons slot rest ih =>
    obtain ⟨k, value, inserted⟩ := slot
    rw [lookup, ih, last?, last?, List.filter_cons]
    by_cases hk : k = some key
    · simp only [hk, beq_self_eq_true, if_true, List.getLast?_cons]
      cases (rest.filter (·.key == some key)).getLast? <;> rfl
    · simp [hk]

/-- A literal has a key exactly if one of its slots has it. -/
theorem hasKey_iff {key : String} {slots : Slots α} :
    hasKey key slots = true ↔ ∃ slot ∈ slots, slot.key = some key := by
  rw [hasKey, lookup_eq_last?, last?, Option.isSome_map, List.getLast?_isSome, ne_eq,
    List.filter_eq_nil_iff]
  simp

/-- What is at keys in an object is what is at the other keys in the value of the first one. -/
theorem Value.at?_cons (key : String) (keys : List String) (anchor : Option α) (slots : Slots α) :
    (Value.object anchor slots).at? (key :: keys) = (lookup key slots).bind (Value.at? keys) := by
  rw [Value.at?, lookup_eq_last?]

/-- A slot that is added is the last one of its key. -/
theorem lookup_append_self (key : String) (value : Value α) (slots : Slots α) :
    lookup key (append key value slots) = some value := by
  simp [lookup_eq_last?, last?, append, List.filter_append]

/-- A slot that is added is none of another key. -/
theorem lookup_append_of_ne {key other : String} (hne : other ≠ key) (value : Value α)
    (slots : Slots α) : lookup other (append key value slots) = lookup other slots := by
  simp [lookup_eq_last?, last?, append, List.filter_append, Ne.symm hne]

/-- The value of another key stays. -/
theorem lookup_replace_of_ne {key other : String} (hne : other ≠ key) (value : Value α)
    (slots : Slots α) : lookup other (replace key value slots) = lookup other slots := by
  induction slots with
  | nil => rfl
  | cons slot rest ih =>
    rw [replace]
    split
    · next hlast => simp [lookup, hlast.1, Ne.symm hne]
    · rw [lookup, lookup, ih]

/-- The last slot of a key that has a value, between the slots before it and those behind it. -/
theorem exists_of_lookup {key : String} {value : Value α} {slots : Slots α}
    (h : lookup key slots = some value) :
    ∃ front marked back, slots = front ++ ⟨some key, value, marked⟩ :: back ∧
      hasKey key back = false := by
  induction slots with
  | nil => contradiction
  | cons slot rest ih =>
    obtain ⟨k, v, marked⟩ := slot
    rw [lookup, Option.or_eq_some_iff] at h
    rcases h with h | ⟨hrest, h⟩
    · obtain ⟨front, marked', back, rfl, hback⟩ := ih h
      exact ⟨⟨k, v, marked⟩ :: front, marked', back, rfl, hback⟩
    · split at h
      · next hk =>
        cases h
        exact ⟨[], marked, rest, by rw [hk]; rfl, by rw [hasKey, hrest]; rfl⟩
      · contradiction

/-- The value of a key in the place of itself changes nothing. -/
theorem replace_of_lookup {key : String} {value : Value α} {slots : Slots α}
    (h : lookup key slots = some value) : replace key value slots = slots := by
  obtain ⟨front, marked, back, rfl, hback⟩ := exists_of_lookup h
  exact replace_append hback front value value marked

/-! ## What is put at the end of a path -/

/-- The way down goes into the object that the first key of the path leads to. -/
theorem ensure_of_object {key : String} {slots inner : Slots α} {anchor : Option α}
    (h : lookup key slots = some (.object anchor inner)) (path : List String)
    (leaf text : String) :
    ensure (key :: path) leaf text slots =
      ((ensure path leaf text inner).1,
        replace key (.object anchor (ensure path leaf text inner).2) slots) := by
  rw [ensure, h]

/-- A level that is missing is made, with all that is to be in it. -/
theorem ensure_of_none {key : String} {slots : Slots α} (h : lookup key slots = none)
    (path : List String) (leaf text : String) :
    ensure (key :: path) leaf text slots =
      (.inserted, append key (.object none (missing path leaf text)) slots) := by
  rw [ensure, h, ensure_nil]

/-- A value that is no object ends the way. -/
theorem ensure_of_other {key : String} {slots : Slots α} {value : Value α}
    (h : lookup key slots = some value) (hvalue : value.isObject = false) (path : List String)
    (leaf text : String) : ensure (key :: path) leaf text slots = (.blocked, slots) := by
  rw [ensure, h]
  cases value with
  | object anchor inner => contradiction
  | expr _ => rfl
  | other => rfl

/-- Slots that the expression does not get into stay as they were. -/
theorem ensure_of_ne_inserted {path : List String} {leaf text : String} {slots : Slots α}
    (h : (ensure path leaf text slots).1 ≠ .inserted) : (ensure path leaf text slots).2 = slots := by
  induction path generalizing slots with
  | nil =>
    rw [ensure] at h ⊢
    split
    · rfl
    · next habsent => exact absurd (by rw [if_neg habsent]) h
  | cons key path ih =>
    cases hkey : lookup key slots with
    -- A level that is made is never left over: what goes into it arrives.
    | none => exact absurd (by rw [ensure_of_none hkey]) h
    | some value =>
      cases value with
      | object anchor inner =>
        rw [ensure_of_object hkey] at h ⊢
        simp only [ih h]
        exact replace_of_lookup hkey
      | expr _ => rw [ensure_of_other hkey rfl]
      | other => rw [ensure_of_other hkey rfl]

/-! ## When the expression gets to the end of the path -/

/-- A path is blocked at its first key or inside of the object that this key leads to. -/
theorem blocks_cons {key : String} {path : List String} {anchor : Option α} {slots : Slots α} :
    Literal.Blocks (key :: path) ⟨anchor, slots⟩ ↔
      (∃ value, lookup key slots = some value ∧ value.isObject = false) ∨
        ∃ inside inner, lookup key slots = some (.object inside inner) ∧
          Literal.Blocks path ⟨inside, inner⟩ := by
  constructor
  · rintro ⟨front, value, hfront, hvalue, hobject⟩
    rcases List.prefix_cons_iff.mp hfront with rfl | ⟨front, rfl, hrest⟩
    · cases hvalue
      contradiction
    · rw [Literal.at?, Value.at?_cons, Option.bind_eq_some_iff] at hvalue
      obtain ⟨first, hfirst, hvalue⟩ := hvalue
      cases first with
      | object inside inner => exact .inr ⟨inside, inner, hfirst, front, value, hrest, hvalue, hobject⟩
      | expr text => exact .inl ⟨_, hfirst, rfl⟩
      | other => exact .inl ⟨_, hfirst, rfl⟩
  · rintro (⟨value, hvalue, hobject⟩ | ⟨inside, inner, hinner, front, value, hfront, hvalue, hobject⟩)
    · refine ⟨[key], value, List.prefix_append [key] path, ?_, hobject⟩
      rw [Literal.at?, Value.at?_cons, hvalue]
      rfl
    · refine ⟨key :: front, value, List.cons_prefix_cons.mpr ⟨rfl, hfront⟩, ?_, hobject⟩
      rw [Literal.at?, Value.at?_cons, hinner]
      exact hvalue

/-- The innermost object of a path is inside of the object that its first key leads to. -/
theorem holds_cons {key : String} {path : List String} {leaf : String} {anchor : Option α}
    {slots : Slots α} : Literal.Holds (key :: path) leaf ⟨anchor, slots⟩ ↔
      ∃ inside inner, lookup key slots = some (.object inside inner) ∧
        Literal.Holds path leaf ⟨inside, inner⟩ := by
  constructor
  · rintro ⟨far, last, hlast, hleaf⟩
    rw [Literal.at?, Value.at?_cons, Option.bind_eq_some_iff] at hlast
    obtain ⟨first, hfirst, hlast⟩ := hlast
    cases first with
    | object inside inner => exact ⟨inside, inner, hfirst, far, last, hlast, hleaf⟩
    | expr text => cases path <;> cases hlast
    | other => cases path <;> cases hlast
  · rintro ⟨inside, inner, hinner, far, last, hlast, hleaf⟩
    refine ⟨far, last, ?_, hleaf⟩
    rw [Literal.at?, Value.at?_cons, hinner]
    exact hlast

/-- The expression is blocked exactly if a key of the path leads to a value that is no object. -/
theorem ensure_eq_blocked_iff (path : List String) (leaf text : String) (anchor : Option α)
    (slots : Slots α) :
    (ensure path leaf text slots).1 = .blocked ↔ Literal.Blocks path ⟨anchor, slots⟩ := by
  induction path generalizing anchor slots with
  | nil =>
    have houtcome : (ensure [] leaf text slots).1 ≠ .blocked := by
      rw [ensure]
      split <;> exact Outcome.noConfusion
    refine iff_of_false houtcome ?_
    rintro ⟨front, value, hfront, hvalue, hobject⟩
    rw [List.prefix_nil] at hfront
    subst hfront
    cases hvalue
    contradiction
  | cons key path ih =>
    rw [blocks_cons]
    cases hkey : lookup key slots with
    | none =>
      rw [ensure_of_none hkey]
      simp
    | some value =>
      cases value with
      | object inside inner =>
        rw [ensure_of_object hkey, ih inside]
        constructor
        · exact fun h => .inr ⟨inside, inner, rfl, h⟩
        · rintro (⟨value, heq, hobject⟩ | ⟨inside', inner', heq, h⟩) <;> cases heq
          · contradiction
          · exact h
      | expr text' =>
        rw [ensure_of_other hkey rfl]
        exact iff_of_true rfl (.inl ⟨_, rfl, rfl⟩)
      | other =>
        rw [ensure_of_other hkey rfl]
        exact iff_of_true rfl (.inl ⟨_, rfl, rfl⟩)

/-- The expression is there already exactly if the innermost object of the path has its key. -/
theorem ensure_eq_alreadyPresent_iff (path : List String) (leaf text : String) (anchor : Option α)
    (slots : Slots α) : (ensure path leaf text slots).1 = .alreadyPresent ↔
      Literal.Holds path leaf ⟨anchor, slots⟩ := by
  induction path generalizing anchor slots with
  | nil =>
    have hholds : Literal.Holds [] leaf ⟨anchor, slots⟩ ↔ hasKey leaf slots = true := by
      rw [hasKey_iff]
      constructor
      · rintro ⟨far, last, hlast, hleaf⟩
        cases hlast
        exact hleaf
      · exact fun hleaf => ⟨anchor, slots, rfl, hleaf⟩
    rw [hholds, ensure]
    split
    · next hpresent => exact iff_of_true rfl hpresent
    · next habsent => exact iff_of_false Outcome.noConfusion habsent
  | cons key path ih =>
    rw [holds_cons]
    cases hkey : lookup key slots with
    | none =>
      rw [ensure_of_none hkey]
      simp
    | some value =>
      cases value with
      | object inside inner =>
        rw [ensure_of_object hkey, ih inside]
        constructor
        · exact fun h => ⟨inside, inner, rfl, h⟩
        · rintro ⟨inside', inner', heq, h⟩
          cases heq
          exact h
      | expr text' =>
        rw [ensure_of_other hkey rfl]
        simp
      | other =>
        rw [ensure_of_other hkey rfl]
        simp

/-! ## What keys lead to afterwards -/

/-- No keys lead into a value that is no object. -/
theorem Value.at?_of_not_isObject {value : Value α} (h : value.isObject = false)
    {keys : List String} (hne : keys ≠ []) : value.at? keys = none := by
  obtain ⟨key, keys, rfl⟩ := List.exists_cons_of_ne_nil hne
  cases value with
  | object anchor slots => contradiction
  | expr _ => rfl
  | other => rfl

/-- In the levels that were made, the path leads to the expression. -/
theorem at?_missing (path : List String) (leaf text : String) (anchor : Option α) :
    (Value.object anchor (missing path leaf text)).at? (path ++ [leaf]) = some (.expr text) := by
  induction path generalizing anchor with
  | nil => rw [List.nil_append, Value.at?_cons, missing, lookup, if_pos rfl]; rfl
  | cons key path ih =>
    rw [List.cons_append, Value.at?_cons, missing, lookup, if_pos rfl]
    exact ih none

/-- In the levels that were made, no other keys lead anywhere. -/
theorem at?_missing_of_not_prefix {path keys : List String} {leaf : String} (text : String)
    (anchor : Option α) (h : ¬ keys <+: path ++ [leaf]) :
    (Value.object anchor (missing path leaf text)).at? keys = none := by
  induction path generalizing keys anchor with
  | nil =>
    cases keys with
    | nil => exact absurd List.nil_prefix h
    | cons other keys =>
      rw [Value.at?_cons, missing, lookup]
      split
      · next hother =>
        cases hother
        refine Value.at?_of_not_isObject rfl fun hnil => h ?_
        rw [hnil]
        exact List.prefix_rfl
      · rfl
  | cons key path ih =>
    cases keys with
    | nil => exact absurd List.nil_prefix h
    | cons other keys =>
      rw [Value.at?_cons, missing, lookup]
      split
      · next hother =>
        cases hother
        exact ih none fun hkeys => h (List.cons_prefix_cons.mpr ⟨rfl, hkeys⟩)
      · rfl

/-- An expression that was put at the end of a path is found there. -/
theorem at?_ensure {path : List String} {leaf text : String} {anchor : Option α} {slots : Slots α}
    (h : (ensure path leaf text slots).1 = .inserted) :
    (Value.object anchor (ensure path leaf text slots).2).at? (path ++ [leaf]) =
      some (.expr text) := by
  induction path generalizing anchor slots with
  | nil =>
    rw [ensure] at h ⊢
    split at h
    · contradiction
    · next habsent =>
      rw [if_neg habsent, List.nil_append, Value.at?_cons, lookup_append_self]
      rfl
  | cons key path ih =>
    rw [List.cons_append]
    cases hkey : lookup key slots with
    | none =>
      rw [ensure_of_none hkey, Value.at?_cons, lookup_append_self]
      exact at?_missing path leaf text none
    | some value =>
      cases value with
      | object inside inner =>
        have hpresent : hasKey key slots = true := by rw [hasKey, hkey]; rfl
        rw [ensure_of_object hkey] at h ⊢
        rw [Value.at?_cons, lookup_replace hpresent]
        exact ih h
      | expr _ =>
        rw [ensure_of_other hkey rfl] at h
        contradiction
      | other =>
        rw [ensure_of_other hkey rfl] at h
        contradiction

/-- Keys that the path does not run along lead to what they led to before. -/
theorem at?_ensure_of_not_prefix {path keys : List String} {leaf : String} (text : String)
    (anchor : Option α) (slots : Slots α) (h : ¬ keys <+: path ++ [leaf]) :
    (Value.object anchor (ensure path leaf text slots).2).at? keys =
      (Value.object anchor slots).at? keys := by
  induction path generalizing keys anchor slots with
  | nil =>
    rw [ensure]
    split
    · rfl
    · next habsent =>
      cases keys with
      | nil => exact absurd List.nil_prefix h
      | cons other keys =>
        rw [Value.at?_cons, Value.at?_cons]
        by_cases hother : other = leaf
        · -- The new slot holds an expression, into which no further keys lead.
          subst hother
          have hnone : lookup other slots = none := by simpa [hasKey] using habsent
          rw [lookup_append_self, hnone]
          refine Value.at?_of_not_isObject rfl fun hnil => h ?_
          rw [hnil]
          exact List.prefix_rfl
        · rw [lookup_append_of_ne hother]
  | cons key path ih =>
    cases keys with
    | nil => exact absurd List.nil_prefix h
    | cons other keys =>
      have hrest (heq : other = key) : ¬ keys <+: path ++ [leaf] := fun hkeys =>
        h (List.cons_prefix_cons.mpr ⟨heq, hkeys⟩)
      cases hkey : lookup key slots with
      | none =>
        rw [ensure_of_none hkey, Value.at?_cons, Value.at?_cons]
        by_cases hother : other = key
        · rw [hother, lookup_append_self, hkey]
          exact at?_missing_of_not_prefix text none (hrest hother)
        · rw [lookup_append_of_ne hother]
      | some value =>
        cases value with
        | object inside inner =>
          have hpresent : hasKey key slots = true := by rw [hasKey, hkey]; rfl
          rw [ensure_of_object hkey, Value.at?_cons, Value.at?_cons]
          by_cases hother : other = key
          · rw [hother, lookup_replace hpresent, hkey]
            exact ih inside inner (hrest hother)
          · rw [lookup_replace_of_ne hother]
        | expr _ => rw [ensure_of_other hkey rfl]
        | other => rw [ensure_of_other hkey rfl]

/-- The outcome can be seen in the tree as it was, a tree that the expression does not get into stays
as it was, and otherwise the expression is at the end of the path and nothing has changed off the
path. -/
theorem ensure_atomic (path : List String) (leaf text : String) (l : Literal α) :
    ((l.ensure path leaf text).1 = .blocked ↔ l.Blocks path) ∧
      ((l.ensure path leaf text).1 = .alreadyPresent ↔ l.Holds path leaf) ∧
      ((l.ensure path leaf text).1 = .inserted ↔ ¬ l.Blocks path ∧ ¬ l.Holds path leaf) ∧
      ((l.ensure path leaf text).1 ≠ .inserted → (l.ensure path leaf text).2 = l) ∧
      ((l.ensure path leaf text).1 = .inserted →
        (l.ensure path leaf text).2.at? (path ++ [leaf]) = some (.expr text) ∧
          ∀ keys, ¬ keys <+: path ++ [leaf] →
            (l.ensure path leaf text).2.at? keys = l.at? keys) := by
  obtain ⟨anchor, slots⟩ := l
  have hblocked := ensure_eq_blocked_iff path leaf text anchor slots
  have hpresent := ensure_eq_alreadyPresent_iff path leaf text anchor slots
  refine ⟨hblocked, hpresent, ?_, fun h => ?_, fun h => ⟨at?_ensure h, fun keys hkeys => ?_⟩⟩
  · rw [← hblocked, ← hpresent, Literal.ensure]
    cases (ensure path leaf text slots).1 <;> simp
  · exact congrArg (Literal.mk anchor) (ensure_of_ne_inserted h)
  · exact at?_ensure_of_not_prefix text anchor slots hkeys

/-- A literal in which a key stands twice, with a spread and a level that was added before. -/
def shadowed : Literal Nat where
  anchor := some 0
  slots :=
    [⟨some "trpc", .other, false⟩, ⟨none, .other, false⟩,
      ⟨some "trpc", .object (some 1) [⟨some "context", .object none [], true⟩], false⟩,
      ⟨some "keep", .object (some 2) [⟨some "x", .other, false⟩], false⟩]

/-- The last slot of the key counts, so the expression gets into the literal. -/
theorem ensure_atomic_shadowed :
    (shadowed.ensure ["trpc", "context"] "__boundary" "X").1 = .inserted ∧
      (shadowed.ensure ["trpc", "context"] "__boundary" "X").2.at?
        ["trpc", "context", "__boundary"] = some (.expr "X") ∧
      (shadowed.ensure ["trpc", "context"] "__boundary" "X").2.at? ["keep", "x"] =
        shadowed.at? ["keep", "x"] := by
  have houtcome : (shadowed.ensure ["trpc", "context"] "__boundary" "X").1 = .inserted := by decide
  obtain ⟨-, -, -, -, hinserted⟩ :=
    ensure_atomic ["trpc", "context"] "__boundary" "X" shadowed
  obtain ⟨hfound, hframe⟩ := hinserted houtcome
  exact ⟨houtcome, hfound, hframe ["keep", "x"] (by decide)⟩

end Crossing.Options
