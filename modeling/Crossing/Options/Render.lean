import Crossing.Options.Basic
import Crossing.Text.Quoted

/-!
# Options trees as text

The text of a literal, and what has to be written into a source: for each anchored literal that
gained slots, in the order of the source, the texts of those slots. A slot without a key and a
value of the source that is no object have no text.
-/

namespace Crossing.Options

open Text

variable {α : Type}

/-- The texts in braces, with commas between them. -/
def braces (parts : List String) : String :=
  if parts.isEmpty then "\x7b\x7d" else "\x7b " ++ ", ".intercalate parts ++ " \x7d"

mutual

/-- The text of a value. -/
def Value.render? : Value α → Option String
  | .object _ slots => some (braces (renderSlots slots))
  | .expr text => some text
  | .other => none

/-- The texts of the slots that have one. -/
def renderSlots : List (Slot (Value α)) → List String
  | [] => []
  | ⟨key, value, _⟩ :: rest =>
    match key, value.render? with
    | some key, some text => (Quoted.key key ++ ": " ++ text) :: renderSlots rest
    | _, _ => renderSlots rest

end

/-- The text of a literal. -/
def Literal.render (l : Literal α) : String :=
  braces (renderSlots l.slots)

mutual

/-- What a value has gained, with the anchors of its literals. -/
def Value.pending : Value α → List (α × List String)
  | .object (some anchor) slots =>
    let added := renderSlots (slots.filter (·.inserted))
    (if added.isEmpty then [] else [(anchor, added)]) ++ pendingSlots slots
  | _ => []

/-- What the slots of the source have gained. -/
def pendingSlots : List (Slot (Value α)) → List (α × List String)
  | [] => []
  | ⟨_, value, inserted⟩ :: rest =>
    (if inserted then [] else value.pending) ++ pendingSlots rest

end

/-- What a literal has gained. -/
def Literal.pending (l : Literal α) : List (α × List String) :=
  (Value.object l.anchor l.slots).pending

end Crossing.Options
