import Crossing.Json.Reader
import Crossing.Text.Blank

/-!
# Settings of stamping

The settings that a build hands over as JSON. A build must not fail because of them, so whatever
cannot be read stands for the defaults.
-/

namespace Crossing.Stamp

/-- The settings of stamping. -/
structure Settings where
  /-- Whether every module is told of. -/
  debug : Bool := false
  /-- The root that the paths in records are relative to, in the place of the given one. -/
  projectRoot : Option String := none
deriving DecidableEq, Inhabited

namespace Settings

/-- The values of a key; a key that occurs twice is refused. -/
def single? (key : String) (fields : List (String × Json)) : Option (Option Json) :=
  match fields.filter (·.1 == key) with
  | [] => some none
  | [(_, value)] => some (some value)
  | _ => none

/-- The settings with the flag that a value gives. -/
def debug? : Option Json → Option Bool
  | none => some false
  | some (.bool b) => some b
  | some _ => none

/-- The root that a value gives. -/
def root? : Option Json → Option (Option String)
  | none | some .null => some none
  | some (.string s) => some (some s)
  | some _ => none

/-- The settings of a JSON value: an object, whose other keys do not count, or an array of at most
two elements. -/
def ofJson? : Json → Option Settings
  | .object fields => do
    return ⟨← debug? (← single? "debug" fields), ← root? (← single? "projectRoot" fields)⟩
  | .array items =>
    if items.length ≤ 2 then do return ⟨← debug? items[0]?, ← root? items[1]?⟩ else none
  | _ => none

/-- The settings that a text gives. Values that do not count may nest in any depth. -/
def ofText (raw : String) : Settings :=
  if (Text.trim raw.toList).isEmpty then {}
  else ((Json.parseWithin? raw.length raw >>= ofJson?).getD {})

end Settings

end Crossing.Stamp
