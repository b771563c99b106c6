/-!
# Notices

What a run tells its user on the side: a level and a message.
-/

namespace Crossing

/-- How much a notice matters. -/
inductive Level where
  | info
  | warn
deriving DecidableEq, Inhabited

/-- The name under which a level is printed. -/
def Level.name : Level → String
  | info => "INFO"
  | warn => "WARN"

/-- Something that a run tells on the side. -/
structure Notice where
  level : Level
  message : String
deriving DecidableEq, Inhabited

end Crossing
