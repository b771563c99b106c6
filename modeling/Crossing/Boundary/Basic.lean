/-!
# Sides and labels

A call crosses the network boundary from one of two sides. A module carries a finer label, which
the side follows from: only a client module is on the client's side.
-/

namespace Crossing

/-- The side of the network that a call comes from. -/
inductive Side where
  | client
  | server
deriving DecidableEq, Inhabited

namespace Side

/-- The name of a side. -/
def name : Side → String
  | client => "client"
  | server => "server"

/-- The side that has a name. -/
def ofName? : String → Option Side
  | "client" => some client
  | "server" => some server
  | _ => none

/-- A side has its name. -/
theorem ofName?_name (s : Side) : ofName? s.name = some s := by
  cases s <;> rfl

end Side

/-- The context that a module runs in. A module with the marks of several has the first. -/
inductive Label where
  | edge
  | client
  /-- A server component of an application directory. -/
  | component
  | unknown
deriving DecidableEq, Inhabited

namespace Label

/-- The name of a label. -/
def name : Label → String
  | edge => "Edge"
  | client => "Client"
  | component => "Server (RSC)"
  | unknown => "Unknown"

/-- The label that has a name. -/
def ofName? : String → Option Label
  | "Edge" => some edge
  | "Client" => some client
  | "Server (RSC)" => some component
  | "Unknown" => some unknown
  | _ => none

/-- A label has its name. -/
theorem ofName?_name (l : Label) : ofName? l.name = some l := by
  cases l <;> rfl

/-- The side that a module of this label is on. -/
def side : Label → Side
  | client => .client
  | _ => .server

end Label

end Crossing
