/-!
# What both ends of the wire know

The names of the header fields that carry boundary metadata, the key of a token in a path, the
separators, and the words that stand for no procedure.
-/

namespace Crossing.Wire

/-- What an operation does. -/
inductive Kind where
  | query
  | mutation
  | subscription
deriving DecidableEq, Inhabited

namespace Kind

/-- The name of a kind. -/
def name : Kind → String
  | query => "query"
  | mutation => "mutation"
  | subscription => "subscription"

/-- The kind that has a name. -/
def ofName? : String → Option Kind
  | "query" => some query
  | "mutation" => some mutation
  | "subscription" => some subscription
  | _ => none

/-- A kind has its name. -/
theorem ofName?_name (k : Kind) : ofName? k.name = some k := by
  cases k <;> rfl

end Kind

namespace Field

/-- The kind of the operation. -/
def kind : String := "x-trpc-boundary-type"

/-- The path of the procedure, or the paths of a batch. -/
def path : String := "x-trpc-boundary-path"

/-- The file of the boundary record. -/
def file : String := "x-trpc-boundary-file"

/-- The line of the boundary record. -/
def line : String := "x-trpc-boundary-line"

/-- The side of the boundary record. -/
def side : String := "x-trpc-boundary-side"

/-- The sort of client that sends the request. -/
def source : String := "x-trpc-source"

end Field

/-- The route that the server listens on. -/
def defaultEndpoint : String := "/api/trpc"

/-- The source that a browser gives. -/
def browserSource : String := "nextjs-react"

/-- The source that a server gives. -/
def serverSource : String := "rsc"

/-- The key of a token in the query of a path. -/
def tokenKey : List Char := "__b".toList

/-- A path that says that none is known. -/
def noPath : List Char := "NONE".toList

/-- The name of the router itself. -/
def routerName : List Char := "trpc".toList

/-- Whether a path names no procedure. -/
def namesNothing (path : List Char) : Bool :=
  path.isEmpty || path == noPath || path == routerName

end Crossing.Wire
