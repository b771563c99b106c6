import Crossing.Http.Uri
import Crossing.Wire.Operation

/-!
# The log of a server

The calls that a request carries, as the server makes them out. The path field names them, and
without it the segment of the target below the endpoint. Each call has its own token, if any; the
fields of the request say what the token does not. Whatever is missing or damaged leaves out a
part of an entry and never fails.
-/

namespace Crossing

open Text Http Wire

/-- The runtime of a server. -/
inductive Runtime where
  | node
  | edge
deriving DecidableEq, Inhabited

namespace Runtime

/-- The name of a runtime. -/
def name : Runtime → String
  | node => "node"
  | edge => "edge"

/-- The runtime that an environment variable asks for. -/
def ofValue : Option String → Runtime
  | some "edge" => edge
  | _ => node

end Runtime

namespace Log

/-- What the log of a server depends on. -/
structure Settings where
  endpoint : String := defaultEndpoint
  /-- The source that marks a request of a browser. -/
  clientSource : String := browserSource
  runtime : Runtime := .node
deriving DecidableEq, Inhabited

/-- A call that a request carries. -/
structure Entry where
  runtime : Runtime
  side : Side
  kind : String
  procedure : String
  file : Option String
  line : Option UInt32
deriving DecidableEq, Inhabited

/-- An entry as a line of the log. -/
def Entry.message (e : Entry) : String :=
  "tRPC [" ++ e.runtime.name ++ "][" ++ e.side.name ++ "] [" ++ e.kind ++ "] " ++ e.procedure ++
  match e.file, e.line with
  | some file, some line => " from " ++ file ++ ":" ++ .ofList (Decimal.ofNat line.toNat)
  | some file, none => " from " ++ file
  | none, _ => ""

/-- What the fields of a request say about all of its calls. -/
structure Defaults where
  kind : String
  side : Side
  file : Option String
  line : Option UInt32

/-- What the fields of a request say, and its method where they do not give the kind. -/
def defaults (settings : Settings) (headers : Headers) (method : Option String) : Defaults where
  kind := (headers.read? Field.kind).getD (if method = some "POST" then "mutation" else "query")
  side := (headers.read? Field.side >>= Side.ofName?).getD
    (if headers.read? Field.source = some settings.clientSource then .client else .server)
  file := headers.read? Field.file
  line := headers.read? Field.line >>= fun s => Decimal.toUInt32? s.toList

/-- The list of paths that a target names: the segment after the first place where the endpoint
stands in its path. -/
def listOfUri? (settings : Settings) (uri : Uri) : Option (List Char) := do
  let route := trimEndBy (· == '/') settings.endpoint.toList ++ ['/']
  let segment ← afterFirst? route uri.path.toList
  if segment.isEmpty then none else some (Percent.decode segment)

/-- The list of paths of a request. -/
def list? (settings : Settings) (headers : Headers) (uri : Option Uri) : Option (List Char) :=
  match headers.read? Field.path with
  | some path => if path.toList = noPath then uri >>= listOfUri? settings else some path.toList
  | none => uri >>= listOfUri? settings

/-- The token in a query: the value of the first pair with its key. -/
def token? (query : List Char) : Option (List Char) :=
  ((query.splitOn '&').filterMap (cut? '=')).find? (·.1 == tokenKey) |>.map (·.2)

/-- The entry of one path of the list. -/
def entryOf? (settings : Settings) (d : Defaults) (part : List Char) : Option Entry :=
  let (name, query) := match cut? '?' part with
    | some (name, query) => (name, some query)
    | none => (part, none)
  let procedure := Percent.decode (trim name)
  if namesNothing procedure then none
  else
    let given := match query >>= token? with
      | some token => Boundary.Partial.ofToken (.ofList token)
      | none => ⟨none, none, none⟩
    some
      { runtime := settings.runtime
        side := given.side.getD d.side
        kind := d.kind
        procedure := .ofList procedure
        file := given.file.or d.file
        line := given.line.or d.line }

/-- The calls that a request carries. -/
def resolve (settings : Settings) (headers : Headers) (uri : Option Uri)
    (method : Option String) : List Entry :=
  match list? settings headers uri with
  | none => []
  | some list =>
    if namesNothing list then []
    else (list.splitOn ',').filterMap (entryOf? settings (defaults settings headers method))

end Log

end Crossing
