import Crossing.Boundary.Record
import Crossing.Http.Header
import Crossing.Text.Search
import Crossing.Wire.Basic

/-!
# Operations and sessions

An operation is one call on its way out. Annotating it writes its metadata into its headers and,
if it has a boundary record, the record's token into the query of its path. A session numbers its
operations and tells the server what sort of client it is.
-/

namespace Crossing.Wire

open Text Http

/-- A call on its way out. -/
structure Operation where
  id : UInt64
  kind : Kind
  /-- The path of the procedure; after annotation with the token of the record. -/
  path : String
  boundary : Option Boundary.Record
  headers : Headers
deriving DecidableEq, Inhabited

namespace Operation

/-- The path up to its first question mark. -/
def logicalPath (op : Operation) : String :=
  match cut? '?' op.path.toList with
  | some (name, _) => .ofList name
  | none => op.path

/-- The fields with a value in the place of all values of a name, if the text can be a value. -/
def setIfValue (name text : String) (h : Headers) : Headers :=
  match headerValue? text with
  | some value => h.set name value
  | none => h

/-- The query that carries a record. -/
def tokenQuery (r : Boundary.Record) : String :=
  "?" ++ .ofList tokenKey ++ "=" ++ r.token

/-- The operation with its metadata in its headers and on its path. -/
def annotate (op : Operation) : Operation :=
  let logical := op.logicalPath
  let headers := setIfValue Field.path logical (setIfValue Field.kind op.kind.name op.headers)
  match op.boundary with
  | none => { op with headers }
  | some r =>
    { op with
      headers :=
        setIfValue Field.side r.side.name
          (setIfValue Field.line (.ofList (Decimal.ofNat r.line.toNat))
            (setIfValue Field.file r.file headers))
      path := logical ++ tokenQuery r }

end Operation

/-- A client that sends operations. -/
structure Session where
  /-- The sort of client, as a header value. -/
  source : String
  /-- The number of the next operation. Behind the last number of 64 bits comes zero. -/
  next : UInt64
deriving DecidableEq, Inhabited

namespace Session

/-- A session with a source; `none` if the text cannot be a header value. -/
def ofSource? (source : String) : Option Session :=
  (headerValue? source).map (⟨·, 1⟩)

/-- A session in a browser. -/
def browser : Session := ⟨browserSource, 1⟩

/-- A session on a server. -/
def server : Session := ⟨serverSource, 1⟩

/-- The source as a reader sees it, empty if it cannot be read. -/
def readSource (s : Session) : String :=
  if s.source.toList.all isReadable then s.source else ""

/-- The next operation, which carries the source of the session. -/
def operation (kind : Kind) (path : String) (boundary : Option Boundary.Record) (s : Session) :
    Operation × Session :=
  ({ id := s.next, kind, path, boundary, headers := Headers.empty.set Field.source s.source },
    { s with next := s.next + 1 })

end Session

end Crossing.Wire
