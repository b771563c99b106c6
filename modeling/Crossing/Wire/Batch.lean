import Crossing.Http.Uri
import Crossing.Text.Percent
import Crossing.Wire.Operation

/-!
# Batches

Several operations as one request. Their paths, with commas between them, are percent-coded as
one segment below the endpoint and sent in the path field too, unless they cannot be a header
value. Of the other fields those are sent that all operations agree on. The method is `POST` if
every operation is a mutation.
-/

namespace Crossing.Wire

open Text Http

/-- Why operations make no request. -/
inductive BatchError where
  | empty
  | invalidUri (uri : String) (cause : UriError)
deriving DecidableEq, Inhabited

/-- What is said of operations that cannot be sent together. -/
def BatchError.message : BatchError → String
  | empty => "Cannot coalesce an empty batch"
  | invalidUri uri cause => "Invalid batch URI: " ++ uri ++ ": " ++ cause.message

namespace Batch

/-- The paths of the operations with commas between them. -/
def paths (ops : List Operation) : List Char :=
  join [','] (ops.map (·.path.toList))

/-- The text of the target: the endpoint without slashes at its end, the coded paths, and the
query that marks a batch. -/
def target (endpoint : String) (ops : List Operation) : String :=
  .ofList (trimEndBy (· == '/') endpoint.toList ++ '/' :: Percent.encode (paths ops)) ++
    "?batch=1"

/-- The fields of the first operation whose values the first values of all others equal. -/
def common (first : Operation) (others : List Operation) : Headers :=
  first.headers.fields.foldl (fun h (name, value) =>
    if others.all (·.headers.get? name == some value) then h.set name value else h) Headers.empty

/-- The header fields of a batch. -/
def headers (first : Operation) (others : List Operation) : Headers :=
  let shared := common first others
  let list : String := .ofList (paths (first :: others))
  match headerValue? list with
  | some value => shared.set Field.path value
  | none => shared.erase Field.path

/-- The method of a batch. -/
def method (ops : List Operation) : String :=
  if ops.all (·.kind = .mutation) then "POST" else "GET"

/-- The request that carries operations to an endpoint. -/
def request (endpoint : String) : List Operation → Except BatchError Request
  | [] => .error .empty
  | first :: others =>
    let ops := first :: others
    match Uri.parse (target endpoint ops) with
    | .ok uri => .ok ⟨method ops, uri, headers first others⟩
    | .error cause => .error (.invalidUri (target endpoint ops) cause)

end Batch

end Crossing.Wire
