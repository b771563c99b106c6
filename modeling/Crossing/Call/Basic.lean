import Crossing.Boundary.Basic
import Crossing.Text.Search

/-!
# Calls of remote procedures

What counts as a call of a remote procedure, and what is recorded of one. A chain that starts at
a client names a procedure and the method that it is called by. Stamping looks only at the end of
a chain: the method must be one of a fixed list, and what it is called on must be a member of
something.
-/

namespace Crossing

open Text

/-- The way a call talks to the server. -/
inductive Communication where
  | query
  | mutation
  | subscription
  | utilities
  | unknown
deriving DecidableEq, Inhabited

namespace Communication

/-- The name of a way to call. -/
def name : Communication → String
  | query => "query"
  | mutation => "mutation"
  | subscription => "subscription"
  | utilities => "utils"
  | unknown => "unknown"

/-- The way to call that has a name. -/
def ofName? : String → Option Communication
  | "query" => some query
  | "mutation" => some mutation
  | "subscription" => some subscription
  | "utils" => some utilities
  | "unknown" => some unknown
  | _ => none

/-- The communication that the name of a method tells of, whatever the case of its letters. Only
ASCII letters count, as no other letter has one of these words' letters as its lowercase form. -/
def ofMethod (method : String) : Communication :=
  let m := method.toList.map Char.toLower
  if occurs "query".toList m then query
  else if occurs "mutation".toList m || m == "mutate".toList then mutation
  else if occurs "subscription".toList m then subscription
  else if occurs "utils".toList m || "usecontext".toList.isPrefixOf m then utilities
  else unknown

end Communication

/-- The methods that end a call of a remote procedure: plain calls, hooks, and the helpers that
fetch ahead of use. -/
def terminalMethods : List String :=
  ["query", "mutation", "useQuery", "useMutation", "useSuspenseQuery",
    "useSuspenseInfiniteQuery", "useInfiniteQuery", "prefetch", "fetchQuery",
    "fetchInfiniteQuery", "prefetchQuery", "prefetchInfiniteQuery", "ensureQueryData"]

/-- Whether a method is one of those that end a call of a remote procedure. -/
def isTerminal (method : String) : Bool :=
  terminalMethods.contains method

/-- Whether a call is one of a remote procedure, by the method and by whether it is called on a
member of something. -/
def isRemote (method : String) (onMember : Bool) : Bool :=
  onMember && isTerminal method

/-- The names that the client goes by. -/
def clientNames : List String := ["trpc", "api"]

/-- A procedure, and the method that calls it. -/
structure Procedure where
  /-- The path of the procedure, with dots between its segments. -/
  path : String
  method : String
deriving DecidableEq, Inhabited

namespace Procedure

/-- The path of a call on the client itself. -/
def rootPath : String := "(root)"

/-- The path made of the segments between the client and the method. -/
def pathOf (middle : List String) : String :=
  if middle.isEmpty then rootPath else .ofList (join ['.'] (middle.map String.toList))

/-- The procedure that a chain calls, if it starts at the client and no segment is empty. -/
def ofChain? : List String → Option Procedure
  | client :: rest =>
    if clientNames.contains client then
      match rest.getLast? with
      | some method =>
        if rest.any String.isEmpty then none else some ⟨pathOf rest.dropLast, method⟩
      | none => none
    else none
  | [] => none

/-- The expression that the procedure is called by. -/
def expression (p : Procedure) : String :=
  if p.path = rootPath then "trpc." ++ p.method else "trpc." ++ p.path ++ "." ++ p.method

end Procedure

/-- A call in a module. -/
structure CallSite where
  /-- The segments of the callee, the outermost object first. -/
  chain : List String
  file : String
  /-- The line, counted from one. -/
  line : UInt32
deriving DecidableEq, Inhabited

/-- The last segment of the callee. -/
def CallSite.terminal (site : CallSite) : String :=
  site.chain.getLast?.getD ""

/-- A call of a remote procedure, as it is reported. -/
structure Call where
  procedure : Procedure
  communication : Communication
  file : String
  /-- The line, counted from one. -/
  line : UInt32
  boundary : Label
deriving DecidableEq, Inhabited

/-- The call of a remote procedure at a site, in a module of the given label. -/
def Call.ofSite? (boundary : Label) (site : CallSite) : Option Call :=
  (Procedure.ofChain? site.chain).map fun procedure =>
    { procedure, communication := .ofMethod procedure.method, file := site.file,
      line := site.line, boundary }

end Crossing
