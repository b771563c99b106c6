import Crossing.Boundary.Basic
import Crossing.Path
import Crossing.Text.Blank

/-!
# The label of a module

Three marks decide the label, the first of them that a module carries: an exported constant that
asks for the edge runtime, a directive for the client at the start, and a place inside an
application directory. The first two are read off the text and the third off the path.
-/

namespace Crossing.Label

open Text

/-- The text after at least one blank, without further blanks. -/
def afterBlanks? : List Char → Option (List Char)
  | c :: rest => if isBlank c then some (trimStart rest) else none
  | [] => none

/-- Whether the text starts with the word `edge` in quotes. -/
def startsQuotedEdge : List Char → Bool
  | q :: rest =>
    (q == '\'' || q == '"') &&
      match after? "edge".toList rest with
      | some (q' :: _) => q' == '\'' || q' == '"'
      | _ => false
  | [] => false

/-- Whether the text starts with `export const runtime = 'edge'`, in any spacing. -/
def startsEdgeExport (s : List Char) : Bool :=
  let value := do
    let s ← after? "export".toList s >>= afterBlanks?
    let s ← after? "const".toList s >>= afterBlanks?
    let s ← after? "runtime".toList s
    after? ['='] (trimStart s)
  match value with
  | some s => startsQuotedEdge (trimStart s)
  | none => false

/-- Whether the module asks for the edge runtime. -/
def hasEdgeExport (source : String) : Bool :=
  anySuffix startsEdgeExport source.toList

/-- Whether the module starts with the directive for the client. -/
def hasClientDirective (source : String) : Bool :=
  let s := trimStart source.toList
  "\"use client\"".toList.isPrefixOf s || "'use client'".toList.isPrefixOf s

/-- Whether the path goes through an application directory. Its last component does not count. -/
def inApplication (path : Path) : Bool :=
  path.components.dropLast.any fun
    | .name s => Utf8.decode? s == some "app".toList
    | _ => false

/-- The label of a module with this text at this path. -/
def ofModule (source : String) (path : Path) : Label :=
  if hasEdgeExport source then edge
  else if hasClientDirective source then client
  else if inApplication path then component
  else unknown

end Crossing.Label
