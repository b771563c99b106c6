import Crossing.Glob.Match
import Crossing.Path
import Crossing.Text.Blank

/-!
# Ignored paths

Patterns for files and directories that a scan leaves out. A pattern `p` stands for the globs
`**/p/**` and `**/p`: everything below a directory of that name, and the name itself. Directories
of dependencies are always left out.
-/

namespace Crossing

open Text

/-- The directories of dependencies. -/
def dependencyNames : List String := ["node_modules"]

/-- Why a pattern is refused. -/
structure IgnoreError where
  /-- The pattern, without slashes around it. -/
  pattern : String
  /-- The first glob made from it that is malformed. -/
  glob : String
  cause : Glob.PatternError
deriving DecidableEq, Inhabited

/-- What is said of a pattern that cannot be read. -/
def IgnoreError.message (e : IgnoreError) : String :=
  "Invalid ignore pattern: " ++ e.pattern ++ ": error parsing glob '" ++ e.glob ++ "': " ++
    e.cause.message

/-- The globs of the paths that a scan leaves out. -/
structure Ignore where
  globs : List (List Glob.Token)
deriving Inhabited

namespace Ignore

/-- The globs that a pattern stands for, as text. -/
def globsOf (pattern : List Char) : List (List Char) :=
  let name := "**/".toList ++ pattern
  [name ++ "/**".toList, name]

/-- A glob that a pattern stands for. -/
def parseGlob (pattern glob : List Char) : Except IgnoreError (List Glob.Token) :=
  (Glob.parse glob).mapError fun cause => ⟨.ofList pattern, .ofList glob, cause⟩

/-- The globs of a pattern. One that is empty without slashes around it has none. -/
def ofPattern (pattern : String) : Except IgnoreError (List (List Glob.Token)) :=
  let p := trimBy (· == '/') pattern.toList
  if p.isEmpty then .ok [] else (globsOf p).mapM (parseGlob p)

/-- What a scan with these patterns leaves out. -/
def ofPatterns (patterns : List String) : Except IgnoreError Ignore :=
  ((dependencyNames ++ patterns).mapM ofPattern).map fun gs => ⟨gs.flatten⟩

/-- Whether a glob is a name without a slash: it is compared with the name of a file, and `..` at
the end of a path is none. -/
def isName : List Glob.Token → Bool
  | .leading :: rest => !rest.isEmpty && rest.all fun
    | .literal c => c != '/'
    | _ => false
  | _ => false

/-- Whether a path relative to the root of a scan is left out. -/
def ignores (i : Ignore) (relative : Path) : Bool :=
  let unnamed := relative.segments.getLast? == some [Path.dot, Path.dot]
  i.globs.any fun glob =>
    !(unnamed && isName glob) && Glob.isMatch glob relative.text.bytes

end Ignore

end Crossing
