import Crossing.Boundary.Classify
import Crossing.Boundary.Record
import Crossing.Json.Writer
import Crossing.Notice
import Crossing.Scan.Project
import Crossing.Stamp.Plan
import Crossing.Stamp.Settings

/-!
# Stamping a module

The text of a module with a record in every call of a remote procedure that takes one. A module
out of scope, without a candidate, or without a call to stamp stays as it is, and so does one that
cannot be read. What reads modules is a parameter of all but `stamp?` and `transform`.
-/

namespace Crossing.Stamp

open Text

/-- Whether a text starts with a dot, the name of a method that ends calls of remote procedures,
and a bracket. -/
def startsCandidate : List Char → Bool
  | '.' :: rest =>
    terminalMethods.any fun method =>
      match after? method.toList (trimStart rest) with
      | some tail =>
        match trimStart tail with
        | c :: _ => c == '<' || c == '('
        | [] => false
      | none => false
  | _ => false

/-- Whether a module might hold a call to stamp, by its text alone. -/
def mayHoldCalls (source : String) : Bool :=
  anySuffix startsCandidate source.toList

/-- The record of a call as an object literal. -/
def recordLiteral (file : String) (side : Side) (line : UInt32) : String :=
  "\x7b file: " ++ Json.quote file ++ ", line: " ++ .ofList (Decimal.ofNat line.toNat) ++
    ", side: \"" ++ side.name ++ "\" \x7d"

/-- Why a module cannot be stamped. -/
inductive StampError where
  /-- The text of the module is no script. -/
  | unreadable (file : String)
  /-- The stamped text is no script. -/
  | spoiled (file : String)
deriving DecidableEq, Inhabited

/-- What is said of a module that cannot be stamped. -/
def StampError.message : StampError → String
  | unreadable file => "Failed to parse " ++ file ++ ": Syntax errors in " ++ file
  | spoiled file => "Rewrite of " ++ file ++ " does not parse: Syntax errors in " ++ file

/-- A module after stamping. -/
structure Stamped where
  code : String
  /-- The lines of the stamped calls, in the order of the text. -/
  lines : List UInt32
deriving DecidableEq, Inhabited

/-- What stamps modules. -/
structure Stamper where
  root : Path
  debug : Bool
deriving DecidableEq, Inhabited

namespace Stamper

/-- A stamper for a root, unless the settings give another. -/
def ofSettings (root : Path) (settings : Settings) : Stamper :=
  ⟨(settings.projectRoot.map fun path => ⟨path⟩).getD root, settings.debug⟩

/-- A notice that is given only on demand. -/
def told (s : Stamper) (message : String) : List Notice :=
  if s.debug then [⟨.info, message⟩] else []

/-- Whether a module is one that stamping looks at. -/
def inScope (path : Path) (source : String) : Bool :=
  !Project.isDependency path && Project.isModule path && mayHoldCalls source

/-- The stamps of a module. -/
def plan? (read : Script.Reader) (file source : String) : Except StampError (List Stamp) :=
  match read (.ofFile file) source.toList with
  | none => .error (.unreadable file)
  | some script => .ok (plan (recordLiteral file (Label.ofModule source ⟨file⟩).side) script)

/-- A module with its stamps, which must be a script again. Edits that do not fit the text, as they
end inside of a character or behind the text, count as a spoiled text here; whoever carries them out
by offsets would have to stop there. Planned edits always fit. -/
def carryOut (read : Script.Reader) (file source : String) (stamps : List Stamp) :
    Except StampError Stamped :=
  match Edit.applyAll? source (stamps.flatMap (·.edits)) with
  | some code =>
    if (read (.ofFile file) code.toList).isSome then .ok ⟨code, stamps.map (·.line)⟩
    else .error (.spoiled file)
  | none => .error (.spoiled file)

/-- A module after stamping, `none` if it stays as it is, with what there is to tell. -/
def stampWith? (s : Stamper) (read : Script.Reader) (path : Path) (source : String) :
    Except StampError (Option Stamped) × List Notice :=
  if !inScope path source then (.ok none, [])
  else
    let file := Path.display s.root path
    let processing := s.told ("Processing " ++ file)
    match plan? read file source with
    | .error e => (.error e, processing)
    | .ok [] => (.ok none, processing)
    | .ok stamps =>
      match carryOut read file source stamps with
      | .error e => (.error e, processing)
      | .ok stamped =>
        (.ok (some stamped), processing ++ s.told ("Transformed " ++ file ++ " (" ++
          .ofList (Decimal.ofNat stamped.lines.length) ++ " calls)"))

/-- The text of a module after stamping; one that cannot be stamped stays as it is. -/
def transformWith (s : Stamper) (read : Script.Reader) (path : Path) (source : String) :
    String × List Notice :=
  match s.stampWith? read path source with
  | (.ok (some stamped), notices) => (stamped.code, notices)
  | (.ok none, notices) => (source, notices)
  | (.error e, notices) =>
    (source, notices ++ [⟨.warn, "Leaving " ++ path.shown ++ " untouched: " ++ e.message⟩])

/-- A module after stamping, `none` if it stays as it is, with the reader of this project. -/
def stamp? (s : Stamper) (path : Path) (source : String) :
    Except StampError (Option Stamped) × List Notice :=
  s.stampWith? Script.parse? path source

/-- The text of a module after stamping, with the reader of this project. -/
def transform (s : Stamper) (path : Path) (source : String) : String × List Notice :=
  s.transformWith Script.parse? path source

end Stamper

end Crossing.Stamp
