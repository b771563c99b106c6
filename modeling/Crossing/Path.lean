import Crossing.Text.Os
import Crossing.Text.Search

/-!
# Paths

Paths as bytes with `/` between segments. Comparing paths goes by components: repeated slashes and
the segment `.` do not count, except a `.` that the path starts with. Cutting a path returns the
text that is left, so that the spelling inside it is kept; only what is silent at its ends goes.
Nothing here looks at a disk, and `..` stands for itself. A path is shown by its text if its bytes
are one, and else as much of it as can be read.
-/

namespace Crossing

open Text

/-- A path, as it is written. -/
@[ext]
structure Path where
  text : OsText
deriving DecidableEq, Inhabited

namespace Path

/-- What a path names on the way from its start. -/
inductive Component where
  /-- The root directory, at the start of an absolute path. -/
  | root
  /-- The segment `.` at the start of a relative path. -/
  | here
  /-- The segment `..`. -/
  | up
  | name (bytes : List UInt8)
deriving DecidableEq

/-- A segment: the bytes between two slashes. -/
abbrev Segment := List UInt8

/-- The byte of a slash. -/
abbrev slash : UInt8 := 0x2F

/-- The byte of a dot. -/
abbrev dot : UInt8 := 0x2E

/-- Whether a segment inside a path names nothing. -/
def isSilent (s : Segment) : Bool :=
  s.isEmpty || s == [dot]

/-- The text of the segments. -/
def ofSegments (segments : List Segment) : Path :=
  ⟨⟨Text.join [slash] segments⟩⟩

/-- The path of names alone, each below the one before. -/
def ofNames (names : List OsText) : Path :=
  ofSegments (names.map OsText.bytes)

/-- The segments of a path. An absolute path starts with an empty one. -/
def segments (p : Path) : List Segment :=
  p.text.bytes.splitOn slash

/-- The components of the segments after the start of a path. -/
def inner (segments : List Segment) : List Component :=
  (segments.filter (!isSilent ·)).map fun s => if s = [dot, dot] then .up else .name s

/-- The start of a path and the segments after it: the root, a `.`, or nothing. -/
def start (segments : List Segment) : List Component × List Segment :=
  match segments with
  | [] :: s :: rest => ([.root], s :: rest)
  | [0x2E] :: rest => ([.here], rest)
  | segments => ([], segments)

/-- The components of a path. -/
def components (p : Path) : List Component :=
  let (first, rest) := start p.segments
  first ++ inner rest

/-- How a component is written. -/
def Component.bytes : Component → List UInt8
  | .root => [slash]
  | .here => [dot]
  | .up => [dot, dot]
  | .name s => s

/-- Whether a path starts at the root. -/
def isAbsolute (p : Path) : Bool :=
  p.text.bytes.head? == some slash

/-- The name that the path ends with. -/
def fileName? (p : Path) : Option (List UInt8) :=
  match p.components.getLast? with
  | some (.name s) => some s
  | _ => none

/-- The bytes after the last dot of a file name; a name with no dot after its first byte has no
extension. -/
def extensionOf? (name : List UInt8) : Option (List UInt8) :=
  match cut? dot name.reverse with
  | some (_, []) | none => none
  | some (last, _ :: _) => some last.reverse

/-- The extension of the file name. -/
def extension? (p : Path) : Option (List UInt8) :=
  p.fileName? >>= extensionOf?

/-- The segments without the silent ones at the end. -/
def trimEnd (segments : List Segment) : List Segment :=
  (segments.reverse.dropWhile isSilent).reverse

/-- The segments after the first `n` that are not silent. -/
def dropInner : Nat → List Segment → List Segment
  | 0, segments => segments
  | _, [] => []
  | n + 1, s :: rest => if isSilent s then dropInner (n + 1) rest else dropInner n rest

/-- The path without what is silent at its end. -/
def trimmed (p : Path) : Path :=
  match p.segments with
  | [] :: s :: rest =>
    match trimEnd (s :: rest) with
    | [] => ⟨"/"⟩
    | kept => ofSegments ([] :: kept)
  | [0x2E] :: rest => ofSegments ([dot] :: trimEnd rest)
  | segments => ofSegments (trimEnd segments)

/-- The path that is left after the components of `base`, if the path starts with them. -/
def stripPrefix? (base p : Path) : Option Path :=
  let before := base.components
  if before.isPrefixOf p.components then
    if before.isEmpty then some p.trimmed
    else
      let (first, rest) := start p.segments
      let left := dropInner (before.length - first.length) rest
      some (ofSegments (trimEnd (left.dropWhile isSilent)))
  else none

/-- The path without its last component; the root and the empty path have none. -/
def parent? (p : Path) : Option Path :=
  match p.components.getLast? with
  | none | some .root => none
  | some .here => some ⟨""⟩
  | some _ =>
    match p.trimmed.segments with
    | [] :: s :: rest =>
      match trimEnd (s :: rest).dropLast with
      | [] => some ⟨"/"⟩
      | kept => some (ofSegments ([] :: kept))
    | [0x2E] :: rest => some (ofSegments ([dot] :: trimEnd rest.dropLast))
    | segments => some (ofSegments (trimEnd segments.dropLast))

/-- Up to `n` paths above a path, the nearest first. -/
def ancestorsWithin : Nat → Path → List Path
  | 0, _ => []
  | n + 1, p =>
    match p.parent? with
    | some above => above :: ancestorsWithin n above
    | none => []

/-- The paths above a path, the nearest first. -/
def ancestors (p : Path) : List Path :=
  ancestorsWithin p.components.length p

/-- The path `p` seen from the directory `base`. -/
def join (base p : Path) : Path :=
  if p.isAbsolute || base.text.bytes.isEmpty then p
  else if base.text.bytes.getLast? = some slash then ⟨⟨base.text.bytes ++ p.text.bytes⟩⟩
  else ⟨⟨base.text.bytes ++ slash :: p.text.bytes⟩⟩

/-- The path that names lead to from a path. -/
def below (p : Path) (names : List OsText) : Path :=
  names.foldl (fun p name => p.join ⟨name⟩) p

/-- The path seen from the directory `base`, without what is silent in it. Two slashes at the
start stay, since some systems give them a meaning, and so does one at the end. -/
def absolute (base p : Path) : Path :=
  let parts := (if p.components.head? = some .here then p.components.tail else p.components)
  let names := parts.filterMap fun c => if c = .root then none else some (Path.mk ⟨c.bytes⟩)
  let first := match p.text.bytes with
    | 0x2F :: 0x2F :: 0x2F :: _ => ⟨"/"⟩
    | 0x2F :: 0x2F :: _ => ⟨"//"⟩
    | 0x2F :: _ => ⟨"/"⟩
    | _ => base
  let whole := names.foldl join first
  if p.text.bytes.getLast? = some slash ∧ whole.text.bytes.getLast? ≠ some slash then
    ⟨⟨whole.text.bytes ++ [slash]⟩⟩
  else whole

/-- The path as it is shown in messages. -/
def shown (p : Path) : String :=
  p.text.shown

/-- A path below `root` as `./` and its components with `/` between them, each as much of it as can
be read; any other path as it is shown, with `/` for every backslash. -/
def display (root p : Path) : String :=
  match stripPrefix? root p with
  | some rest =>
    "./" ++ .ofList (Text.join ['/'] (rest.components.map fun c => Utf8.decodeLossy c.bytes))
  | none => .ofList (p.shown.toList.map fun c => if c = '\\' then '/' else c)

end Path

end Crossing
