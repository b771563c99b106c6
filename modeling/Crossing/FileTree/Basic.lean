import Crossing.Path

/-!
# File trees

The files of a disk as a tree, and the paths into it. A path is walked component by component:
each but the last must lead to a directory, and so must the last if the path ends in a slash.
There are no links, so `..` leads back to where the walk came from. Of permissions there is one: a
directory can be sealed, so that it is there and nothing in it can be seen.
-/

namespace Crossing

open Text

/-- A file or a directory. -/
inductive Node where
  | file (bytes : List UInt8)
  | dir (entries : List (OsText × Node))
  /-- A directory that can be neither listed nor entered. -/
  | sealed
deriving Inhabited

/-- Why a file cannot be read or written. -/
inductive FileError where
  | notFound
  | notDirectory
  | isDirectory
  | denied
  | nameTooLong
  | nulInName
  | notText
deriving DecidableEq, Inhabited

/-- The message of the system. -/
def FileError.message : FileError → String
  | notFound => "No such file or directory (os error 2)"
  | notDirectory => "Not a directory (os error 20)"
  | isDirectory => "Is a directory (os error 21)"
  | denied => "Permission denied (os error 13)"
  | nameTooLong => "File name too long (os error 36)"
  | nulInName => "file name contained an unexpected NUL byte"
  | notText => "stream did not contain valid UTF-8"

namespace Node

/-- The entry of a directory. -/
def child? (name : OsText) : Node → Option Node
  | dir entries => (entries.find? (·.1 == name)).map (·.2)
  | file _ | sealed => none

/-- Whether a node is a file. -/
def isFile : Node → Bool
  | file _ => true
  | dir _ | sealed => false

/-- Whether a node is a directory that cannot be looked into. -/
def isSealed : Node → Bool
  | sealed => true
  | file _ | dir _ => false

/-- The text of a file. -/
def text? : Node → Except FileError String
  | file bytes =>
    match Utf8.decode? bytes with
    | some cs => .ok (.ofList cs)
    | none => .error .notText
  | dir _ => .error .isDirectory
  | sealed => .error .denied

/-- The entries with another node in the place of the entry of that name, or with a new entry at
the end. -/
def putEntry (name : OsText) (node : Node) : List (OsText × Node) → List (OsText × Node)
  | [] => [(name, node)]
  | (n, old) :: rest => if n = name then (n, node) :: rest else (n, old) :: putEntry name node rest

/-- The tree with another node at the end of a path of names; directories that are missing are
made. -/
def put : (names : List OsText) → (tree new : Node) → Node
  | [], _, new => new
  | name :: names, tree, new =>
    match tree with
    | dir entries => dir (putEntry name (put names ((tree.child? name).getD (dir [])) new) entries)
    | file bytes => file bytes
    | sealed => sealed

end Node

/-- A place on a walk through a tree: the names and the nodes that the walk came by, the last one
first. -/
structure Place where
  root : Node
  trail : List (OsText × Node)

namespace Place

/-- The node at a place. -/
def node (p : Place) : Node :=
  match p.trail with
  | (_, n) :: _ => n
  | [] => p.root

/-- The names that lead to a place. -/
def names (p : Place) : List OsText :=
  p.trail.reverse.map (·.1)

/-- The path that leads to a place. -/
def path (p : Place) : Path :=
  ⟨⟨Path.slash :: (Path.ofNames p.names).text.bytes⟩⟩

/-- The bytes that a name may have. -/
def maxName : Nat := 255

/-- The place one component further. -/
def step (p : Place) (c : Path.Component) : Except FileError Place :=
  if p.node.isFile then .error .notDirectory
  else if p.node.isSealed then .error .denied
  else
    match c with
    | .root => .ok { p with trail := [] }
    | .here => .ok p
    | .up => .ok { p with trail := p.trail.tail }
    | .name s =>
      if s.length > maxName then .error .nameTooLong
      else
        match p.node.child? ⟨s⟩ with
        | some n => .ok { p with trail := (⟨s⟩, n) :: p.trail }
        | none => .error .notFound

end Place

/-- A disk: the tree of all files, and the directory that relative paths start from. -/
structure Disk where
  root : Node
  current : Path
deriving Inhabited

namespace Disk

/-- The bytes that a path may have. -/
def maxPath : Nat := 4095

/-- Whether a path says that it leads to a directory: it ends in a slash, or in one and a `.`. -/
def namesDirectory (p : Path) : Bool :=
  match p.segments.getLast? with
  | some s => Path.isSilent s
  | none => false

/-- The place that a path leads to. -/
def locate (d : Disk) (p : Path) : Except FileError Place :=
  if p.text.bytes.isEmpty then .error .notFound
  else if p.text.bytes.contains 0 then .error .nulInName
  else if p.text.bytes.length > maxPath then .error .nameTooLong
  else do
    let place ← (d.current.join p).components.foldlM Place.step ⟨d.root, []⟩
    if namesDirectory p && place.node.isFile then throw .notDirectory
    return place

/-- The node that a path leads to. -/
def node? (d : Disk) (p : Path) : Except FileError Node :=
  (d.locate p).map Place.node

/-- Whether a path leads to a file. -/
def isFile (d : Disk) (p : Path) : Bool :=
  match d.node? p with
  | .ok n => n.isFile
  | .error _ => false

/-- The text of the file that a path leads to. -/
def readText (d : Disk) (p : Path) : Except FileError String :=
  d.node? p >>= Node.text?

/-- The disk with a text in the file that a path leads to, which is made if it is missing. The
directory that it stands in must be there. -/
def writeText (d : Disk) (p : Path) (text : String) : Except FileError Disk := do
  if p.text.bytes.isEmpty then throw .notFound
  if p.text.bytes.contains 0 then throw .nulInName
  if p.text.bytes.length > maxPath then throw .nameTooLong
  let parts := (d.current.join p).components
  let above ← parts.dropLast.foldlM Place.step ⟨d.root, []⟩
  if above.node.isFile then throw .notDirectory
  if above.node.isSealed then throw .denied
  match parts.getLast? with
  | some (.name s) =>
    if p.segments.getLast? = some [Path.dot] then
      let place ← above.step (.name s)
      if place.node.isFile then throw .notDirectory
    if namesDirectory p then throw .isDirectory
    if s.length > Place.maxName then throw .nameTooLong
    match above.node.child? ⟨s⟩ with
    | some (.dir _) | some .sealed => throw .isDirectory
    | _ =>
      let new := Node.file (Utf8.encode text.toList)
      return { d with root := d.root.put (above.names ++ [⟨s⟩]) new }
  | _ => throw .isDirectory

end Disk

end Crossing
