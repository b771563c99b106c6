import Crossing.FileTree.Basic
import Crossing.Scan.Ignore

/-!
# Modules and projects

Which files are modules, and which project a module belongs to: the nearest directory above it
that holds a marker file. A module is classified by its path inside its project, so that the
place of the project, and of the scan, does not matter.
-/

namespace Crossing.Project

open Text

/-- The extensions of modules. -/
def moduleExtensions : List (List Char) := ["ts".toList, "tsx".toList]

/-- Whether a path has the extension of a module. -/
def isModule (p : Path) : Bool :=
  match p.extension? >>= Utf8.decode? with
  | some e => moduleExtensions.contains e
  | none => false

/-- Whether a path goes through a directory of dependencies or leads to one. -/
def isDependency (p : Path) : Bool :=
  p.components.any fun c =>
    match Utf8.decode? c.bytes with
    | some name => dependencyNames.contains (.ofList name)
    | none => false

/-- The files that mark the root of a project. -/
def markers : List String :=
  ["package.json", "next.config.js", "next.config.mjs", "next.config.cjs", "next.config.ts"]

/-- The root of the project that a path belongs to. -/
def root? (disk : Disk) (p : Path) : Option Path :=
  p.ancestors.find? fun dir => markers.any fun m => disk.isFile (dir.join ⟨m⟩)

/-- The path that a module is classified by: the one inside its project, or else the whole. -/
def innerPath (disk : Disk) (p : Path) : Path :=
  ((root? disk p).bind fun root => root.stripPrefix? p).getD p

end Crossing.Project
