import Crossing.Command.Run

/-!
# The program

Reads the part of the disk that a command looks at, runs the command on it, and writes what the
run leaves behind. Everything that is decided is decided by `Command.parse` and `Command.run`.
-/

namespace Crossing.Program

open Command

/-- The help that is shown when it is asked for, and after a refused argument. -/
def usage : String :=
  "Find where tRPC calls cross the network boundary\n\n" ++
  "Usage: trpc-boundary [OPTIONS] [PATH]\n" ++
  "       trpc-boundary inject [OPTIONS] <FILE>\n\n" ++
  "Options:\n" ++
  "  -o, --output <FILE>        Write a markdown report to this file\n" ++
  "      --all                  List every file, not just the top hotspots\n" ++
  "      --details              Show every call per file with its line number\n" ++
  "      --collapse             Group repeated calls of the same procedure\n" ++
  "  -I, --ignore <PATTERN>...  Directory or file names to skip\n" ++
  "      --no-color             Disable colored output\n" ++
  "  -h, --help                 Print help\n" ++
  "  -V, --version              Print version\n\n" ++
  "Options of inject:\n" ++
  "      --root <ROOT>          Project root stamped paths are relative to\n" ++
  "      --config <JSON>        Injector options as JSON\n"

/-- The version of the program. -/
def version : String := "trpc-boundary 0.1.0\n"

/-- The directories on the way to a path, each by the names that lead to it, and at the end the
path itself. -/
def way (current p : Path) : List (List OsText) :=
  ((current.join p).components.foldl (fun ways c =>
    let names := ways.headD []
    match c with
    | .root => [] :: ways
    | .here => ways
    | .up => names.dropLast :: ways
    | .name s => (names ++ [⟨s⟩]) :: ways) []).reverse

/-- The names that lead from the root of the disk to a path. -/
def namesTo (current p : Path) : List OsText := (way current p).getLastD []

/-- The path that names lead to, for the runtime, which takes texts only. -/
def pathOf (names : List OsText) : String := "/" ++ (Path.ofNames names).shown

/-- A directory whose entries have nothing in them, or a sealed one; `none` if the path leads to no
directory. -/
def readDirectory (path : String) : IO (Option Node) := do
  let dir := (← IO.currentDir) / path
  if !(← dir.isDir) then return none
  try
    let entries ← (← dir.readDir).toList.mapM fun e => do
      return (OsText.ofString e.fileName, if ← e.path.isDir then Node.dir [] else .file [])
    return some (.dir entries)
  catch _ => return some .sealed

/-- A directory with all that is below it but what is left out, and the bytes of the modules. -/
partial def readBelow (ignore : Ignore) (below : List OsText) (path : String) : IO Node := do
  match ← readDirectory path with
  | some (.dir entries) =>
    let entries ← entries.mapM fun (name, node) => do
      let here := path ++ "/" ++ name.shown
      let names := below ++ [name]
      if ignore.ignores (.ofNames names) then return (name, node)
      match node with
      | .dir _ => return (name, ← readBelow ignore names here)
      | .file _ =>
        if Project.isModule ⟨name⟩ then
          return (name, .file (← try (·.toList) <$> IO.FS.readBinFile here catch _ => pure []))
        else return (name, node)
      | .sealed => return (name, node)
    return .dir entries
  | other => return other.getD (.dir [])

/-- The tree with the entries of the directories on the way to a path and of the one that it leads
to. What the tree knows already is kept. -/
def readAlong (current p : Path) (root : Node) : IO Node :=
  (way current p).foldlM (fun root names => do
    match (Disk.mk root ⟨"/"⟩).node? (Path.below ⟨"/"⟩ names) with
    | .ok (.dir []) =>
      match ← readDirectory (pathOf names) with
      | some node => return root.put names node
      | none => return root
    | _ => return root) root

/-- The part of the disk that a command looks at. -/
def readDisk (current : Path) : Command → IO Disk
  | .scan s => do
    let root ← readAlong current s.directory (.dir [])
    let root ←
      match (Disk.mk root current).node? s.directory with
      | .ok (.dir _) =>
        let names := namesTo current s.directory
        let ignore := (Ignore.ofPatterns s.ignore).toOption.getD ⟨[]⟩
        pure (root.put names (← readBelow ignore [] (pathOf names)))
      | _ => pure root
    return ⟨← readAlong current (s.output.getD current) root, current⟩
  | .inject i => do
    let root ← readAlong current i.module (.dir [])
    match (Disk.mk root current).node? i.module with
    | .ok (.file _) =>
      let names := namesTo current i.module
      return ⟨root.put names (.file (← IO.FS.readBinFile (pathOf names)).toList), current⟩
    | _ => return ⟨root, current⟩

/-- Writes the report that a scan leaves on the disk. -/
def writeReport (c : Command) (o : Outcome) : IO Unit := do
  match c with
  | .scan s =>
    match s.output with
    | some file =>
      match o.ok, o.disk.readText file with
      | true, .ok text => IO.FS.writeFile file.shown text
      | _, _ => return
    | none => return
  | .inject _ => return

/-- Runs a command. -/
def run (c : Command) : IO UInt32 := do
  let current : Path := ⟨(← IO.currentDir).toString⟩
  let disk ← readDisk current c
  let o := c.run disk (← (← IO.getStdout).isTty)
  for n in o.notices.filter (·.level == .warn) do
    IO.eprintln (n.level.name ++ " " ++ n.message)
  writeReport c o
  IO.print o.out
  if !o.ok then IO.eprintln o.error
  return .ofNat o.code

end Crossing.Program

/-- The program: a command with its arguments, which gives the code that it leaves with. -/
def main (args : List String) : IO UInt32 := do
  match Crossing.Command.parse args with
  | .ok c => Crossing.Program.run c
  | .error u =>
    match u with
    | .displayHelp => IO.print Crossing.Program.usage
    | .displayVersion => IO.print Crossing.Program.version
    | _ => IO.eprint ("error: " ++ u.name ++ "\n\n" ++ Crossing.Program.usage)
    return .ofNat u.code
