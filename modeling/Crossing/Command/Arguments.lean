import Crossing.Path
import Crossing.Report.Console
import Crossing.Text.Search

/-!
# Command line arguments

Two commands: scanning a project, which is meant when no other is named, and stamping one module.
The arguments are read from the left. An option collects its values and is settled by the next
argument that is an option, a flag or a positional one, and by the end; only then are its values
looked at. An argument that is not known at all is refused before what is pending is settled.
-/

namespace Crossing

open Text

namespace Command

/-- Why arguments give no command. -/
inductive Usage where
  | displayHelp
  | displayVersion
  | unknownArgument
  | invalidSubcommand
  | argumentConflict
  | tooManyValues
  | invalidValue
  | missingRequiredArgument
deriving DecidableEq, Inhabited

namespace Usage

/-- The name of a reason. -/
def name : Usage → String
  | displayHelp => "DisplayHelp"
  | displayVersion => "DisplayVersion"
  | unknownArgument => "UnknownArgument"
  | invalidSubcommand => "InvalidSubcommand"
  | argumentConflict => "ArgumentConflict"
  | tooManyValues => "TooManyValues"
  | invalidValue => "InvalidValue"
  | missingRequiredArgument => "MissingRequiredArgument"

/-- The exit code of a run that ends with it. -/
def code : Usage → Nat
  | displayHelp | displayVersion => 0
  | _ => 2

end Usage

/-- Something that is said or not. -/
inductive Flag where
  | all
  | details
  | collapse
  | noColor
deriving DecidableEq, Inhabited

/-- Something that takes values. -/
inductive Parameter where
  /-- The directory that is scanned. -/
  | directory
  /-- The file that the report is written to. -/
  | output
  /-- Patterns of what is left out. -/
  | ignore
  /-- The module that is stamped. -/
  | module
  /-- The root that records are relative to. -/
  | root
  /-- The settings of stamping. -/
  | config
deriving DecidableEq, Inhabited

namespace Parameter

/-- Whether the values are paths, which may not be empty. -/
def isPath : Parameter → Bool
  | ignore | config => false
  | _ => true

/-- Whether it may be given several times, with several values each time. -/
def isRepeated : Parameter → Bool
  | ignore => true
  | _ => false

end Parameter

/-- What an option or a flag stands for. -/
inductive Switch where
  | flag (f : Flag)
  | parameter (p : Parameter)
  | help
  | version
deriving DecidableEq

/-- What a command takes. -/
structure Form where
  /-- The switches that are written with two hyphens. -/
  long : List (String × Switch)
  /-- The switches that are written with one hyphen and one letter. -/
  short : List (Char × Switch)
  /-- What a positional argument stands for. -/
  positional : Parameter
  /-- Whether further commands may be named. -/
  hasCommands : Bool

/-- What scanning takes. -/
def scanForm : Form where
  long := [("output", .parameter .output), ("all", .flag .all), ("details", .flag .details),
    ("collapse", .flag .collapse), ("ignore", .parameter .ignore), ("no-color", .flag .noColor),
    ("help", .help), ("version", .version)]
  short := [('o', .parameter .output), ('I', .parameter .ignore), ('h', .help), ('V', .version)]
  positional := .directory
  hasCommands := true

/-- What stamping takes. -/
def injectForm : Form where
  long := [("root", .parameter .root), ("config", .parameter .config), ("help", .help)]
  short := [('h', .help)]
  positional := .module
  hasCommands := false

/-- What has been read. -/
structure Progress where
  flags : List Flag := []
  /-- The values of what is settled. -/
  values : List (Parameter × List String) := []
  /-- What is not settled yet. -/
  pending : Option (Parameter × List String) := none
  /-- Whether the next argument is a value of what is pending. -/
  isOpen : Bool := false
  /-- Whether an argument has been recognised. -/
  found : Bool := false
  /-- Whether the positional argument has been given. -/
  placed : Bool := false

namespace Progress

/-- Settles values of a parameter. -/
def settle (parameter : Parameter) (values : List String) (p : Progress) :
    Except Usage Progress :=
  if values.isEmpty then .error .invalidValue
  else if !parameter.isRepeated && p.values.any (·.1 = parameter) then .error .argumentConflict
  else if parameter.isPath && values.any String.isEmpty then .error .invalidValue
  else .ok { p with values := p.values ++ [(parameter, values)] }

/-- Settles what is pending. -/
def resolve (p : Progress) : Except Usage Progress :=
  match p.pending with
  | none => .ok { p with isOpen := false }
  | some (parameter, values) =>
    { p with pending := none, isOpen := false }.settle parameter values

/-- Takes a switch, with the value that is attached to it. -/
def switch (s : Switch) (attached : Option String) (p : Progress) : Except Usage Progress := do
  let p := { p with found := true }
  match s, attached with
  | .parameter parameter, some value => (← p.resolve).settle parameter [value]
  | .parameter parameter, none =>
    return { ← p.resolve with pending := some (parameter, []), isOpen := true }
  | _, some _ => throw .tooManyValues
  | .help, none => do
    let _ ← p.resolve
    throw .displayHelp
  | .version, none => do
    let _ ← p.resolve
    throw .displayVersion
  | .flag f, none =>
    let p ← p.resolve
    if p.flags.contains f then throw .argumentConflict
    return { p with flags := f :: p.flags }

/-- Takes the letters of an argument with one hyphen. A letter that takes a value takes the rest,
without an equals sign at its start. -/
def letters (form : Form) : List Char → Progress → Except Usage Progress
  | [], p => .ok p
  | c :: rest, p =>
    match form.short.find? (·.1 == c) with
    | none => .error .unknownArgument
    | some (_, .parameter parameter) =>
      let attached := match rest with
        | [] => none
        | '=' :: value => some value
        | value => some value
      p.switch (.parameter parameter) (attached.map .ofList)
    | some (_, s) => do letters form rest (← p.switch s none)

/-- Takes an argument with two hyphens, given without them. -/
def long (form : Form) (text : List Char) (p : Progress) : Except Usage Progress :=
  let (name, attached) := match cut? '=' text with
    | some (name, value) => (name, some (String.ofList value))
    | none => (text, none)
  match form.long.find? (·.1.toList == name) with
  | some (_, s) => p.switch s attached
  | none => .error .unknownArgument

/-- Takes a positional argument. -/
def place (form : Form) (text : String) (p : Progress) : Except Usage Progress :=
  if p.placed then
    .error (if form.hasCommands && p.found then .argumentConflict else .unknownArgument)
  else do
    return { ← p.resolve with
      pending := some (form.positional, [text]), placed := true, found := true }

/-- Takes a value of what is pending. -/
def value (text : String) (p : Progress) : Progress :=
  match p.pending with
  | some (parameter, values) =>
    { p with pending := some (parameter, values ++ [text]), isOpen := parameter.isRepeated }
  | none => p

end Progress

/-- What the arguments of a command come to. -/
inductive Reading where
  | complete (p : Progress)
  /-- Another command, and its arguments. -/
  | command (name : String) (rest : List String)

/-- The names of the further commands. -/
def commandNames : List String := ["inject", "help"]

/-- Reads the arguments behind two hyphens that stand alone. -/
def readPlaced (form : Form) : List String → Progress → Except Usage Progress
  | [], p => p.resolve
  | a :: rest, p => do readPlaced form rest (← p.place form a)

/-- Reads arguments. -/
def readArguments (form : Form) : List String → Progress → Except Usage Reading
  | [], p => p.resolve.map .complete
  | a :: rest, p =>
    if form.hasCommands && !p.found && !p.isOpen && commandNames.contains a then
      .ok (.command a rest)
    else
      match a.toList with
      | ['-', '-'] => (readPlaced form rest p).map .complete
      | '-' :: '-' :: text => do readArguments form rest (← p.long form text)
      | '-' :: c :: text => do readArguments form rest (← p.letters form (c :: text))
      | _ =>
        if p.isOpen then readArguments form rest (p.value a)
        else do readArguments form rest (← p.place form a)

/-- The values of a parameter. -/
def Progress.valuesOf (parameter : Parameter) (p : Progress) : List String :=
  (p.values.filter (·.1 = parameter)).flatMap (·.2)

/-- What is scanned, and how it is reported. -/
structure ScanArguments where
  directory : Path
  output : Option Path
  ignore : List String
  view : Report.View
  noColor : Bool
deriving DecidableEq, Inhabited

/-- What is stamped, and how. -/
structure InjectArguments where
  module : Path
  root : Option Path
  config : Option String
deriving DecidableEq, Inhabited

end Command

/-- A command. -/
inductive Command where
  | scan (s : Command.ScanArguments)
  | inject (i : Command.InjectArguments)
deriving DecidableEq, Inhabited

namespace Command

/-- The scan that has been read. -/
def Progress.scan (p : Progress) : ScanArguments where
  directory := ⟨(p.valuesOf .directory).headD "."⟩
  output := (p.valuesOf .output).head?.map fun path => ⟨path⟩
  ignore := p.valuesOf .ignore
  view := ⟨p.flags.contains .all, p.flags.contains .details, p.flags.contains .collapse⟩
  noColor := p.flags.contains .noColor

/-- The stamping that has been read. -/
def Progress.inject (p : Progress) : Except Usage InjectArguments :=
  match p.valuesOf .module with
  | [] => .error .missingRequiredArgument
  | m :: _ =>
    .ok ⟨⟨m⟩, (p.valuesOf .root).head?.map fun path => ⟨path⟩, (p.valuesOf .config).head?⟩

/-- What help is given about: nothing further, or one of the commands. -/
def readHelp : List String → Usage
  | [] => .displayHelp
  | [name] => if commandNames.contains name then .displayHelp else .invalidSubcommand
  | _ => .invalidSubcommand

/-- The command that arguments give. -/
def parse (args : List String) : Except Usage Command := do
  match ← readArguments scanForm args {} with
  | .complete p => return .scan p.scan
  | .command "inject" rest =>
    match ← readArguments injectForm rest {} with
    | .complete p => return .inject (← p.inject)
    | .command _ _ => throw .invalidSubcommand
  | .command _ rest => throw (readHelp rest)

end Command

end Crossing
