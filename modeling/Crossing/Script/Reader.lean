import Crossing.Path
import Crossing.Script.Grammar.Statements

/-!
# Reading scripts

A script as a tree, if it is one: the statements must reach to its end. The extension of a file
tells the dialect.
-/

namespace Crossing.Script

/-- The dialect of a file. -/
def Dialect.ofFile (file : String) : Dialect :=
  match Path.extension? ⟨file⟩ >>= Text.Utf8.decode? with
  | some e => if e.map Char.toLower = "tsx".toList then .tagged else .plain
  | none => .plain

/-- What reads scripts of a dialect: the tree of a text, if it is a script. -/
abbrev Reader := Dialect → List Char → Option Tree

/-- Fuel enough to read a text: between two characters there are fewer rules than this within one
another. -/
def fuelFor (s : List Char) : Nat := 2000 * (s.length + 1)

/-- The tree of a script. -/
def parse? (d : Dialect) (s : List Char) : Option Tree :=
  match Grammar.script.read (Grammar.rules d) (fuelFor s) ⟨true, true⟩ s with
  | some (ts, rest) =>
    if trivia rest = rest.length then
      some (.node .module (ts ++ Reading.triviaLeaf rest.length rest))
    else none
  | none => none

end Crossing.Script
