import Crossing.Proofs.Script.Brackets
import Crossing.Script.Fidelity

/-!
# What is needed of a reader

What is proved of scans and stamps holds whatever reads the scripts, if its trees are as they should
be. `Reader.Spec` is what both rest on, `Reader.Spells` what is needed besides where an edit takes
something out of the text, and `Reader.Lexes` where the text of a callee is split. The reader of this
project meets all three.
-/

namespace Crossing.Script

/-- What scans and stamps need of a reader: the tree of a script is its text in parts, and is laid
out as scripts are. -/
structure Reader.Spec (read : Reader) : Prop where
  /-- The tree has the text that was read. -/
  text : ∀ {d : Dialect} {s : List Char} {script : Tree}, read d s = some script → script.text = s
  /-- Calls, members and argument lists have their parts in the order of the grammar. -/
  layout : ∀ {d : Dialect} {s : List Char} {script : Tree}, read d s = some script →
    script.Every layout

/-- The reader of this project gives trees of the text that it was given. -/
theorem spec_parse? : Reader.Spec parse? where
  text := text_parse?
  layout := every_parse?

/-- What stamping relies on in a reader, when the text of a leaf counts. -/
structure Reader.Spells (read : Reader) : Prop extends Reader.Spec read where
  /-- The name `undefined` is spelled as it is. -/
  undefined : ∀ {d : Dialect} {s : List Char} {script : Tree}, read d s = some script →
    ∀ name, (Leaf.undefined, name) ∈ script.tokens → name = "undefined".toList

/-- The reader of this project spells names as they are. -/
theorem spells_parse? : Reader.Spells parse? where
  toSpec := spec_parse?
  undefined hreads _ hname := (isEven_parse? hreads).spelled _ hname

/-- What splitting relies on in a reader: where brackets and quotes may stand. -/
structure Reader.Lexes (read : Reader) : Prop extends Reader.Spec read where
  /-- Behind its first child, a node closes whatever it opens there. -/
  evenTails : ∀ {d : Dialect} {s : List Char} {script : Tree}, read d s = some script →
    script.Every evenTails
  /-- Leaves are spelled as their kinds demand. -/
  spelled : ∀ {d : Dialect} {s : List Char} {script : Tree}, read d s = some script →
    ∀ t ∈ script.tokens, t.Spelled

/-- The reader of this project puts brackets and quotes where they belong. -/
theorem lexes_parse? : Reader.Lexes parse? where
  toSpec := spec_parse?
  evenTails := evenTails_parse?
  spelled hreads := (isEven_parse? hreads).spelled

end Crossing.Script
