import Crossing.Proofs.Stamp.Lift

/-!
# The texts of what is written

The trees that stamping adds have the texts that the edits insert: those of the record, of the
options around it, and of a slot with its commas and blanks.
-/

namespace Crossing.Stamp

open Text Script Script.Tree Options

/-- A literal with one slot. -/
theorem text_literalTree (slot : Script.Tree) :
    (literalTree [slot]).text = "\x7b ".toList ++ slot.text ++ " \x7d".toList := by
  simp [literalTree, listed, Script.Tree.text, textOf, mark, blank]

/-- A slot of a key that needs no quotes. -/
theorem text_slotTree {key : String} (hkey : Quoted.key key = key) (value : Script.Tree) :
    (slotTree key value).text = (Quoted.key key ++ ": ").toList ++ value.text := by
  simp [slotTree, Script.Tree.text, textOf, mark, blank, hkey]

/-- A value below levels of keys that need no quotes. -/
theorem text_nested {path : List String} (hpath : ∀ key ∈ path, Quoted.key key = key)
    (value : Script.Tree) :
    (nested path value).text = (nestedText path (.ofList value.text)).toList := by
  induction path with
  | nil => simp [nested, nestedText]
  | cons key path ih =>
    have hrest := ih fun key hkey => hpath key (List.mem_cons_of_mem _ hkey)
    rw [nested, nestedText, text_literalTree, text_slotTree (hpath key List.mem_cons_self), hrest]
    simp [braces]

/-- The keys that lead to the record need no quotes. -/
theorem key_recordPath : ∀ key ∈ recordPath, Quoted.key key = key := by
  decide

/-- The record of a call as a tree. -/
theorem text_recordTree (file : String) (side : Side) (line : UInt32) :
    (recordTree file side line).text = (recordLiteral file side line).toList := by
  simp [recordTree, recordLiteral, literalTree, listed, slotTree, Script.Tree.text, textOf, mark,
    blank]

/-- The text in front of other trees stays in front of them. -/
theorem textOf_glue (s : List Char) (ts : List Script.Tree) :
    textOf (glue s ts) = s ++ textOf ts := by
  unfold glue
  split <;> simp [textOf, Script.Tree.text]

/-- What is written stands behind the tree that it is written behind. -/
theorem textOf_insertBehind (written : List Script.Tree) (gap : List Char) (last : Script.Tree)
    (after : List Script.Tree) : textOf (insertBehind written gap last after).1 =
      last.text ++ (textOf written ++ gap) ++ textOf after := by
  unfold insertBehind
  split
  · simp [textOf, Script.Tree.text]
  · simp [textOf, textOf_append, textOf_glue]

/-- The edit that adds a slot inserts what is written for it. -/
theorem edit_eq (offset : Nat) (layout : Layout) {slot : String} {tree : Script.Tree}
    (htext : tree.text = slot.toList) : (Anchor.mk offset layout).edit [slot] =
      ⟨offset, offset, .ofList (textOf (layout.written tree).1 ++ (layout.written tree).2)⟩ := by
  have hone : ", ".intercalate [slot] = slot := rfl
  unfold Anchor.edit Edit.insertion
  dsimp only
  rw [hone]
  congr 1
  apply String.toList_injective
  cases layout <;> simp [Layout.written, textOf, Script.Tree.text, htext, mark, blank]

end Crossing.Stamp
