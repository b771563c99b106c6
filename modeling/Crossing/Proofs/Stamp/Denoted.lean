import Crossing.Proofs.Boundary.Token
import Crossing.Proofs.Json.Literal
import Crossing.Proofs.Options.Pending
import Crossing.Proofs.Path.Display
import Crossing.Proofs.Stamp.Planned
import Crossing.Stamp.Transform

/-!
# What is stamped denotes the record

The literal of a record, read as an object literal, has the three fields of the record and no
others, whatever the name of the file is and whatever follows the literal (`Denotes`). Every edit
of a stamp writes the literal of its call as a whole (`exists_edit_holding`). If the path of the
module holds no colon, the name that is displayed of it has none either, so that the record comes
back from its token too (`denotes_stamped`).
-/

namespace Crossing.Stamp

open Text Options

/-- Whether a text, read as an object literal, has the three fields of a record and no others,
whatever follows the text. -/
def Denotes (text : List Char) (r : Boundary.Record) : Prop :=
  ∀ rest, ∃ line,
    Json.literal? (text ++ rest) = some
      (.object [("file", .string r.file), ("line", line), ("side", .string r.side.name)], rest) ∧
    line.natBelow? UInt32.size = some r.line.toNat

/-! ## The literal -/

/-- The name of a side has no signs that are escaped. -/
theorem quote_name (side : Side) : "\"" ++ side.name ++ "\"" = Json.quote side.name := by
  cases side <;> decide

/-- The file of a record as a field of its literal. -/
def fileField (file : String) : Json.Field :=
  .ofString "file".toList (by decide +kernel) file

/-- The line of a record as a field of its literal. -/
def lineField (line : UInt32) : Json.Field :=
  .ofNat "line".toList (by decide +kernel) line.toNat

/-- The side of a record as a field of its literal. -/
def sideField (side : Side) : Json.Field :=
  .ofString "side".toList (by decide +kernel) side.name

/-- The literal of a record has its three fields between braces. -/
theorem toList_recordLiteral (file : String) (side : Side) (line : UInt32) :
    (recordLiteral file side line).toList =
      '{' :: Json.slotsText (fileField file) [lineField line, sideField side] := by
  have hname := congrArg String.toList (quote_name side)
  simp only [Json.slotsText, Json.Field.slot, fileField, lineField, sideField, Json.Field.ofString,
    Json.Field.ofNat, ← hname]
  simp [recordLiteral]

/-- The literal of a record denotes the record. -/
theorem denotes_recordLiteral (file : String) (side : Side) (line : UInt32) :
    Denotes (recordLiteral file side line).toList ⟨file, line, side⟩ := by
  intro rest
  refine ⟨.number (Decimal.ofNat line.toNat), ?_, Json.natBelow?_ofNat line.toNat_lt_size⟩
  rw [toList_recordLiteral, List.cons_append, Json.literal?_slotsText]
  rfl

/-! ## The edits -/

/-- What is nested below keys is written as a whole. -/
theorem infix_nestedText (path : List String) (text : String) :
    text.toList <:+: (nestedText path text).toList := by
  induction path with
  | nil => exact List.infix_rfl
  | cons key path ih =>
    refine ih.trans ⟨"\x7b ".toList ++ (Quoted.key key ++ ": ").toList, " \x7d".toList, ?_⟩
    simp [nestedText, braces]

/-- A slot is inserted as a whole. -/
theorem infix_edit (place : Anchor) (slot : String) :
    slot.toList <:+: (place.edit [slot]).text.toList := by
  have hone : ", ".intercalate [slot] = slot := rfl
  unfold Anchor.edit Edit.insertion
  rw [hone]
  cases place.layout with
  | empty => exact ⟨[' '], [' '], by simp⟩
  | trailingComma => exact ⟨[' '], [','], by simp⟩
  | afterLast => exact ⟨[',', ' '], [], by simp⟩

/-- A call is stamped by one edit, which writes the record as a whole. -/
theorem exists_edit_holding {spot : Script.Spot} {call : Script.Tree} {record : String}
    {edits : List Edit} (h : edits? spot call record = some edits) :
    ∃ e, edits = [e] ∧ record.toList <:+: e.text.toList := by
  have hfresh : record.toList <:+: (freshOptions record).toList := by
    rw [freshOptions_eq]
    exact infix_nestedText recordPath record
  rw [edits?_eq] at h
  obtain ⟨⟨args, closing⟩, -, h⟩ := Option.bind_eq_some_iff.mp h
  dsimp only at h
  -- How much is written besides the record depends on the arguments that the call has.
  match args with
  | [] =>
    obtain rfl := Option.some.inj h
    refine ⟨_, rfl, hfresh.trans ⟨"undefined, ".toList, [], ?_⟩⟩
    simp [Edit.insertion]
  | [first] =>
    obtain rfl := Option.some.inj h
    refine ⟨_, rfl, hfresh.trans ⟨", ".toList, [], ?_⟩⟩
    simp [Edit.insertion]
  | _ :: (place, second) :: _ =>
    rw [argumentEdits?] at h
    split at h
    · obtain rfl := Option.some.inj h
      exact ⟨_, rfl, hfresh⟩
    · -- The keys above the record that the options already hold are not written again.
      rw [extend?_of_object] at h
      obtain ⟨⟨anchor, slot⟩, htarget, hedit⟩ := Option.map_eq_some_iff.mp h
      obtain ⟨-, key, rest, -, -, -, -, rfl⟩ := exists_of_target? htarget
      refine ⟨_, hedit.symm, ((infix_nestedText rest record).trans ?_).trans (infix_edit anchor _)⟩
      exact ⟨(Quoted.key key ++ ": ").toList, [], by simp⟩

/-- A stamp is one edit, which writes the record of its line as a whole. -/
theorem edit_holding_of_mem_plan {record : UInt32 → String} {script : Script.Tree} {stamp : Stamp}
    (h : stamp ∈ plan record script) :
    ∃ e, stamp.edits = [e] ∧ (record stamp.line).toList <:+: e.text.toList := by
  obtain ⟨⟨spot, call⟩, -, hmade⟩ := List.mem_filterMap.mp h
  dsimp only at hmade
  split at hmade
  · obtain ⟨edits, hedits, rfl⟩ := Option.map_eq_some_iff.mp hmade
    exact exists_edit_holding hedits
  · contradiction

/-! ## Records on the wire -/

/-- The path of a module is not empty. -/
theorem bytes_ne_nil_of_isModule {path : Path} (h : Project.isModule path = true) :
    path.text.bytes ≠ [] := by
  obtain ⟨⟨bytes⟩⟩ := path
  rintro rfl
  exact absurd h (by decide)

/-- The record of a module whose path has no colon comes back from its token. -/
theorem record?_display {root path : Path} (hmodule : Project.isModule path = true)
    (hcolon : 0x3A ∉ path.text.bytes) (line : UInt32) (side : Side) :
    (Boundary.Partial.ofToken
        (Boundary.Record.token ⟨Path.display root path, line, side⟩)).record? =
      some ⟨Path.display root path, line, side⟩ := by
  have hfile : Path.display root path ≠ "" :=
    Path.display_ne_empty (bytes_ne_nil_of_isModule hmodule)
  have hname : ':' ∉ (Path.display root path).toList := fun h =>
    hcolon (Path.mem_of_mem_display h (by decide) (by decide) (by decide))
  exact Boundary.Partial.record?_eq_some_iff.mpr
    (Boundary.Record.ofToken_token (r := ⟨Path.display root path, line, side⟩) hfile hname)

/-- Every text that is written for a record, read as an object literal, is one object with exactly
the fields of the record, whatever the name of the file is. So the record in the stamp of a call,
read off the literal in the stamp and sent as a token, comes back with the file, the line of the
call and the side that it was stamped with, if the path of the module has no colon. -/
theorem denotes_stamped :
    (∀ file side line, Denotes (recordLiteral file side line).toList ⟨file, line, side⟩) ∧
      ∀ (s : Stamper) (read : Script.Reader) (path : Path) (source : String) (stamps : List Stamp),
        Project.isModule path = true → 0x3A ∉ path.text.bytes →
        Stamper.plan? read (Path.display s.root path) source = .ok stamps →
        ∀ stamp ∈ stamps, ∃ e text, ∃ r : Boundary.Record,
          stamp.edits = [e] ∧ text <:+: e.text.toList ∧ Denotes text r ∧
          r = ⟨Path.display s.root path, stamp.line,
            (Label.ofModule source ⟨Path.display s.root path⟩).side⟩ ∧
          (Boundary.Partial.ofToken r.token).record? = some r := by
  refine ⟨denotes_recordLiteral, ?_⟩
  intro s read path source stamps hmodule hcolon hplan stamp hstamp
  unfold Stamper.plan? at hplan
  split at hplan
  · contradiction
  · next script hread =>
    obtain rfl := Except.ok.inj hplan
    obtain ⟨e, hedits, htext⟩ := edit_holding_of_mem_plan hstamp
    exact ⟨e, _, _, hedits, htext, denotes_recordLiteral _ _ _, rfl,
      record?_display hmodule hcolon _ _⟩

/-- A file name with a quote, a brace, a backslash and a line feed in it. -/
def hostilePath : Path := ⟨"/repo/a\", x= \"\x7d\\\n.ts"⟩

/-- The stamp of a call in a module of this name holds its record, which comes back from its
token. -/
theorem denotes_stamped_hostile : ∃ stamps : List Stamp,
    Stamper.plan? Script.parse? (Path.display ⟨"/repo"⟩ hostilePath) "\na.b.query(1, \x7b\x7d);" =
      .ok stamps ∧ stamps.map (·.line) = [2] ∧
    Project.isModule hostilePath = true ∧ 0x3A ∉ hostilePath.text.bytes ∧
    ∀ stamp ∈ stamps, ∃ e text, ∃ r : Boundary.Record,
      stamp.edits = [e] ∧ text <:+: e.text.toList ∧ Denotes text r ∧
      r = ⟨Path.display ⟨"/repo"⟩ hostilePath, stamp.line,
        (Label.ofModule "\na.b.query(1, \x7b\x7d);" ⟨Path.display ⟨"/repo"⟩ hostilePath⟩).side⟩ ∧
      (Boundary.Partial.ofToken r.token).record? = some r := by
  have hmodule : Project.isModule hostilePath = true := by decide +kernel
  have hcolon : 0x3A ∉ hostilePath.text.bytes := by decide +kernel
  have hpass : (Stamper.plan? Script.parse? (Path.display ⟨"/repo"⟩ hostilePath)
      "\na.b.query(1, \x7b\x7d);").toOption.map (fun stamps => stamps.map (·.line)) = some [2] := by
    decide +kernel
  cases hplan : Stamper.plan? Script.parse? (Path.display ⟨"/repo"⟩ hostilePath)
      "\na.b.query(1, \x7b\x7d);" with
  | error e =>
    rw [hplan] at hpass
    contradiction
  | ok stamps =>
    rw [hplan] at hpass
    exact ⟨stamps, rfl, Option.some.inj hpass, hmodule, hcolon,
      denotes_stamped.2 ⟨⟨"/repo"⟩, false⟩ Script.parse? hostilePath _ stamps hmodule hcolon hplan⟩

end Crossing.Stamp
