import Crossing.Proofs.Text.Percent
import Crossing.Proofs.Wire.Annotate

/-!
# What a session sends

An `Invocation` is what a caller asks of a session and how often the link sends it. The operation
that comes of it carries the source of the session and its metadata under distinct names
(`Invocation.fields_sent`), and its path is the path of the caller, with the token of the boundary
record if there is one (`Invocation.path_sent`).
-/

namespace Crossing.Wire

open Text Http Boundary

/-- What a caller asks of a session. -/
structure Invocation where
  /-- The number of the session's next operation when the caller comes. -/
  number : UInt64
  kind : Kind
  path : String
  boundary : Option Record
  /-- How often the operation goes through the link after the first time. -/
  resends : Nat
deriving DecidableEq, Inhabited

/-- A path that names a procedure and holds no separator of the wire. -/
structure PlainPath (path : String) : Prop where
  ne_empty : path ≠ ""
  no_comma : ',' ∉ path.toList
  no_question : '?' ∉ path.toList
  no_percent : '%' ∉ path.toList
  trimmed : trim path.toList = path.toList
  ne_noPath : path.toList ≠ noPath
  ne_routerName : path.toList ≠ routerName

instance (path : String) : Decidable (PlainPath path) :=
  decidable_of_iff (path ≠ "" ∧ ',' ∉ path.toList ∧ '?' ∉ path.toList ∧ '%' ∉ path.toList ∧
      trim path.toList = path.toList ∧ path.toList ≠ noPath ∧ path.toList ≠ routerName)
    ⟨fun ⟨a, b, c, d, e, f, g⟩ => ⟨a, b, c, d, e, f, g⟩,
      fun ⟨a, b, c, d, e, f, g⟩ => ⟨a, b, c, d, e, f, g⟩⟩

/-- A path names something if it is not empty and none of the words that name nothing. -/
theorem namesNothing_eq_false {path : List Char} :
    namesNothing path = false ↔ path ≠ [] ∧ path ≠ noPath ∧ path ≠ routerName := by
  simp [namesNothing, and_assoc]

/-- A path with a character that neither of the words that name nothing holds names something. -/
theorem namesNothing_of_mem {path : List Char} {c : Char} (hc : c ∈ path)
    (hwords : c ∉ noPath ++ routerName) : namesNothing path = false := by
  rw [List.mem_append, not_or] at hwords
  refine namesNothing_eq_false.mpr ⟨List.ne_nil_of_mem hc, ?_, ?_⟩
  · rintro rfl
    exact hwords.1 hc
  · rintro rfl
    exact hwords.2 hc

/-- A plain path names something. -/
theorem PlainPath.namesNothing {path : String} (h : PlainPath path) :
    namesNothing path.toList = false :=
  namesNothing_eq_false.mpr ⟨by simpa using h.ne_empty, h.ne_noPath, h.ne_routerName⟩

namespace Invocation

/-- The operation that a session makes of an invocation, as the link hands it on. -/
def sent (s : Session) (i : Invocation) : Operation :=
  Operation.annotate^[i.resends + 1]
    (Session.operation i.kind i.path i.boundary { s with next := i.number }).1

/-- The operation before the link. -/
def made (s : Session) (i : Invocation) : Operation :=
  ⟨i.number, i.kind, i.path, i.boundary, Headers.empty.set Field.source s.source⟩

/-- Sending an operation again is of no effect. -/
theorem sent_eq (s : Session) (i : Invocation) : i.sent s = (i.made s).annotate :=
  Operation.annotate_iterate _ _

/-- The operation is of the kind that was asked for. -/
@[simp]
theorem kind_sent (s : Session) (i : Invocation) : (i.sent s).kind = i.kind := by
  rw [sent_eq, Operation.kind_annotate, made]

/-- A path without a question mark is its own logical path. -/
theorem logicalPath_made (s : Session) {i : Invocation} (h : '?' ∉ i.path.toList) :
    (i.made s).logicalPath = i.path := by
  simp only [Operation.logicalPath, made, cut?_eq_none_iff.mpr h]

/-- The path that is sent is the path that was asked for, with the token of the record. -/
theorem path_sent (s : Session) {i : Invocation} (h : '?' ∉ i.path.toList) :
    (i.sent s).path = match i.boundary with
      | none => i.path
      | some r => i.path ++ Operation.tokenQuery r := by
  rw [sent_eq, Operation.path_annotate, logicalPath_made s h]
  rfl

/-- A token query holds only signs of ASCII above the blank, and no comma. -/
theorem of_mem_tokenQuery {r : Record} {c : Char} (h : c ∈ (Operation.tokenQuery r).toList) :
    (0x21 ≤ c.toNat ∧ c.toNat < 0x7F) ∧ c ≠ ',' := by
  rw [Operation.toList_tokenQuery, List.mem_cons, List.mem_append, List.mem_cons] at h
  rcases h with rfl | h | rfl | h
  · decide
  · have htokenKey : tokenKey.all
        (fun c => decide ((0x21 ≤ c.toNat ∧ c.toNat < 0x7F) ∧ c ≠ ',')) = true := by decide
    exact of_decide_eq_true (List.all_eq_true.mp htokenKey c h)
  · decide
  · rw [Record.token, String.toList_ofList] at h
    refine ⟨Percent.toNat_of_mem_encode h, ?_⟩
    rintro rfl
    exact Percent.not_mem_encode (by decide) (by decide) _ h

/-- The path that is sent is fit for a list: it holds no comma, names something, and has no blanks
at its ends. -/
theorem listed_sent (s : Session) {i : Invocation} (h : PlainPath i.path) :
    ',' ∉ (i.sent s).path.toList ∧ namesNothing (i.sent s).path.toList = false ∧
      trim (i.sent s).path.toList = (i.sent s).path.toList := by
  rw [path_sent s h.no_question]
  cases i.boundary with
  | none => exact ⟨h.no_comma, h.namesNothing, h.trimmed⟩
  | some r =>
    have hne : i.path.toList ≠ [] := by simpa using h.ne_empty
    -- The token starts with a question mark, which tells the path from every word without one.
    have hquestion : '?' ∈ (Operation.tokenQuery r).toList := by
      rw [Operation.toList_tokenQuery]
      exact List.mem_cons_self
    simp only [String.toList_append]
    refine ⟨?_, ?_, ?_⟩
    · rw [List.mem_append, not_or]
      exact ⟨h.no_comma, fun hc => (of_mem_tokenQuery hc).2 rfl⟩
    · exact namesNothing_of_mem (List.mem_append_right _ hquestion) (by decide)
    -- The first character is one of the path, and the last one is one of the token.
    · rw [trim_eq_self_iff, List.head?_append, List.getLast?_append]
      refine ⟨fun c hc => ?_, fun c hc => ?_⟩
      · obtain ⟨a, ha⟩ := List.isSome_head?.mpr hne |> Option.isSome_iff_exists.mp
        rw [ha, Option.some_or, ← ha] at hc
        exact (trim_eq_self_iff.mp h.trimmed).1 c hc
      · obtain ⟨a, ha⟩ := List.getLast?_isSome.mpr (List.ne_nil_of_mem hquestion) |>
          Option.isSome_iff_exists.mp
        rw [ha, Option.some_or, ← ha] at hc
        exact isBlank_of_ascii (of_mem_tokenQuery (List.mem_of_getLast? hc)).1

/-- The source is no name of the metadata. -/
theorem source_not_mem_metadata (op : Operation) : Field.source ∉ op.metadata.map (·.1) := fun h =>
  absurd ((Operation.names_metadata_sublist op).subset h) (by decide)

/-- An operation carries the source of the session and its metadata. -/
theorem fields_sent (s : Session) (i : Invocation) :
    (i.sent s).headers.fields = (Field.source, s.source) :: (i.made s).metadata := by
  rw [sent_eq, Operation.headers_annotate, Headers.fields_write (Operation.nodup_metadata _)]
  have hsource : (i.made s).headers.fields = [(Field.source, s.source)] := rfl
  rw [hsource, List.filter_eq_self.mpr, List.singleton_append]
  simpa using source_not_mem_metadata (i.made s)

/-- The names of the fields that an operation carries are distinct. -/
theorem nodup_sent (s : Session) (i : Invocation) :
    ((i.sent s).headers.fields.map (·.1)).Nodup := by
  rw [fields_sent, List.map_cons, List.nodup_cons]
  exact ⟨source_not_mem_metadata _, Operation.nodup_metadata _⟩

/-- The source of the session is found. -/
theorem source_sent (s : Session) (i : Invocation) :
    (i.sent s).headers.get? Field.source = some s.source := by
  rw [sent_eq, Operation.headers_annotate,
    Headers.get?_write_of_not_mem (source_not_mem_metadata _)]
  exact Headers.get?_set_self _ _ _

/-- The name of a kind can be a value. -/
theorem isValueChar_kind (k : Kind) : k.name.toList.all isValueChar = true := by
  cases k <;> decide

/-- The kind is found. -/
theorem kindField_sent (s : Session) (i : Invocation) :
    (i.sent s).headers.get? Field.kind = some i.kind.name := by
  have hmem : (Field.kind, i.kind.name) ∈ (i.made s).metadata :=
    Operation.mem_metadata.mpr ⟨.inl rfl, isValueChar_kind i.kind⟩
  rw [sent_eq, Headers.get?_eq_head?, Operation.values_annotate_of_mem hmem, List.head?_cons]

/-- Without a record nothing is found under the names of its parts. -/
theorem recordField_sent (s : Session) {i : Invocation} (h : i.boundary = none) {name : String}
    (hname : name = Field.file ∨ name = Field.line ∨ name = Field.side) :
    (i.sent s).headers.get? name = none := by
  obtain ⟨part, rfl⟩ : ∃ part : Part, part.field = name := by
    rcases hname with rfl | rfl | rfl
    exacts [⟨.file, rfl⟩, ⟨.line, rfl⟩, ⟨.side, rfl⟩]
  have hnone : (i.made s).boundary = none := h
  have hne : part.field ≠ Field.source := by cases part <;> decide
  -- Annotation writes no part, and the session writes the source only.
  rw [sent_eq, Headers.get?_eq_head?, Operation.values_annotate, hnone]
  exact congrArg List.head? (Headers.values_set_of_ne hne s.source Headers.empty)

end Invocation

end Crossing.Wire
