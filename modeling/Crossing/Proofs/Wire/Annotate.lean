import Crossing.Proofs.Boundary.Token
import Crossing.Proofs.Http.Headers
import Crossing.Proofs.Text.Search
import Crossing.Wire.Operation
import Mathlib.Logic.Function.Iterate

/-!
# Annotated operations

Annotation writes a list of fields, `metadata`, which depends on nothing that annotation changes:
the kind, the path up to its first question mark, and the boundary record. So an operation that is
annotated again stays as it is (`annotate_annotate`), however often it goes through the link, and
what annotation leaves alone is known field by field (`annotate_frame`).
-/

namespace Crossing.Wire

open Text Http Boundary

/-- A text can be a header value if all of its characters can stand in one. -/
theorem headerValue?_eq (text : String) :
    headerValue? text = if text.toList.all isValueChar then some text else none := rfl

/-- The names of the fields that annotation may write. -/
def boundaryFields : List String :=
  [Field.kind, Field.path, Field.file, Field.line, Field.side]

/-- A part of a boundary record, which travels in a field of its own. -/
inductive Part where
  | file
  | line
  | side
deriving DecidableEq, Inhabited

namespace Part

/-- The name of the field that a part travels in. -/
def field : Part → String
  | file => Field.file
  | line => Field.line
  | side => Field.side

/-- The text of a part of a record. -/
def text : Part → Record → String
  | file, r => r.file
  | line, r => .ofList (Decimal.ofNat r.line.toNat)
  | side, r => r.side.name

/-- Whether a part of a record can be a header value. -/
def fits (part : Part) (r : Record) : Bool :=
  (part.text r).toList.all isValueChar

/-- A line can be a header value. -/
theorem fits_line (r : Record) : line.fits r = true := by
  rw [fits, text, String.toList_ofList, List.all_eq_true]
  intro c hc
  have hascii := (toNat_of_digit ((Decimal.ofNat_spec _).2 c hc)).1
  simp only [isValueChar, Bool.or_eq_true, decide_eq_true_eq, Bool.and_eq_true, bne_iff_ne]
  omega

/-- A side can be a header value. -/
theorem fits_side (r : Record) : side.fits r = true := by
  cases hside : r.side <;> simp only [fits, text, hside] <;> decide

/-- Only a file can fail to be a header value. -/
theorem eq_file_of_not_fits {part : Part} {r : Record} (h : ¬ part.fits r = true) :
    part = file := by
  cases part with
  | file => rfl
  | line => exact absurd (fits_line r) h
  | side => exact absurd (fits_side r) h

/-- The parts travel in fields of their own. -/
theorem field_injective : Function.Injective field := by
  intro a b h
  cases a <;> cases b <;> first | rfl | exact absurd h (by decide)

/-- No part travels in the field of the kind or in that of the path. -/
theorem field_ne (part : Part) : part.field ≠ Field.kind ∧ part.field ≠ Field.path := by
  cases part <;> decide

end Part

namespace Operation

/-- The fields that annotation writes; those whose text cannot be a value are left out. -/
def metadata (op : Operation) : List (String × String) :=
  let record := match op.boundary with
    | none => []
    | some r => [(Field.file, r.file), (Field.line, .ofList (Decimal.ofNat r.line.toNat)),
        (Field.side, r.side.name)]
  ((Field.kind, op.kind.name) :: (Field.path, op.logicalPath) :: record).filter
    fun f => f.2.toList.all isValueChar

/-- The metadata are the kind, the path and the parts of the record, as far as they can be
values. -/
theorem mem_metadata {op : Operation} {f : String × String} : f ∈ op.metadata ↔
    (f = (Field.kind, op.kind.name) ∨ f = (Field.path, op.logicalPath) ∨
      ∃ r, op.boundary = some r ∧ ∃ part : Part, f = (part.field, part.text r)) ∧
    f.2.toList.all isValueChar = true := by
  rw [metadata, List.mem_filter, List.mem_cons, List.mem_cons]
  refine and_congr_left fun _ => or_congr_right (or_congr_right ?_)
  cases op.boundary with
  | none => simp
  | some r =>
    simp only [List.mem_cons, List.not_mem_nil, or_false, Option.some.injEq, exists_eq_left']
    constructor
    · rintro (hf | hf | hf)
      · exact ⟨.file, hf⟩
      · exact ⟨.line, hf⟩
      · exact ⟨.side, hf⟩
    · rintro ⟨_ | _ | _, hf⟩
      · exact .inl hf
      · exact .inr (.inl hf)
      · exact .inr (.inr hf)

/-- Annotation writes a part if there is a record whose part fits. -/
theorem field_mem_metadata {op : Operation} {part : Part} :
    part.field ∈ op.metadata.map (·.1) ↔ ∃ r, op.boundary = some r ∧ part.fits r = true := by
  rw [List.mem_map]
  constructor
  · rintro ⟨f, hf, hname⟩
    obtain ⟨rfl | rfl | ⟨r, hr, other, rfl⟩, hfits⟩ := mem_metadata.mp hf
    · exact absurd hname.symm part.field_ne.1
    · exact absurd hname.symm part.field_ne.2
    · obtain rfl := Part.field_injective hname
      exact ⟨r, hr, hfits⟩
  · rintro ⟨r, hr, hfits⟩
    exact ⟨(part.field, part.text r), mem_metadata.mpr ⟨.inr (.inr ⟨r, hr, part, rfl⟩), hfits⟩, rfl⟩

/-- Annotation writes the metadata of the operation into its headers. -/
theorem headers_annotate (op : Operation) :
    op.annotate.headers = op.headers.write op.metadata := by
  have hset (name text : String) (h : Headers) : setIfValue name text h =
      if text.toList.all isValueChar then h.set name text else h := by
    rw [setIfValue, headerValue?_eq]
    by_cases hv : text.toList.all isValueChar <;>
      simp only [hv, if_true, if_false, Bool.false_eq_true]
  cases hb : op.boundary <;>
    simp only [annotate, metadata, hb, Headers.write, List.foldl_filter, List.foldl_cons,
      List.foldl_nil, hset]

/-- The metadata are named by some of the boundary fields, in their order. -/
theorem names_metadata_sublist (op : Operation) :
    (op.metadata.map (·.1)).Sublist boundaryFields := by
  refine (List.filter_sublist.map _).trans ?_
  cases op.boundary <;> simp only [List.map_cons, List.map_nil] <;> decide

/-- The names of the metadata are distinct. -/
theorem nodup_metadata (op : Operation) : (op.metadata.map (·.1)).Nodup :=
  (names_metadata_sublist op).nodup (by decide)

/-- Annotation keeps the number. -/
@[simp]
theorem id_annotate (op : Operation) : op.annotate.id = op.id := by
  unfold annotate; split <;> rfl

/-- Annotation keeps the kind. -/
@[simp]
theorem kind_annotate (op : Operation) : op.annotate.kind = op.kind := by
  unfold annotate; split <;> rfl

/-- Annotation keeps the boundary record. -/
@[simp]
theorem boundary_annotate (op : Operation) : op.annotate.boundary = op.boundary := by
  unfold annotate; split <;> simp_all

/-- Annotation puts the token of the record behind the path up to its question mark. -/
theorem path_annotate (op : Operation) : op.annotate.path =
    match op.boundary with
    | none => op.path
    | some r => op.logicalPath ++ tokenQuery r := by
  unfold annotate; split <;> simp_all

/-- The path up to its first question mark holds none. -/
theorem not_mem_logicalPath (op : Operation) : '?' ∉ op.logicalPath.toList := by
  unfold logicalPath
  split
  · next name rest h =>
    rw [String.toList_ofList]
    exact not_mem_of_cut? h
  · next h => exact cut?_eq_none_iff.mp h

/-- The query of a token starts with a question mark. -/
theorem toList_tokenQuery (r : Record) :
    (tokenQuery r).toList = '?' :: (tokenKey ++ '=' :: r.token.toList) := by
  simp [tokenQuery]

/-- Annotation keeps the path up to the question mark. -/
@[simp]
theorem logicalPath_annotate (op : Operation) : op.annotate.logicalPath = op.logicalPath := by
  rw [logicalPath, path_annotate]
  cases op.boundary with
  | none => rfl
  | some r =>
    simp only [String.toList_append, toList_tokenQuery, cut?_append (not_mem_logicalPath op),
      String.ofList_toList]

/-- Annotation does not change what is to be written. -/
theorem metadata_annotate (op : Operation) : op.annotate.metadata = op.metadata := by
  simp [metadata]

/-- Annotating an operation a second time changes nothing. -/
theorem annotate_annotate (op : Operation) : op.annotate.annotate = op.annotate := by
  -- The second annotation writes the same fields, and puts the same token behind the path.
  have hheaders : op.annotate.annotate.headers = op.annotate.headers := by
    rw [headers_annotate op.annotate, metadata_annotate, headers_annotate,
      Headers.write_write (nodup_metadata op)]
  have hpath : op.annotate.annotate.path = op.annotate.path := by
    rw [path_annotate op.annotate, boundary_annotate, logicalPath_annotate, path_annotate]
    cases op.boundary <;> rfl
  have hid : op.annotate.annotate.id = op.annotate.id := by simp
  have hkind : op.annotate.annotate.kind = op.annotate.kind := by simp
  have hboundary : op.annotate.annotate.boundary = op.annotate.boundary := by simp
  generalize op.annotate.annotate = twice at *
  generalize op.annotate = once at *
  cases twice
  cases once
  simp_all

/-- An operation that is annotated any number of times is one that is annotated once. -/
theorem annotate_iterate (op : Operation) (n : Nat) : annotate^[n + 1] op = op.annotate := by
  induction n with
  | zero => rfl
  | succ n ih => rw [Function.iterate_succ_apply', ih, annotate_annotate]

/-! ## What annotation leaves alone -/

/-- A name that annotation does not write keeps its values. -/
theorem values_annotate_of_not_mem {op : Operation} {name : String}
    (hname : name ∉ op.metadata.map (·.1)) :
    op.annotate.headers.values name = op.headers.values name := by
  rw [headers_annotate, Headers.values_write_of_not_mem hname]

/-- A name that annotation writes has what is written as its only value. -/
theorem values_annotate_of_mem {op : Operation} {f : String × String} (hf : f ∈ op.metadata) :
    op.annotate.headers.values f.1 = [f.2] := by
  rw [headers_annotate, Headers.values_write_of_mem (nodup_metadata op) hf]

/-- Annotation writes the parts of the record that fit and leaves the others as they are. -/
theorem values_annotate (op : Operation) (part : Part) :
    op.annotate.headers.values part.field =
      match op.boundary with
      | none => op.headers.values part.field
      | some r => if part.fits r then [part.text r] else op.headers.values part.field := by
  cases hb : op.boundary with
  | none =>
    refine values_annotate_of_not_mem fun hmem => ?_
    obtain ⟨r, hr, -⟩ := field_mem_metadata.mp hmem
    rw [hb] at hr
    cases hr
  | some r =>
    by_cases hfits : part.fits r = true
    · have hmem : (part.field, part.text r) ∈ op.metadata :=
        mem_metadata.mpr ⟨.inr (.inr ⟨r, hb, part, rfl⟩), hfits⟩
      simp only [hfits, if_true]
      exact values_annotate_of_mem hmem
    · simp only [if_neg hfits]
      refine values_annotate_of_not_mem fun hmem => ?_
      obtain ⟨r', hr', hfits'⟩ := field_mem_metadata.mp hmem
      obtain rfl := Option.some.inj (hb.symm.trans hr')
      exact hfits hfits'

/-- The query of a token is its key with the token behind it. -/
theorem tokenQuery_eq (r : Record) : tokenQuery r = "?__b=" ++ r.token := rfl

/-- A token holds no question mark. -/
theorem question_not_mem_token (r : Record) : '?' ∉ r.token.toList := by
  rw [Record.toList_token]
  exact Percent.not_mem_encode (by decide) (by decide) _

/-- Annotation is complete at once, and it changes nothing but the fields of the metadata, which are
some of the boundary fields and then have one value each, and the query of the path. If there is a
record, that query is its token, which holds no further question mark and gives the record back
exactly if the file of the record is not empty and holds no colon. -/
theorem annotate_frame (op : Operation) :
    op.annotate.annotate = op.annotate ∧
      (op.annotate.id = op.id ∧ op.annotate.kind = op.kind ∧
        op.annotate.boundary = op.boundary ∧ op.annotate.logicalPath = op.logicalPath) ∧
      op.metadata.map (·.1) ⊆ boundaryFields ∧
      (∀ f ∈ op.metadata, op.annotate.headers.values f.1 = [f.2]) ∧
      (∀ name, name ∉ op.metadata.map (·.1) →
        op.annotate.headers.values name = op.headers.values name) ∧
      ∀ r, op.boundary = some r →
        op.annotate.path = op.logicalPath ++ "?__b=" ++ r.token ∧ '?' ∉ r.token.toList ∧
          (Partial.ofToken r.token = ⟨some r.file, some r.line, some r.side⟩ ↔
            r.file ≠ "" ∧ ':' ∉ r.file.toList) := by
  refine ⟨annotate_annotate op, ⟨id_annotate op, kind_annotate op, boundary_annotate op,
    logicalPath_annotate op⟩, (names_metadata_sublist op).subset,
    fun f hf => values_annotate_of_mem hf, fun name hname => values_annotate_of_not_mem hname,
    fun r hr => ⟨?_, question_not_mem_token r, ?_, ?_⟩⟩
  · simp only [path_annotate, hr, tokenQuery_eq, String.append_assoc]
  · intro hall
    exact Partial.file_ofPlain (congrArg Partial.file hall)
  · rintro ⟨hne, hcolon⟩
    exact Record.ofToken_token hne hcolon

/-- An operation whose path has two queries, and whose headers have several values of two names, one
of which annotation writes. -/
def overgrown : Operation where
  id := 7
  kind := .subscription
  path := "a,b?x?__b=old"
  boundary := some ⟨"./ä b?,.ts", 12, .client⟩
  headers := ⟨[("x-tag", "1"), (Field.file, "old"), ("x-tag", "2"), (Field.file, "older")]⟩

/-- Both queries of the path make room for the token, and both values of the file for the new one;
the two values of the other name stay. -/
theorem annotate_frame_overgrown :
    overgrown.annotate.annotate = overgrown.annotate ∧
      overgrown.annotate.headers.values "x-tag" = ["1", "2"] ∧
      overgrown.annotate.headers.values Field.file = ["./ä b?,.ts"] ∧
      overgrown.annotate.path = "a,b?__b=.%2F%C3%A4%20b%3F%2C.ts%3A12%3Aclient" ∧
      Partial.ofToken (Record.token ⟨"./ä b?,.ts", 12, .client⟩) =
        ⟨some "./ä b?,.ts", some 12, some .client⟩ := by
  obtain ⟨hagain, -, -, hwritten, hkept, hstamped⟩ := annotate_frame overgrown
  obtain ⟨hpath, -, htoken⟩ := hstamped ⟨"./ä b?,.ts", 12, .client⟩ rfl
  refine ⟨hagain, hkept "x-tag" (by decide +kernel),
    hwritten (Field.file, "./ä b?,.ts") (by decide +kernel), ?_, htoken.mpr ⟨by decide, by decide⟩⟩
  rw [hpath]
  decide +kernel

end Operation

end Crossing.Wire
