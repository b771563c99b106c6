import Crossing.Proofs.Text.Segments
import Crossing.Proofs.Wire.Annotate

/-!
# What an operation carries after its history

An operation is made without the metadata of a record. After that its kind, its path and its
boundary record may change and it may be annotated, in any order and any number of times. Annotation
writes what can be written and takes nothing away, so of each part of a record the operation carries
what the newest of the written records that fit has there (`values_now`). What it carries right
after an annotation is therefore that of its current record, unless an older one shows through
(`current_annotate_iff`): if the record was cleared, or if its file cannot be a header value.
-/

namespace Crossing.Wire

open Text Http Boundary

namespace Operation

/-- The tokens on a path: what stands behind `?__b=`, up to the next question mark. -/
def tokensOn (path : String) : List String :=
  ((path.toList.splitOn '?').tail.filterMap (after? (tokenKey ++ ['=']))).map .ofList

/-- Annotation leaves the token of the record on the path, or the tokens that were there. -/
theorem tokensOn_annotate (op : Operation) :
    tokensOn op.annotate.path =
      match op.boundary with
      | none => tokensOn op.path
      | some r => [r.token] := by
  rw [path_annotate]
  cases op.boundary with
  | none => rfl
  | some r =>
    -- Of the two segments of the new path the first is the logical path.
    have hquery : '?' ∉ tokenKey ++ '=' :: r.token.toList := by
      rw [List.mem_append, List.mem_cons, not_or, not_or]
      exact ⟨by decide, by decide, question_not_mem_token r⟩
    have hsplit : (op.logicalPath ++ tokenQuery r).toList.splitOn '?' =
        [op.logicalPath.toList, tokenKey ++ '=' :: r.token.toList] := by
      rw [String.toList_append, toList_tokenQuery, splitOn_append,
        List.splitOn_eq_singleton (not_mem_logicalPath op), List.splitOn_eq_singleton hquery]
      rfl
    have hafter : after? (tokenKey ++ ['=']) (tokenKey ++ '=' :: r.token.toList) =
        some r.token.toList := by
      have h := after?_append (tokenKey ++ ['=']) r.token.toList
      rwa [List.append_assoc, List.singleton_append] at h
    simp only [tokensOn, hsplit, List.tail_cons, List.filterMap_cons, hafter, List.filterMap_nil,
      List.map_cons, List.map_nil, String.ofList_toList]

/-- An operation without the metadata of a record. -/
structure Bare (op : Operation) : Prop where
  fields : ∀ part : Part, op.headers.values part.field = []
  path : tokensOn op.path = []

/-- What a session makes of a path without a token is bare. -/
theorem bare_operation (s : Session) (kind : Kind) {path : String} (hpath : tokensOn path = [])
    (boundary : Option Record) : (s.operation kind path boundary).1.Bare := by
  refine ⟨fun part => ?_, hpath⟩
  have hne : part.field ≠ Field.source := by cases part <;> decide
  exact Headers.values_set_of_ne hne s.source Headers.empty

/-- An operation all of whose metadata are those of its record. Without a record there are none. -/
structure Current (op : Operation) : Prop where
  fields : ∀ part : Part, ∀ value ∈ op.headers.values part.field,
    ∃ r, op.boundary = some r ∧ value = part.text r
  path : ∀ token ∈ tokensOn op.path, ∃ r, op.boundary = some r ∧ token = r.token

/-- Without a record an operation is current exactly if it is bare. -/
theorem current_iff_bare {op : Operation} (hnone : op.boundary = none) : op.Current ↔ op.Bare := by
  have hrecord (P : Record → Prop) : ¬ ∃ r, op.boundary = some r ∧ P r := by
    rintro ⟨r, hr, -⟩
    rw [hnone] at hr
    cases hr
  constructor
  · intro h
    exact ⟨fun part => List.eq_nil_iff_forall_not_mem.mpr fun value hvalue =>
      hrecord _ (h.fields part value hvalue), List.eq_nil_iff_forall_not_mem.mpr fun token htoken =>
      hrecord _ (h.path token htoken)⟩
  · intro h
    refine ⟨fun part value hvalue => ?_, fun token htoken => ?_⟩
    · rw [h.fields part] at hvalue
      cases hvalue
    · rw [h.path] at htoken
      cases htoken

end Operation

/-- What can happen to an operation. -/
inductive Change where
  /-- It is made anew, without the metadata of a record. -/
  | create (op : Operation) (bare : op.Bare)
  | kind (kind : Kind)
  | path (path : String)
  | boundary (boundary : Option Record)
  | annotate

/-- An operation after a change. -/
def Change.apply (op : Operation) : Change → Operation
  | create new _ => new
  | kind k => { op with kind := k }
  | path p => { op with path := p }
  | boundary b => { op with boundary := b }
  | annotate => op.annotate

/-- A history of an operation up to its newest change. -/
inductive History where
  | created (op : Operation) (bare : op.Bare)
  | next (h : History) (change : Change)

namespace History

/-- The operation at the end of its history. -/
def now : History → Operation
  | created op _ => op
  | next h change => change.apply h.now

/-- The records that annotations have written since the operation was made, the newest first. -/
def written : History → List Record
  | created _ _ => []
  | next _ (.create _ _) => []
  | next h .annotate => h.now.boundary.toList ++ h.written
  | next h _ => h.written

/-- The path that the operation was given last, when it was made or changed. -/
def given : History → String
  | created op _ => op.path
  | next _ (.create op _) => op.path
  | next _ (.path p) => p
  | next h _ => h.given

/-- Of each part an operation carries that of the newest written record whose part fits. -/
theorem values_now (h : History) (part : Part) :
    h.now.headers.values part.field = ((h.written.find? part.fits).map part.text).toList := by
  induction h with
  | created op bare => exact bare.fields part
  | next h change ih =>
    cases change with
    | create op bare => exact bare.fields part
    | kind | path | boundary => exact ih
    | annotate =>
      have hstep := h.now.values_annotate part
      rw [written, List.find?_append]
      cases hb : h.now.boundary with
      | none =>
        rw [hb] at hstep
        exact hstep.trans ih
      | some r =>
        rw [hb] at hstep
        refine hstep.trans ?_
        by_cases hfits : part.fits r = true
        · simp [hfits]
        · simpa [hfits] using ih

/-- Before a record is written an operation has the path that it was given. -/
theorem path_now {h : History} (hnone : h.written = []) : h.now.path = h.given := by
  induction h with
  | created op bare => rfl
  | next h change ih =>
    cases change with
    | create | path => rfl
    | kind | boundary => exact ih hnone
    | annotate =>
      rw [written, List.append_eq_nil_iff] at hnone
      have hstep := h.now.path_annotate
      rw [Option.toList_eq_nil_iff.mp hnone.1] at hstep
      exact hstep.trans (ih hnone.2)

/-- An operation is bare exactly if no record was written since it was made and its path was given
without a token. -/
theorem bare_now_iff (h : History) :
    h.now.Bare ↔ h.written = [] ∧ Operation.tokensOn h.given = [] := by
  constructor
  · intro hbare
    -- A record that was written would have left its line.
    have hline : h.written.find? Part.line.fits = none := by
      simpa [values_now h] using hbare.fields .line
    have hnone : h.written = [] := List.eq_nil_iff_forall_not_mem.mpr fun r hr =>
      List.find?_eq_none.mp hline r hr (Part.fits_line r)
    exact ⟨hnone, path_now hnone ▸ hbare.path⟩
  · rintro ⟨hnone, hgiven⟩
    refine ⟨fun part => ?_, path_now hnone ▸ hgiven⟩
    rw [values_now, hnone]
    rfl

/-- Whether an annotation leaves an operation with metadata that are not those of its record. It has
no record, but one was written since it was made or its path was given with a token; or its file
does not fit, and that of an older record did. -/
def Outdated (h : History) : Prop :=
  match h.now.boundary with
  | none => h.written ≠ [] ∨ Operation.tokensOn h.given ≠ []
  | some r => ¬ Part.file.fits r = true ∧ ∃ older ∈ h.written, Part.file.fits older = true

/-- With a record, an annotation leaves nothing of an older one unless it leaves an older file. -/
theorem current_annotate_of_some {h : History} {r : Record} (hr : h.now.boundary = some r) :
    (h.next .annotate).now.Current ↔
      ¬ (¬ Part.file.fits r = true ∧ ∃ older ∈ h.written, Part.file.fits older = true) := by
  have hboundary : (h.next .annotate).now.boundary = some r := h.now.boundary_annotate.trans hr
  have hwritten : (h.next .annotate).written = r :: h.written := by simp [written, hr]
  constructor
  · rintro hcurrent ⟨hunfit, older, hmem, hfits⟩
    -- The newest file that fits shows through, and it is not that of the record.
    obtain ⟨newest, hnewest⟩ := Option.isSome_iff_exists.mp
      (List.find?_isSome.mpr ⟨older, hmem, hfits⟩)
    have hshown : newest.file ∈ (h.next .annotate).now.headers.values Part.file.field := by
      rw [values_now, hwritten, List.find?_cons_of_neg hunfit, hnewest]
      exact List.mem_singleton_self _
    obtain ⟨r', hr', hfile⟩ := hcurrent.fields .file _ hshown
    obtain rfl := Option.some.inj (hboundary.symm.trans hr')
    refine hunfit ?_
    have hnewestFits := List.find?_some hnewest
    rw [Part.fits] at hnewestFits ⊢
    rwa [← hfile]
  · intro hkept
    refine ⟨fun part value hvalue => ⟨r, hboundary, ?_⟩, fun token htoken => ⟨r, hboundary, ?_⟩⟩
    · rw [values_now, hwritten] at hvalue
      by_cases hfits : part.fits r = true
      · rw [List.find?_cons_of_pos hfits] at hvalue
        exact List.mem_singleton.mp hvalue
      · -- Only the file may not fit, and then no older one does.
        obtain rfl := Part.eq_file_of_not_fits hfits
        have hnone : h.written.find? Part.file.fits = none := List.find?_eq_none.mpr
          fun older hmem holder => hkept ⟨hfits, older, hmem, holder⟩
        rw [List.find?_cons_of_neg hfits, hnone] at hvalue
        cases hvalue
    · have htokens := h.now.tokensOn_annotate
      rw [hr] at htokens
      have htoken : token ∈ Operation.tokensOn h.now.annotate.path := htoken
      rw [htokens] at htoken
      exact List.mem_singleton.mp htoken

/-- Right after an annotation the operation carries of each part of a record that of the newest
written record whose part fits, and all of it is that of the current record exactly if the history
has left nothing outdated. -/
theorem current_annotate_iff (h : History) :
    (∀ part : Part, (h.next .annotate).now.headers.values part.field =
        (((h.next .annotate).written.find? part.fits).map part.text).toList) ∧
      ((h.next .annotate).now.Current ↔ ¬ h.Outdated) := by
  refine ⟨values_now (h.next .annotate), ?_⟩
  cases hb : h.now.boundary with
  | none =>
    have hboundary : (h.next .annotate).now.boundary = none := h.now.boundary_annotate.trans hb
    have hwritten : (h.next .annotate).written = h.written := by simp [written, hb]
    have hgiven : (h.next .annotate).given = h.given := rfl
    rw [Operation.current_iff_bare hboundary, bare_now_iff, hwritten, hgiven]
    simp only [Outdated, hb, not_or, not_not]
  | some r =>
    rw [current_annotate_of_some hb]
    simp only [Outdated, hb]

/-- The record that an operation was made with. -/
def firstRecord : Record := ⟨"./a.ts", 1, .client⟩

/-- A record whose file cannot be a header value. -/
def brokenRecord : Record := ⟨"./b\nc.ts", 2, .server⟩

/-- The operation of a browser, annotated with its first record, has got another one. -/
def moved : History :=
  have hpath : Operation.tokensOn "a" = [] := by decide
  ((created _ (Operation.bare_operation Session.browser .query hpath (some firstRecord))).next
    .annotate).next (.boundary (some brokenRecord))

/-- Annotated with the other record too, it has lost its record. -/
def cleared : History :=
  (moved.next .annotate).next (.boundary none)

/-- Annotated once more the operation keeps the file of its first record, and without a record it
keeps the token, the line and the side of the other one too. -/
theorem not_current_cleared :
    (moved.next .annotate).now.headers.values Field.file = ["./a.ts"] ∧
      (moved.next .annotate).now.boundary = some brokenRecord ∧
      ¬ (moved.next .annotate).now.Current ∧
      (cleared.next .annotate).now =
        { id := 1
          kind := .query
          path := "a?__b=.%2Fb%0Ac.ts%3A2%3Aserver"
          boundary := none
          headers := ⟨[(Field.source, "nextjs-react"), (Field.file, "./a.ts"), (Field.line, "2"),
            (Field.side, "server"), (Field.kind, "query"), (Field.path, "a")]⟩ } ∧
      ¬ (cleared.next .annotate).now.Current := by
  obtain ⟨hmoved, hmovedCurrent⟩ := current_annotate_iff moved
  obtain ⟨-, hclearedCurrent⟩ := current_annotate_iff cleared
  refine ⟨(hmoved .file).trans (by decide), by decide, ?_, by decide +kernel, ?_⟩
  · rw [hmovedCurrent, not_not]
    exact ⟨by decide, firstRecord, by decide, by decide⟩
  · rw [hclearedCurrent, not_not]
    exact .inl (by decide)

end History

end Crossing.Wire
