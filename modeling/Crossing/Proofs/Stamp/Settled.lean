import Crossing.Proofs.Stamp.Passes
import Mathlib.Logic.Function.Iterate

/-!
# Stamping a module over and over

Whether a stamped module stays as it is in every further pass (`Stamper.settles_iff`). A call that
took its record does not take another one, so what a second pass stamps are the calls whose record
was lost in a remark. It loses these records again, and the module gets longer with each pass. A
module without remarks is left as it is (`Stamper.settles_of_remarkFree`).

What is read is up to the reader, of which `Reader.Spec` and `ReadsBack` state what is needed.
-/

namespace Crossing

namespace Stamp

open Text Script Script.Tree

/-- The records of the calls of a module. -/
def records (file source : String) : UInt32 → Script.Tree :=
  recordTree file (Label.ofModule source ⟨file⟩).side

/-- The script of a module, with its stamps. -/
def stampedModule (file source : String) (script : Script.Tree) : Script.Tree :=
  stamped (records file source) .start script

/-- Whether a stamped module, if a reader reads it at all, is read as the stamped script. -/
def ReadsBack (read : Script.Reader) (file source : String) : Prop :=
  ∀ script ∈ read (.ofFile file) source.toList,
    ∀ script' ∈ read (.ofFile file) (stampedModule file source script).text,
      script' = stampedModule file source script

/-- The records are those that are written into the text. -/
theorem recordLiteral_eq (file source : String) :
    recordLiteral file (Label.ofModule source ⟨file⟩).side =
      fun line => .ofList (records file source line).text := by
  funext line
  rw [records, text_recordTree, String.ofList_toList]

/-! ## What is lost makes the text longer -/

variable (record : UInt32 → Script.Tree) {script : Script.Tree}

/-- A stamp that is lost inserts a text. -/
theorem inserts_of_mem_plan (hlost : ∀ p ∈ calls script, TakesRecord p.2 → LosesRecord p.2)
    {stamp : Stamp} (h : stamp ∈ plan (fun line => .ofList (record line).text) script) :
    ∃ e, stamp.edits = [e] ∧ e.Inserts := by
  obtain ⟨⟨spot, call⟩, hcall, hstamp⟩ := List.mem_filterMap.mp h
  obtain ⟨⟨ts, hts⟩, -, -⟩ := call_of_mem_callsAt (L := layout) hcall
  dsimp only at hts hstamp
  subst hts
  split at hstamp
  · next hremote =>
    obtain ⟨edits, hedits, rfl⟩ := Option.map_eq_some_iff.mp hstamp
    cases agree_call record (record spot.lineNumber) spot ts with
    | stays hnone htree hstamped =>
      rw [hnone] at hedits
      contradiction
    | changes e call call' lost hsome htree hstamped hinserts hmakes =>
      have hloses := hlost _ hcall ⟨hremote, _, by rw [htree]; rfl⟩
      rw [losesRecord_iff (record spot.lineNumber), htree] at hloses
      have hlost : lost = true := Option.some.inj hloses.2
      rw [hsome] at hedits
      exact ⟨e, (Option.some.inj hedits).symm, hinserts hlost⟩
  · contradiction

/-- A script that loses all that it takes gets longer when it is stamped. -/
theorem width_lt_stamped (hlayout : script.Every layout)
    (hlost : ∀ p ∈ calls script, TakesRecord p.2 → LosesRecord p.2)
    (htakes : ¬ ∀ p ∈ calls script, ¬ TakesRecord p.2) :
    Utf8.width script.text < Utf8.width (stamped record .start script).text := by
  have hrewrites := rewrites_plan record hlayout
  rw [← plan_eq_nil_iff fun line => .ofList (record line).text] at htakes
  generalize hstamps : plan (fun line => .ofList (record line).text) script = stamps at *
  have hinserts : ∀ stamp ∈ stamps, ∃ e, stamp.edits = [e] ∧ e.Inserts :=
    fun stamp hstamp => inserts_of_mem_plan record hlost (hstamps ▸ hstamp)
  -- Every edit is an insertion, and there is at least one.
  have hwidth := hrewrites.width_le fun e he => by
    obtain ⟨stamp, hstamp, hmem⟩ := List.mem_flatMap.mp he
    obtain ⟨e', hedits, hinserts⟩ := hinserts stamp hstamp
    rw [hedits, List.mem_singleton] at hmem
    exact hmem ▸ hinserts
  have hsome : 0 < (stamps.flatMap (·.edits)).length := by
    obtain ⟨stamp, hstamp⟩ := List.exists_mem_of_ne_nil stamps htakes
    obtain ⟨e, hedits, -⟩ := hinserts stamp hstamp
    have hmem : e ∈ stamps.flatMap (·.edits) :=
      List.mem_flatMap.mpr ⟨stamp, hstamp, by simp [hedits]⟩
    exact List.length_pos_of_mem hmem
  omega

/-! ## One pass -/

namespace Stamper

variable (s : Stamper) (read : Script.Reader) (path : Path) (source : String)

/-- The text of a module after a pass. -/
def code : String := (s.transformWith read path source).1

/-- Whether a pass stamps a call. -/
def StampsCall : Prop := ∃ stamped, (s.stampWith? read path source).1 = .ok (some stamped)

/-- Whether a pass has something to stamp in a module with a script, and may do so. -/
structure Stamps (script : Script.Tree) : Prop where
  scope : inScope path source = true
  reads : read (.ofFile (Path.display s.root path)) source.toList = some script
  takes : ∃ p ∈ calls script, TakesRecord p.2
  /-- The stamped module is a script again. -/
  accepts : (read (.ofFile (Path.display s.root path))
    (stampedModule (Path.display s.root path) source script).text).isSome = true

instance : Decidable (s.StampsCall read path source) :=
  decidable_of_iff ((s.stampWith? read path source).1.toOption.join.isSome = true) <| by
    unfold StampsCall
    generalize (s.stampWith? read path source).1 = outcome
    rcases outcome with e | _ | stamped <;> simp [Except.toOption]

variable {s read path source}

/-- The text of a module with its stamps. -/
theorem code_of_stampWith? {stamped : Stamped}
    (h : (s.stampWith? read path source).1 = .ok (some stamped)) :
    s.code read path source = stamped.code := by
  unfold code transformWith
  split
  · next stamped' notices heq =>
    rw [heq] at h
    cases h
    rfl
  · next notices heq =>
    rw [heq] at h
    cases h
  · next e notices heq =>
    rw [heq] at h
    cases h

/-- A module without a stamped call stays as it is. -/
theorem code_of_not_stampsCall (h : ¬ s.StampsCall read path source) :
    s.code read path source = source := by
  unfold StampsCall at h
  unfold code transformWith
  split
  · next stamped notices heq => exact absurd ⟨stamped, by rw [heq]⟩ h
  · rfl
  · rfl

/-- Planned stamps make the stamped module, if it is a script. -/
theorem carryOut_plan (hread : read.Spec) {file : String} {script : Script.Tree}
    (hscript : read (.ofFile file) source.toList = some script) {stamps : List Stamp}
    (hstamps : plan (recordLiteral file (Label.ofModule source ⟨file⟩).side) script = stamps) :
    carryOut read file source stamps =
      if (read (.ofFile file) (stampedModule file source script).text).isSome then
        .ok ⟨.ofList (stampedModule file source script).text, stamps.map (·.line)⟩
      else .error (.spoiled file) := by
  rw [recordLiteral_eq] at hstamps
  have happly : Edit.applyAll? source (stamps.flatMap (·.edits)) =
      some (.ofList (stampedModule file source script).text) :=
    hstamps ▸ applyAll?_plan (hread.layout hscript) (hread.text hscript)
  unfold carryOut
  rw [happly]
  dsimp only
  rw [String.toList_ofList]

/-- A pass over a script stamps it, or a call that takes a record or a stamped script is missing. -/
theorem stampWith?_of_reads (hread : read.Spec) (hscope : inScope path source = true)
    {script : Script.Tree}
    (hscript : read (.ofFile (Path.display s.root path)) source.toList = some script) :
    (s.Stamps read path source script ∧ ∃ lines, (s.stampWith? read path source).1 =
      .ok (some ⟨.ofList (stampedModule (Path.display s.root path) source script).text, lines⟩)) ∨
    ¬ s.Stamps read path source script ∧ ¬ s.StampsCall read path source := by
  -- Nothing is planned exactly if no call takes a record; what is planned makes the stamped script.
  have htakes := plan_eq_nil_iff (recordLiteral (Path.display s.root path)
    (Label.ofModule source ⟨Path.display s.root path⟩).side) script
  cases hstamps : plan (recordLiteral (Path.display s.root path)
      (Label.ofModule source ⟨Path.display s.root path⟩).side) script with
  | nil =>
    refine .inr ⟨fun h => ?_, ?_⟩
    · obtain ⟨p, hp, htakes'⟩ := h.takes
      exact htakes.mp hstamps p hp htakes'
    · rintro ⟨stamped, h⟩
      simp [stampWith?, hscope, plan?, hscript, hstamps] at h
  | cons stamp stamps =>
    have hcarry := carryOut_plan hread hscript hstamps
    have hsome : ∃ p ∈ calls script, TakesRecord p.2 := by
      by_contra hnone
      have hnil := htakes.mpr fun p hp htakes => hnone ⟨p, hp, htakes⟩
      rw [hstamps] at hnil
      contradiction
    by_cases haccepts : (read (.ofFile (Path.display s.root path))
        (stampedModule (Path.display s.root path) source script).text).isSome = true
    · rw [if_pos haccepts] at hcarry
      refine .inl ⟨⟨hscope, hscript, hsome, haccepts⟩, (stamp :: stamps).map (·.line), ?_⟩
      simp [stampWith?, hscope, plan?, hscript, hstamps, hcarry]
    · rw [if_neg haccepts] at hcarry
      refine .inr ⟨fun h => haccepts h.accepts, ?_⟩
      rintro ⟨stamped, h⟩
      simp [stampWith?, hscope, plan?, hscript, hstamps, hcarry] at h

/-- A pass that has something to stamp makes the stamped module. -/
theorem stampWith?_of_stamps (hread : read.Spec) {script : Script.Tree}
    (h : s.Stamps read path source script) : ∃ lines, (s.stampWith? read path source).1 =
      .ok (some ⟨.ofList (stampedModule (Path.display s.root path) source script).text, lines⟩) := by
  obtain ⟨-, hpass⟩ | ⟨hnone, -⟩ := stampWith?_of_reads hread h.scope h.reads
  · exact hpass
  · exact absurd h hnone

/-- The text of a module that has something to stamp. -/
theorem code_of_stamps (hread : read.Spec) {script : Script.Tree}
    (h : s.Stamps read path source script) : s.code read path source =
      .ofList (stampedModule (Path.display s.root path) source script).text := by
  obtain ⟨lines, hpass⟩ := stampWith?_of_stamps hread h
  exact code_of_stampWith? hpass

/-- A pass stamps a call exactly if it has something to stamp and may do so. -/
theorem stampsCall_iff (hread : read.Spec) :
    s.StampsCall read path source ↔ ∃ script, s.Stamps read path source script := by
  constructor
  · rintro ⟨stamped, h⟩
    by_cases hscope : inScope path source = true
    · cases hscript : read (.ofFile (Path.display s.root path)) source.toList with
      | none => simp [stampWith?, hscope, plan?, hscript] at h
      | some script =>
        obtain ⟨hstamps, -⟩ | ⟨-, hnone⟩ := stampWith?_of_reads hread hscope hscript
        · exact ⟨script, hstamps⟩
        · exact absurd ⟨stamped, h⟩ hnone
    · simp [stampWith?, hscope] at h
  · rintro ⟨script, hstamps⟩
    obtain ⟨lines, hpass⟩ := stampWith?_of_stamps hread hstamps
    exact ⟨_, hpass⟩

/-! ## Every pass -/

variable (s read path source)

/-- Whether every pass after the first leaves the module as it is. -/
def Settles : Prop := ∀ n : Nat, (s.code read path)^[n + 1] source = s.code read path source

/-- Whether a pass stamps a module that it stamped before: a record was lost in it, and the stamped
module is still one that may be stamped. -/
structure Relapses (script : Script.Tree) : Prop where
  stamps : s.Stamps read path source script
  loses : ∃ p ∈ calls script, LosesRecord p.2
  scope : inScope path (s.code read path source) = true
  /-- The module that was stamped twice is a script. -/
  accepts : (read (.ofFile (Path.display s.root path))
    (stampedModule (Path.display s.root path) (s.code read path source)
      (stampedModule (Path.display s.root path) source script)).text).isSome = true

variable {s read path source}

/-- A module settles if a second pass stamps no call. -/
theorem settles_of_not_stampsCall (h : ¬ s.StampsCall read path (s.code read path source)) :
    s.Settles read path source := by
  intro n
  rw [Function.iterate_succ_apply]
  exact Function.iterate_fixed (code_of_not_stampsCall h) n

/-- What a pass makes of a module is read as the stamped script. -/
theorem reads_code (hread : read.Spec) (hback : ReadsBack read (Path.display s.root path) source)
    {script : Script.Tree} (hstamps : s.Stamps read path source script) :
    read (.ofFile (Path.display s.root path)) (s.code read path source).toList =
      some (stampedModule (Path.display s.root path) source script) := by
  obtain ⟨script', hscript'⟩ := Option.isSome_iff_exists.mp hstamps.accepts
  obtain rfl := hback script hstamps.reads script' hscript'
  rw [code_of_stamps hread hstamps, String.toList_ofList, hscript']

/-- A second pass stamps what the first one lost. -/
theorem stamps_code_iff (hread : read.Spec)
    (hback : ReadsBack read (Path.display s.root path) source) {script : Script.Tree}
    (hstamps : s.Stamps read path source script) :
    s.Stamps read path (s.code read path source)
        (stampedModule (Path.display s.root path) source script) ↔
      s.Relapses read path source script := by
  have htakes : (∃ p ∈ calls (stampedModule (Path.display s.root path) source script),
      TakesRecord p.2) ↔ ∃ p ∈ calls script, LosesRecord p.2 := by
    have hnone := not_congr (takesRecord_stamped (calls_recordTree (Path.display s.root path)
      (Label.ofModule source ⟨Path.display s.root path⟩).side) script)
    push Not at hnone
    exact hnone
  constructor
  · intro h
    exact ⟨hstamps, htakes.mp h.takes, h.scope, h.accepts⟩
  · intro h
    exact ⟨h.scope, reads_code hread hback hstamps, htakes.mpr h.loses, h.accepts⟩

/-- A pass that loses all that it stamps changes the module. -/
theorem code_ne_of_stamps (hread : read.Spec) {script : Script.Tree}
    (hstamps : s.Stamps read path source script)
    (hlost : ∀ p ∈ calls script, TakesRecord p.2 → LosesRecord p.2) :
    s.code read path source ≠ source := by
  intro hsame
  obtain ⟨p, hp, htakes⟩ := hstamps.takes
  -- The text would be longer than itself.
  have hlonger := width_lt_stamped (records (Path.display s.root path) source)
    (hread.layout hstamps.reads) hlost fun h => h p hp htakes
  have htext := congrArg String.toList ((code_of_stamps hread hstamps).symm.trans hsame)
  rw [String.toList_ofList] at htext
  rw [← stampedModule, htext, hread.text hstamps.reads] at hlonger
  exact Nat.lt_irrefl _ hlonger

/-- A second pass that stamps a call stamps one that lost its record, and changes the module. -/
theorem exists_relapses (hread : read.Spec)
    (hback : ReadsBack read (Path.display s.root path) source)
    (hpass : s.StampsCall read path (s.code read path source)) :
    (∃ script, s.Relapses read path source script) ∧
      s.code read path (s.code read path source) ≠ s.code read path source := by
  obtain ⟨script', hagain⟩ := (stampsCall_iff hread).mp hpass
  obtain ⟨script, hstamps⟩ : ∃ script, s.Stamps read path source script := by
    rw [← stampsCall_iff hread]
    by_contra hnone
    rw [code_of_not_stampsCall hnone] at hpass
    exact hnone hpass
  obtain rfl : script' = stampedModule (Path.display s.root path) source script :=
    Option.some.inj (hagain.reads.symm.trans (reads_code hread hback hstamps))
  have hlost := losesRecord_of_mem_calls_stamped (calls_recordTree (Path.display s.root path)
    (Label.ofModule source ⟨Path.display s.root path⟩).side) script
  exact ⟨⟨script, (stamps_code_iff hread hback hstamps).mp hagain⟩,
    code_ne_of_stamps hread hagain hlost⟩

/-- Every pass after the first leaves the module as it is, and the second one stamps no call, exactly
if the first pass does not lose a record in a module that may be stamped again. -/
theorem settles_iff (hread : read.Spec) (hback : ReadsBack read (Path.display s.root path) source) :
    (s.Settles read path source ↔ ∀ script, ¬ s.Relapses read path source script) ∧
      (¬ s.StampsCall read path (s.code read path source) ↔
        ∀ script, ¬ s.Relapses read path source script) := by
  by_cases hpass : s.StampsCall read path (s.code read path source)
  · -- The second pass stamps a call, so the first one did, and lost its record.
    obtain ⟨⟨script, hrelapses⟩, hchanged⟩ := exists_relapses hread hback hpass
    have hfalse : ¬ ∀ script, ¬ s.Relapses read path source script := fun h => h script hrelapses
    exact ⟨iff_of_false (fun hsettles => hchanged (hsettles 1)) hfalse,
      iff_of_false (not_not_intro hpass) hfalse⟩
  · -- Whatever the first pass stamped, there is nothing that may be stamped again.
    have htrue (script : Script.Tree) : ¬ s.Relapses read path source script := fun h =>
      hpass ((stampsCall_iff hread).mpr ⟨_, (stamps_code_iff hread hback h.stamps).mpr h⟩)
    exact ⟨iff_of_true (settles_of_not_stampsCall hpass) htrue, iff_of_true hpass htrue⟩

/-- A call with nothing but a remark among its arguments loses its record in each pass. -/
theorem not_settles_remark : ¬ Settles ⟨⟨"/repo"⟩, false⟩ parse? ⟨"/repo/a.ts"⟩
    "a.b.query(<!-- c\n);" := by
  have hback : ReadsBack parse? (Path.display ⟨"/repo"⟩ ⟨"/repo/a.ts"⟩) "a.b.query(<!-- c\n);" := by
    unfold ReadsBack
    decide +kernel
  have hcall : StampsCall ⟨⟨"/repo"⟩, false⟩ parse? ⟨"/repo/a.ts"⟩
      (code ⟨⟨"/repo"⟩, false⟩ parse? ⟨"/repo/a.ts"⟩ "a.b.query(<!-- c\n);") := by
    decide +kernel
  obtain ⟨hsettles, hquiet⟩ :=
    @settles_iff ⟨⟨"/repo"⟩, false⟩ parse? ⟨"/repo/a.ts"⟩ _ spec_parse? hback
  exact fun h => hquiet.mpr (hsettles.mp h) hcall

/-- Every pass after the first leaves a module without remarks as it is. -/
theorem settles_of_remarkFree (hread : read.Spec)
    (hback : ReadsBack read (Path.display s.root path) source)
    (hremarks : ∀ script ∈ read (.ofFile (Path.display s.root path)) source.toList,
      remarkFree script) : s.Settles read path source := by
  refine settles_of_not_stampsCall fun hpass => ?_
  obtain ⟨⟨script, h⟩, -⟩ := exists_relapses hread hback hpass
  obtain ⟨p, hp, hloses⟩ := h.loses
  have hfree := remarkFree_of_mem_callsAt (hremarks script h.stamps.reads) hp
  exact not_losesRecord_of_remarkFree hfree hloses

end Stamper

end Stamp

end Crossing
