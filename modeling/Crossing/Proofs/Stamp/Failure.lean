import Crossing.Proofs.Stamp.Grown

/-!
# Modules that cannot be stamped

When a pass over a module fails (`Stamper.stampWith?_eq_error_iff`). There are two cases, and both
are questions to the reader: the module is no script, or it has a call that takes a record and is no
script any more once it has its records. Carrying out the edits never fails by itself. A module that
a pass fails on stays as it is, and a warning says why.

The second case is reached by a remark: a record that is lost in it brings its file name along, and
a name with a line separator ends the remark in the midst of the record. A module without remarks is
not spoiled by its records, whoever reads scripts by their grammar (`eq_error_iff_of_remarkFree`).
-/

namespace Crossing.Stamp.Stamper

open Script

variable {s : Stamper} {read : Script.Reader} {path : Path} {source : String}

/-- Why a pass fails on a module in scope. -/
inductive Fails (s : Stamper) (read : Script.Reader) (path : Path) (source : String) :
    StampError → Prop
  /-- The module is no script. -/
  | unreadable (hreads : read (.ofFile (Path.display s.root path)) source.toList = none) :
    Fails s read path source (.unreadable (Path.display s.root path))
  /-- The module takes a record, and with its records it is no script. -/
  | spoiled {script : Script.Tree}
    (hreads : read (.ofFile (Path.display s.root path)) source.toList = some script)
    (htakes : ∃ p ∈ calls script, TakesRecord p.2)
    (hrejects : read (.ofFile (Path.display s.root path))
      (stampedModule (Path.display s.root path) source script).text = none) :
    Fails s read path source (.spoiled (Path.display s.root path))

/-- A script in which no call takes a record stays as it is. -/
theorem stampWith?_of_nothing (hscope : inScope path source = true) {script : Script.Tree}
    (hreads : read (.ofFile (Path.display s.root path)) source.toList = some script)
    (hnothing : ∀ p ∈ calls script, ¬ TakesRecord p.2) :
    s.stampWith? read path source =
      (.ok none, s.told ("Processing " ++ Path.display s.root path)) := by
  have hplan := (plan_eq_nil_iff (recordLiteral (Path.display s.root path)
    (Label.ofModule source ⟨Path.display s.root path⟩).side) script).mpr hnothing
  simp [stampWith?, hscope, plan?, hreads, hplan]

/-- A script with a call that takes a record gets its records, if it is a script with them. -/
theorem stampWith?_of_takes (hread : read.Spec) (hscope : inScope path source = true)
    {script : Script.Tree}
    (hreads : read (.ofFile (Path.display s.root path)) source.toList = some script)
    (htakes : ∃ p ∈ calls script, TakesRecord p.2) :
    (∃ stamped, (s.stampWith? read path source).1 = .ok (some stamped)) ∧
        (read (.ofFile (Path.display s.root path))
          (stampedModule (Path.display s.root path) source script).text).isSome = true ∨
      s.stampWith? read path source =
          (.error (.spoiled (Path.display s.root path)),
            s.told ("Processing " ++ Path.display s.root path)) ∧
        read (.ofFile (Path.display s.root path))
          (stampedModule (Path.display s.root path) source script).text = none := by
  cases hplan : plan (recordLiteral (Path.display s.root path)
      (Label.ofModule source ⟨Path.display s.root path⟩).side) script with
  | nil =>
    obtain ⟨p, hp, htakes⟩ := htakes
    exact absurd htakes ((plan_eq_nil_iff _ script).mp hplan p hp)
  | cons stamp stamps =>
    -- The edits make the stamped module, so all that counts is whether it is a script.
    have hcarry := carryOut_plan hread hreads hplan
    cases hagain : read (.ofFile (Path.display s.root path))
        (stampedModule (Path.display s.root path) source script).text with
    | some script' =>
      rw [hagain, Option.isSome_some, if_pos rfl] at hcarry
      refine .inl ⟨?_, rfl⟩
      simp [stampWith?, hscope, plan?, hreads, hplan, hcarry]
    | none =>
      rw [hagain, Option.isSome_none, if_neg Bool.false_ne_true] at hcarry
      refine .inr ⟨?_, rfl⟩
      simp [stampWith?, hscope, plan?, hreads, hplan, hcarry]

/-- What a pass over a module in scope comes to: it fails, or it does not and has no reason to. -/
theorem fails_or_not (hread : read.Spec) (hscope : inScope path source = true) :
    (∃ e, s.stampWith? read path source =
        (.error e, s.told ("Processing " ++ Path.display s.root path)) ∧
      ∀ e', s.Fails read path source e' ↔ e' = e) ∨
    (∃ outcome, (s.stampWith? read path source).1 = .ok outcome) ∧
      ∀ e, ¬ s.Fails read path source e := by
  cases hreads : read (.ofFile (Path.display s.root path)) source.toList with
  | none =>
    refine .inl ⟨.unreadable (Path.display s.root path),
      by simp [stampWith?, hscope, plan?, hreads], fun e' => ⟨?_, ?_⟩⟩
    · rintro (_ | hsome)
      · rfl
      · rw [hreads] at hsome
        contradiction
    · rintro rfl
      exact .unreadable hreads
  | some script =>
    by_cases htakes : ∃ p ∈ calls script, TakesRecord p.2
    · obtain ⟨⟨stamped, hok⟩, hsome⟩ | ⟨herror, hnone⟩ :=
        stampWith?_of_takes hread hscope hreads htakes
      · refine .inr ⟨⟨some stamped, hok⟩, ?_⟩
        rintro e (hnone | ⟨hreads', -, hnone⟩)
        · rw [hreads] at hnone
          contradiction
        · cases hreads.symm.trans hreads'
          rw [hnone] at hsome
          contradiction
      · refine .inl ⟨_, herror, fun e' => ⟨?_, ?_⟩⟩
        · rintro (hnone | _)
          · rw [hreads] at hnone
            contradiction
          · rfl
        · rintro rfl
          exact .spoiled hreads htakes hnone
    · have hnothing : ∀ p ∈ calls script, ¬ TakesRecord p.2 := fun p hp h => htakes ⟨p, hp, h⟩
      refine .inr ⟨⟨none, by rw [stampWith?_of_nothing hscope hreads hnothing]⟩, ?_⟩
      rintro e (hnone | ⟨hreads', htakes', -⟩)
      · rw [hreads] at hnone
        contradiction
      · cases hreads.symm.trans hreads'
        exact htakes htakes'

/-- A pass fails for a reason, and only on a module in scope. -/
theorem eq_error_iff_fails (hread : read.Spec) (e : StampError) :
    (s.stampWith? read path source).1 = .error e ↔
      inScope path source = true ∧ s.Fails read path source e := by
  by_cases hscope : inScope path source = true
  · obtain ⟨e', herror, hfails⟩ | ⟨⟨outcome, hok⟩, hnone⟩ := fails_or_not hread hscope
    · rw [herror, hfails, eq_comm (a := e)]
      simp [hscope]
    · refine iff_of_false ?_ fun h => hnone e h.2
      rw [hok]
      intro h
      contradiction
  · have hskip : s.stampWith? read path source = (.ok none, []) := by
      simp [stampWith?, hscope]
    refine iff_of_false ?_ fun h => hscope h.1
    rw [hskip]
    intro h
    contradiction

/-- A pass fails exactly on a module in scope that is no script, or that takes a record and is no
script with its records; and where a pass fails, the module stays as it is and a warning says why. -/
theorem stampWith?_eq_error_iff (hread : read.Spec) (e : StampError) :
    ((s.stampWith? read path source).1 = .error e ↔
      inScope path source = true ∧ s.Fails read path source e) ∧
    ((s.stampWith? read path source).1 = .error e → s.transformWith read path source =
      (source, s.told ("Processing " ++ Path.display s.root path) ++
        [⟨.warn, "Leaving " ++ path.shown ++ " untouched: " ++ e.message⟩])) := by
  refine ⟨eq_error_iff_fails hread e, fun h => ?_⟩
  obtain ⟨hscope, hfails⟩ := (eq_error_iff_fails hread e).mp h
  obtain ⟨e', herror, hreason⟩ | ⟨-, hnone⟩ := fails_or_not (s := s) hread hscope
  · obtain rfl := (hreason e).mp hfails
    rw [transformWith, herror]
  · exact absurd hfails (hnone e)

/-- A file name with a line separator ends the remark that its record is lost in, and the rest of
the record is read as a part of the script. -/
theorem fails_lineSeparator : inScope ⟨"/repo/a\u2028.ts"⟩ "a.b.query(<!-- c\n);" = true ∧
    (parse? .plain "a.b.query(<!-- c\n);".toList).isSome = true ∧
    Fails ⟨⟨"/repo"⟩, false⟩ parse? ⟨"/repo/a\u2028.ts"⟩ "a.b.query(<!-- c\n);"
      (.spoiled "./a\u2028.ts") := by
  have herror : (stampWith? ⟨⟨"/repo"⟩, false⟩ parse? ⟨"/repo/a\u2028.ts"⟩
      "a.b.query(<!-- c\n);").1 = .error (.spoiled "./a\u2028.ts") := by
    decide +kernel
  have hfails := (stampWith?_eq_error_iff spec_parse? _).1.mp herror
  exact ⟨hfails.1, by decide +kernel, hfails.2⟩

/-! ## When records do not spoil a module -/

/-- A script is one with its records, too, whoever reads scripts by their grammar, unless the name of
the file ends a remark. -/
theorem not_fails_spoiled (hread : Rereads read)
    (hfile : Unbroken read (Path.display s.root path) source) (file : String) :
    ¬ s.Fails read path source (.spoiled file) := by
  rintro (_ | ⟨hreads, -, hrejects⟩)
  rw [reads_stampedModule hread hfile hreads] at hrejects
  contradiction

/-- A pass over a module without remarks fails only if the module is no script. -/
theorem eq_error_iff_of_remarkFree (hread : Rereads read)
    (hremarks : ∀ script ∈ read (.ofFile (Path.display s.root path)) source.toList,
      remarkFree script) (e : StampError) :
    (s.stampWith? read path source).1 = .error e ↔ inScope path source = true ∧
      read (.ofFile (Path.display s.root path)) source.toList = none ∧
        e = .unreadable (Path.display s.root path) := by
  rw [eq_error_iff_fails hread.toSpec]
  refine and_congr_right fun _ => ⟨fun h => ?_, fun h => ?_⟩
  · cases h with
    | unreadable hreads => exact ⟨hreads, rfl⟩
    | spoiled hreads htakes hrejects =>
      have hfails := Fails.spoiled hreads htakes hrejects
      exact absurd hfails (not_fails_spoiled hread (unbroken_of_remarkFree hremarks) _)
  · obtain ⟨hreads, rfl⟩ := h
    exact .unreadable hreads

end Crossing.Stamp.Stamper
