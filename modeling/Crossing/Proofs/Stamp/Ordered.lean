import Crossing.Proofs.Script.Cursor
import Crossing.Proofs.Stamp.Lines

/-!
# The lines of calls are in order

A loop with a cursor visits the calls of a script one by one, in the order of their starts
(`Script.Cursor.Follows.walk?_visitsCalls`). So the lines that are given for them do not decrease,
neither those of the sites that a scan records nor those of the calls that are stamped
(`linesInOrder`). These are words of 32 bits, so the lines of the script must not be more than such
words can number.
-/

namespace Crossing

open Script

namespace Stamp

/-- The lines that are given for the calls of a script do not decrease. -/
structure LinesInOrder (script : Script.Tree) : Prop where
  /-- Those of its sites. -/
  sites : ∀ file, ((sites file script).map (·.line)).Pairwise (· ≤ ·)
  /-- Those of its stamps. -/
  plan : ∀ record, ((plan record script).map (·.line)).Pairwise (· ≤ ·)
  /-- Those that come with a module that was stamped, if it is the one of this script. -/
  stamped : ∀ {s : Stamper} {read : Script.Reader} {path : Path} {source : String}
    {stamped : Stamped}, read (.ofFile (Path.display s.root path)) source.toList = some script →
    (s.stampWith? read path source).1 = .ok (some stamped) → stamped.lines.Pairwise (· ≤ ·)

/-- The lines of a module whose stamps are carried out are those of the stamps. -/
theorem lines_of_carryOut {read : Script.Reader} {file source : String} {stamps : List Stamp}
    {stamped : Stamped} (h : Stamper.carryOut read file source stamps = .ok stamped) :
    stamped.lines = stamps.map (·.line) := by
  unfold Stamper.carryOut at h
  split at h
  · split at h
    · cases h
      rfl
    · cases h
  · cases h

/-- In a script whose lines can be numbered, the lines that are given for calls do not decrease. -/
theorem linesInOrder {script : Script.Tree} (h : script.text.count '\n' + 1 < UInt32.size) :
    LinesInOrder script := by
  have hplan (record : UInt32 → String) : ((plan record script).map (·.line)).Pairwise (· ≤ ·) := by
    rw [lines_plan, List.pairwise_map]
    exact (pairwise_lineNumber h).filter _
  refine ⟨fun file => ?_, hplan, fun hreads hstamped => ?_⟩
  · -- Calls without a chain are left out, which leaves the order of the others.
    rw [List.pairwise_map, sites, List.pairwise_filterMap]
    refine (pairwise_lineNumber h).imp fun hle c hc d hd => ?_
    obtain ⟨_, -, rfl⟩ := Option.map_eq_some_iff.mp hc
    obtain ⟨_, -, rfl⟩ := Option.map_eq_some_iff.mp hd
    exact hle
  · -- The lines that come with a stamped module are those of the plan that was carried out.
    obtain ⟨script', hreads', hcarry⟩ := Stamper.carryOut_of_stampWith? hstamped
    rw [hreads] at hreads'
    cases hreads'
    rw [lines_of_carryOut hcarry]
    exact hplan _

end Stamp

namespace Script.Cursor

variable {γ : Type} {m : Cursor γ} {script : Tree} {place : γ → List Nat}

/-- The loop over a script, with any cursor that follows it, ends when it has passed each node
twice. It visits each call once, at its place, and nothing else: a call before those inside of it,
and these before those of the siblings behind it. So no call starts in front of one that is visited
before it, and in a script whose lines can be numbered the lines that are given for calls do not
decrease. -/
theorem Follows.walk?_visitsCalls (h : m.Follows script place) {c : γ} (hc : place c = []) :
    ∃ visited : List γ,
      (∀ points, m.walk? points (.arrived c) =
        if 2 * script.size ≤ points then some visited else none) ∧
      m.VisitsCalls script place visited ∧
      (visited.map m.node).Pairwise (fun a b => a.1.offset ≤ b.1.offset ∧ a.1.line ≤ b.1.line) ∧
      (script.text.count '\n' + 1 < UInt32.size → Stamp.LinesInOrder script) := by
  obtain ⟨visited, hwalk, hplaced⟩ := h.walk?_eq hc
  have hvisits := VisitsCalls.of_map_eq hplaced
  refine ⟨visited, hwalk, hvisits, ?_, Stamp.linesInOrder⟩
  rw [hvisits.calls]
  exact (pairwise_offset_calls script).and (pairwise_line_calls script)

/-- Calls in a callee and in arguments, over two lines. -/
theorem walk?_visitsCalls_nested : ∃ script,
    parse? .plain "f(\ng(h()))(i())".toList = some script ∧ ∃ visited : List (Place script),
      (∀ points, (ofTree script).walk? points (.arrived ⟨[], rfl⟩) =
        if 2 * script.size ≤ points then some visited else none) ∧
      (ofTree script).VisitsCalls script Subtype.val visited ∧
      visited.map (fun c => ((ofTree script).node c).1) =
        [⟨0, 1⟩, ⟨0, 1⟩, ⟨3, 2⟩, ⟨5, 2⟩, ⟨11, 2⟩] ∧
      Stamp.LinesInOrder script := by
  have hread : ((parse? .plain "f(\ng(h()))(i())".toList).map fun script =>
      ((calls script).map (·.1), script.text.count '\n')) =
        some ([⟨0, 1⟩, ⟨0, 1⟩, ⟨3, 2⟩, ⟨5, 2⟩, ⟨11, 2⟩], 1) := by
    decide +kernel
  obtain ⟨script, hscript, hsays⟩ := Option.map_eq_some_iff.mp hread
  obtain ⟨hspots, hlines⟩ := Prod.mk.inj hsays
  obtain ⟨visited, hwalk, hvisits, -, hordered⟩ :=
    (follows_ofTree script).walk?_visitsCalls (c := ⟨[], rfl⟩) rfl
  refine ⟨script, hscript, visited, hwalk, hvisits, ?_, hordered (by rw [hlines]; decide)⟩
  rw [← hspots, ← hvisits.calls, List.map_map]
  rfl

end Script.Cursor

end Crossing
