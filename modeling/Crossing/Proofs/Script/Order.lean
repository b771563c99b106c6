import Crossing.Proofs.Script.Located

/-!
# The order of calls

The calls of a script are gone through from its start to its end: from a call on, going over text
leads to every call that comes later (`pairwise_callsAt`). So no call starts in front of one that
comes earlier (`pairwise_offset_calls`), or on a line before its line (`pairwise_lineNumber`).
-/

namespace Crossing.Script

open Text Crossing.Script.Tree

/-- Whether going over text leads from one position to another one. -/
def Spot.Before (a b : Spot) : Prop :=
  ∃ s, b = a.after s

/-- A position is before the one behind a text. -/
theorem Spot.before_after (spot : Spot) (s : List Char) : spot.Before (spot.after s) :=
  ⟨s, rfl⟩

/-- A position is before all that are after a later one. -/
theorem Spot.Before.trans {a b c : Spot} (hab : a.Before b) (hbc : b.Before c) : a.Before c := by
  obtain ⟨s, rfl⟩ := hab
  obtain ⟨t, rfl⟩ := hbc
  exact ⟨s ++ t, (Spot.after_append _ _ _).symm⟩

/-- Earlier positions have no more bytes before them. -/
theorem Spot.Before.offset_le {a b : Spot} (h : a.Before b) : a.offset ≤ b.offset := by
  obtain ⟨s, rfl⟩ := h
  exact Nat.le_add_right _ _

/-- Earlier positions are on no later line. -/
theorem Spot.Before.line_le {a b : Spot} (h : a.Before b) : a.line ≤ b.line := by
  obtain ⟨s, rfl⟩ := h
  exact Nat.le_add_right _ _

/-- A call below a tree starts inside of it. -/
theorem before_of_mem_callsAt {spot : Spot} {t : Tree} {p : Spot × Tree} (h : p ∈ callsAt spot t) :
    spot.Before p.1 ∧ p.1.Before (spot.after t.text) := by
  obtain ⟨⟨before, after, htext, hspot⟩, -⟩ := exists_of_mem_callsAt h
  rw [htext, hspot, List.append_assoc, Spot.after_append, Spot.after_append]
  exact ⟨spot.before_after before, (Spot.before_after _ _).trans (Spot.before_after _ _)⟩

/-- A call below one of several trees does not start before the first of them. -/
theorem before_of_mem_callsIn {spot : Spot} {ts : List Tree} {p : Spot × Tree}
    (h : p ∈ callsIn spot ts) : spot.Before p.1 := by
  obtain ⟨front, behind, -, hspot⟩ := tokens_of_mem_callsIn h
  rw [hspot]
  exact spot.before_after _

mutual

/-- The calls at and below a tree come one behind the other. -/
theorem pairwise_callsAt (spot : Spot) (t : Tree) :
    (callsAt spot t).Pairwise fun p q => p.1.Before q.1 := by
  cases t with
  | leaf kind s => exact .nil
  | node kind ts =>
    rw [callsAt, List.pairwise_append]
    refine ⟨?_, pairwise_callsIn spot ts, fun p hp q hq => ?_⟩
    · split
      · exact List.pairwise_singleton _ _
      · exact .nil
    · -- A call comes before those inside of it and starts where its node does.
      split at hp
      · rw [List.mem_singleton.mp hp]
        exact before_of_mem_callsIn hq
      · exact absurd hp List.not_mem_nil

/-- The calls in trees that follow one another come one behind the other. -/
theorem pairwise_callsIn (spot : Spot) (ts : List Tree) :
    (callsIn spot ts).Pairwise fun p q => p.1.Before q.1 := by
  cases ts with
  | nil => exact .nil
  | cons t ts =>
    rw [callsIn, List.pairwise_append]
    refine ⟨pairwise_callsAt spot t, pairwise_callsIn _ ts, fun p hp q hq => ?_⟩
    exact (before_of_mem_callsAt hp).2.trans (before_of_mem_callsIn hq)

end

/-- The calls of a script come in the order of their starts. -/
theorem pairwise_offset_calls (script : Tree) :
    (calls script).Pairwise (·.1.offset ≤ ·.1.offset) :=
  (pairwise_callsAt .start script).imp Spot.Before.offset_le

/-- The calls of a script come in the order of their lines. -/
theorem pairwise_line_calls (script : Tree) : (calls script).Pairwise (·.1.line ≤ ·.1.line) :=
  (pairwise_callsAt .start script).imp Spot.Before.line_le

/-- A call of a script starts on one of its lines. -/
theorem line_le_of_mem_calls {script : Tree} {p : Spot × Tree} (h : p ∈ calls script) :
    p.1.line ≤ script.text.count '\n' + 1 :=
  calc p.1.line ≤ 1 + script.text.count '\n' := (before_of_mem_callsAt h).2.line_le
    _ = script.text.count '\n' + 1 := Nat.add_comm _ _

/-- In a script whose lines can be numbered, the numbers of the calls' lines do not decrease. -/
theorem pairwise_lineNumber {script : Tree} (h : script.text.count '\n' + 1 < UInt32.size) :
    (calls script).Pairwise (·.1.lineNumber ≤ ·.1.lineNumber) := by
  refine (pairwise_line_calls script).imp_of_mem fun {p q} hp hq hle => ?_
  have hnumber {p : Spot × Tree} (hp : p ∈ calls script) : p.1.lineNumber.toNat = p.1.line :=
    UInt32.toNat_ofNat_of_lt (Nat.lt_of_le_of_lt (line_le_of_mem_calls hp) h)
  rw [UInt32.le_iff_toNat_le, hnumber hp, hnumber hq]
  exact hle

end Crossing.Script
