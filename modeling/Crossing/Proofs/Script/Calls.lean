import Crossing.Proofs.Script.Readers
import Crossing.Script.Calls

/-!
# Calls are parts of their script

A call of a script is a node of it: its text stands in the text of the script, and it has the layout
of the script (`call_of_mem_calls`).
-/

namespace Crossing.Script

open Crossing.Script.Tree

mutual

/-- What a call below a tree is: a call, whose text stands in the text of the tree, and which has
the layout of the tree. -/
theorem call_of_mem_callsAt {L : Layout} {spot : Spot} {t : Tree} {p : Spot × Tree}
    (h : p ∈ callsAt spot t) :
    (∃ ts, p.2 = .node .call ts) ∧ p.2.text <:+: t.text ∧ (t.Every L → p.2.Every L) := by
  cases t with
  | leaf k s => exact absurd h List.not_mem_nil
  | node k ts =>
    rw [callsAt, List.mem_append] at h
    rcases h with h | h
    · split at h
      · next hk =>
        rw [List.mem_singleton.mp h, hk]
        exact ⟨⟨ts, rfl⟩, List.infix_rfl, id⟩
      · exact absurd h List.not_mem_nil
    · obtain ⟨hcall, htext, hevery⟩ := call_of_mem_callsIn (L := L) h
      exact ⟨hcall, by rwa [Tree.text], fun ht => hevery ht.2⟩

/-- What a call below one of several trees is. -/
theorem call_of_mem_callsIn {L : Layout} {spot : Spot} {ts : List Tree} {p : Spot × Tree}
    (h : p ∈ callsIn spot ts) :
    (∃ ts, p.2 = .node .call ts) ∧ p.2.text <:+: textOf ts ∧ (EveryOf L ts → p.2.Every L) := by
  cases ts with
  | nil => exact absurd h List.not_mem_nil
  | cons t ts =>
    rw [callsIn, List.mem_append] at h
    rw [textOf]
    rcases h with h | h
    · obtain ⟨hcall, htext, hevery⟩ := call_of_mem_callsAt (L := L) h
      exact ⟨hcall, htext.trans (List.prefix_append _ _).isInfix, fun hts => hevery hts.1⟩
    · obtain ⟨hcall, htext, hevery⟩ := call_of_mem_callsIn (L := L) h
      exact ⟨hcall, htext.trans (List.suffix_append _ _).isInfix, fun hts => hevery hts.2⟩

end

/-- A call of a script is a node of the layout whose text stands in the text of the script. -/
theorem call_of_mem_calls {read : Reader} (hread : read.Spec) {d : Dialect} {s : List Char}
    {script : Tree} (hscript : read d s = some script) {p : Spot × Tree} (h : p ∈ calls script) :
    ∃ ts, p.2 = .node .call ts ∧ p.2.Every layout ∧ p.2.text <:+: s := by
  obtain ⟨⟨ts, hts⟩, htext, hevery⟩ := call_of_mem_callsAt (L := layout) h
  exact ⟨ts, hts, hevery (hread.layout hscript), hread.text hscript ▸ htext⟩

end Crossing.Script
