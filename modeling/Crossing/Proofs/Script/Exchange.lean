import Crossing.Proofs.Script.Split
import Crossing.Script.Calls

/-!
# One call for another

A script with another tree in the place of one of its calls, which is named by its number in the list
of the calls. The text around it stays, and a call that is put there is found at the same position
(`exchanged_calls`).
-/

namespace Crossing.Script

open Text Crossing.Script.Tree

mutual

/-- A tree with another one in the place of its call of a number; a call comes before those inside of
it. -/
def Tree.exchange (new : Tree) : (number : Nat) → Tree → Tree
  | _, .leaf kind s => .leaf kind s
  | 0, .node .call _ => new
  | n + 1, .node .call ts => .node .call (Tree.exchangeIn new n ts)
  | n, .node kind ts => .node kind (Tree.exchangeIn new n ts)

/-- Trees that follow one another, with another one in the place of a call inside of them. -/
def Tree.exchangeIn (new : Tree) : (number : Nat) → List Tree → List Tree
  | _, [] => []
  | n, t :: ts =>
    let count := (callsAt .start t).length
    if n < count then Tree.exchange new n t :: ts else t :: Tree.exchangeIn new (n - count) ts

end

mutual

/-- How many calls there are does not depend on where a tree stands. -/
theorem length_callsAt (spot spot' : Spot) (t : Tree) :
    (callsAt spot t).length = (callsAt spot' t).length := by
  cases t with
  | leaf kind s => rfl
  | node kind ts =>
    rw [callsAt, callsAt, List.length_append, List.length_append, length_callsIn spot spot' ts]
    split <;> rfl

/-- How many calls several trees hold does not depend on where they stand. -/
theorem length_callsIn (spot spot' : Spot) (ts : List Tree) :
    (callsIn spot ts).length = (callsIn spot' ts).length := by
  cases ts with
  | nil => rfl
  | cons t ts =>
    rw [callsIn, callsIn, List.length_append, List.length_append, length_callsAt spot spot' t,
      length_callsIn (spot.after t.text) (spot'.after t.text) ts]

end

/-- What becomes of a text that holds a call, and of the calls, when a call is put in its place. -/
structure Exchanged (spot : Spot) (old new : List Char) (p : Spot × Tree) (call : Tree)
    (calls : List (Spot × Tree)) : Prop where
  /-- The text around the call stays. -/
  text : ∃ before after, old = before ++ p.2.text ++ after ∧ new = before ++ call.text ++ after ∧
    p.1 = spot.after before
  /-- The call is found where the other one was. -/
  found : (p.1, call) ∈ calls

variable {call : Tree}

mutual

/-- A call is exchanged below a tree. -/
theorem exchanged_callsAt (hcall : call.hasKind .call = true) {spot : Spot} {t : Tree} {n : Nat}
    {p : Spot × Tree} (h : (callsAt spot t)[n]? = some p) :
    Exchanged spot t.text (exchange call n t).text p call (callsAt spot (exchange call n t)) := by
  cases t with
  | leaf kind s => contradiction
  | node kind ts =>
    by_cases hkind : kind = .call
    · subst hkind
      rw [callsAt, if_pos rfl] at h
      cases n with
      | zero =>
        cases h
        cases call with
        | leaf kind s => contradiction
        | node kind us =>
          obtain rfl : kind = .call := (of_decide_eq_true hcall).symm
          exact ⟨⟨[], [], by simp, by simp [exchange], rfl⟩, by simp [exchange, callsAt]⟩
      | succ n =>
        obtain ⟨htext, hfound⟩ := exchanged_callsIn hcall (show (callsIn spot ts)[n]? = some p from h)
        refine ⟨htext, ?_⟩
        rw [exchange, callsAt]
        exact List.mem_append_right _ hfound
    · rw [callsAt, if_neg hkind, List.nil_append] at h
      have hexchange : exchange call n (.node kind ts) = .node kind (exchangeIn call n ts) := by
        cases kind <;> first | exact absurd rfl hkind | rfl
      obtain ⟨htext, hfound⟩ := exchanged_callsIn hcall h
      rw [hexchange, callsAt]
      exact ⟨htext, List.mem_append_right _ hfound⟩

/-- A call is exchanged below one of several trees. -/
theorem exchanged_callsIn (hcall : call.hasKind .call = true) {spot : Spot} {ts : List Tree} {n : Nat}
    {p : Spot × Tree} (h : (callsIn spot ts)[n]? = some p) :
    Exchanged spot (textOf ts) (textOf (exchangeIn call n ts)) p call
      (callsIn spot (exchangeIn call n ts)) := by
  cases ts with
  | nil => contradiction
  | cons t ts =>
    rw [callsIn] at h
    rw [exchangeIn, length_callsAt .start spot t]
    split
    · next hlt =>
      rw [List.getElem?_append_left hlt] at h
      obtain ⟨⟨before, after, hold, hnew, hspot⟩, hfound⟩ := exchanged_callsAt hcall h
      refine ⟨⟨before, after ++ textOf ts, ?_, ?_, hspot⟩, ?_⟩
      · rw [textOf, hold, List.append_assoc _ after]
      · rw [textOf, hnew, List.append_assoc _ after]
      · rw [callsIn]
        exact List.mem_append_left _ hfound
    · next hge =>
      rw [List.getElem?_append_right (Nat.le_of_not_lt hge)] at h
      obtain ⟨⟨before, after, hold, hnew, hspot⟩, hfound⟩ := exchanged_callsIn hcall h
      refine ⟨⟨t.text ++ before, after, ?_, ?_, ?_⟩, ?_⟩
      · rw [textOf, hold]
        simp
      · rw [textOf, hnew]
        simp
      · rw [hspot, Spot.after_append]
      · rw [callsIn]
        exact List.mem_append_right _ hfound

end

/-- A call of a script is exchanged for another one. -/
theorem exchanged_calls (hcall : call.hasKind .call = true) {script : Tree} {n : Nat}
    {p : Spot × Tree} (h : (calls script)[n]? = some p) :
    Exchanged .start script.text (exchange call n script).text p call
      (calls (exchange call n script)) :=
  exchanged_callsAt hcall h

end Crossing.Script
