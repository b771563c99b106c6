import Crossing.Proofs.Script.Split
import Crossing.Proofs.Script.Tokens
import Crossing.Script.Calls

/-!
# Where trees stand

The position that comes with a tree is that of its text: what stands before it among the leaves of
the whole ends there (`tokens_of_mem_callsAt`), and so it does in the text (`exists_of_mem_callsAt`).
-/

namespace Crossing.Script

open Text Crossing.Script.Tree

/-- A tree that is placed stands behind those before it. -/
theorem exists_of_mem_placed {spot : Spot} {ts : List Tree} {p : Spot × Tree}
    (h : p ∈ placed spot ts) :
    ∃ before after, ts = before ++ p.2 :: after ∧ p.1 = spot.after (textOf before) := by
  induction ts generalizing spot with
  | nil => exact absurd h List.not_mem_nil
  | cons t ts ih =>
    rcases List.mem_cons.mp h with rfl | h
    · exact ⟨[], ts, rfl, rfl⟩
    · obtain ⟨before, after, rfl, hspot⟩ := ih h
      exact ⟨t :: before, after, rfl, by rw [hspot, textOf, Spot.after_append]⟩

mutual

/-- The leaves of a call below a tree stand among the leaves of the tree, from the position of the
call on. -/
theorem tokens_of_mem_callsAt {spot : Spot} {t : Tree} {p : Spot × Tree} (h : p ∈ callsAt spot t) :
    ∃ front behind, t.tokens = front ++ p.2.tokens ++ behind ∧
      p.1 = spot.after (front.flatMap Prod.snd) := by
  cases t with
  | leaf kind s => exact absurd h List.not_mem_nil
  | node kind ts =>
    rw [callsAt, List.mem_append] at h
    rcases h with h | h
    · split at h
      · rw [List.mem_singleton.mp h]
        exact ⟨[], [], by simp, rfl⟩
      · exact absurd h List.not_mem_nil
    · exact tokens_of_mem_callsIn h

/-- The leaves of a call below one of several trees stand among the leaves of these. -/
theorem tokens_of_mem_callsIn {spot : Spot} {ts : List Tree} {p : Spot × Tree}
    (h : p ∈ callsIn spot ts) :
    ∃ front behind, tokensOf ts = front ++ p.2.tokens ++ behind ∧
      p.1 = spot.after (front.flatMap Prod.snd) := by
  cases ts with
  | nil => exact absurd h List.not_mem_nil
  | cons t ts =>
    rw [callsIn, List.mem_append] at h
    rw [tokensOf]
    rcases h with h | h
    · obtain ⟨front, behind, htokens, hspot⟩ := tokens_of_mem_callsAt h
      exact ⟨front, behind ++ tokensOf ts, by rw [htokens, List.append_assoc _ behind], hspot⟩
    · obtain ⟨front, behind, htokens, hspot⟩ := tokens_of_mem_callsIn h
      refine ⟨t.tokens ++ front, behind, by rw [htokens]; simp, ?_⟩
      rw [hspot, List.flatMap_append, Spot.after_append, flatMap_tokens]

end

/-- A call below a tree stands in its text, and its leaves are leaves of the tree. -/
theorem exists_of_mem_callsAt {spot : Spot} {t : Tree} {p : Spot × Tree} (h : p ∈ callsAt spot t) :
    (∃ before after, t.text = before ++ p.2.text ++ after ∧ p.1 = spot.after before) ∧
      p.2.tokens ⊆ t.tokens := by
  obtain ⟨front, behind, htokens, hspot⟩ := tokens_of_mem_callsAt h
  constructor
  · refine ⟨front.flatMap Prod.snd, behind.flatMap Prod.snd, ?_, hspot⟩
    rw [← flatMap_tokens, ← flatMap_tokens, htokens, List.flatMap_append, List.flatMap_append]
  · rw [htokens, List.append_assoc]
    exact List.subset_append_of_subset_right _ (List.subset_append_left _ _)

end Crossing.Script
