import Mathlib.Data.List.Pairwise

/-!
# Stable sorting

What sorting keeps of the order of a list. Elements that tie stand behind the sort as they stood
before (`filter_mergeSort_of_ties`, `sublist_of_tied`), so a list that was in one order is, sorted
by another one, in that order and, where it ties, in the first one (`pairwise_mergeSort_stable`).
-/

namespace Crossing.Stability

open List

variable {α : Type} {le : α → α → Bool}
  (trans : ∀ a b c, le a b = true → le b c = true → le a c = true)
  (total : ∀ a b, (le a b || le b a) = true)

include trans total

/-- Elements of which any two tie keep their order. -/
theorem filter_mergeSort_of_ties {p : α → Bool} (xs : List α)
    (hties : ∀ a ∈ xs, ∀ b ∈ xs, p a = true → p b = true → le a b = true) :
    (xs.mergeSort le).filter p = xs.filter p := by
  have hsorted : (xs.filter p).Pairwise (le · · = true) := by
    refine pairwise_of_forall_mem_list fun a ha b hb => ?_
    obtain ⟨ha, hpa⟩ := mem_filter.mp ha
    obtain ⟨hb, hpb⟩ := mem_filter.mp hb
    exact hties a ha b hb hpa hpb
  -- What passes the filter is a part of the sorted list, and there is no more of it there.
  have hsub := (sublist_mergeSort trans total hsorted (filter_sublist (l := xs))).filter p
  rw [filter_filter] at hsub
  simp only [Bool.and_self] at hsub
  exact (hsub.eq_of_length ((mergeSort_perm xs le).filter _).length_eq.symm).symm

/-- Of two elements that tie, the one that stands first behind the sort stood first before. -/
theorem sublist_of_tied {xs : List α} {a b : α} (hsub : [a, b] <+ xs.mergeSort le)
    (hab : le a b = true) (hba : le b a = true) : [a, b] <+ xs := by
  have hrefl (x : α) : le x x = true := by simpa using total x x
  have hkept := filter_mergeSort_of_ties trans total (p := fun x => le a x && le x a) xs
    fun x _ y _ hx hy => trans x a y (Bool.and_eq_true_iff.mp hx).2 (Bool.and_eq_true_iff.mp hy).1
  have hpair := hsub.filter fun x => le a x && le x a
  rw [hkept] at hpair
  simp only [filter_cons, hrefl, hab, hba, Bool.and_self, if_true, filter_nil] at hpair
  exact hpair.trans filter_sublist

/-- A list that was in some order is in it behind the sort where the sort ties. -/
theorem pairwise_mergeSort_stable {r : α → α → Prop} {xs : List α} (h : xs.Pairwise r) :
    (xs.mergeSort le).Pairwise fun a b => le a b = true ∧ (le b a = true → r a b) := by
  refine pairwise_iff_forall_sublist.mpr fun {a b} hsub => ?_
  have hab := pairwise_iff_forall_sublist.mp (pairwise_mergeSort trans total xs) hsub
  refine ⟨hab, fun hba => ?_⟩
  exact pairwise_iff_forall_sublist.mp h (sublist_of_tied trans total hsub hab hba)

end Crossing.Stability
