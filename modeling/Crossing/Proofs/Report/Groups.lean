import Crossing.Report.Summary
import Mathlib.Algebra.GroupWithZero.Nat
import Mathlib.Data.List.Induction
import Mathlib.Data.List.Nodup

/-!
# Groups by a key

Calls are counted and grouped by entering one after the other: a call goes to the first group with
its key, or starts a new group at the end. What comes of it is a group for each key that occurs, in
the order of first occurrence, made of the calls with that key in their order (`groups_eq`). The
groups together hold each call once (`perm_flatMap_filter`).
-/

namespace Crossing.Report

variable {α β κ : Type} [DecidableEq κ]

/-- The groups after something with a key was entered: the first group with the key has grown, or a
new one stands at the end. -/
def enter (key : β → κ) (k : κ) (new : β) (grow : β → β) : List β → List β
  | [] => [new]
  | g :: rest => if key g = k then grow g :: rest else g :: enter key k new grow rest

/-- Where each key has one group, that of the key grows, or a new one is put behind. -/
theorem enter_map {key : β → κ} {group : κ → β} {keys : List κ}
    (hkey : ∀ k ∈ keys, key (group k) = k) (hdistinct : keys.Nodup) (k : κ) (new : β)
    (grow : β → β) :
    enter key k new grow (keys.map group) =
      if k ∈ keys then keys.map fun k' => if k' = k then grow (group k') else group k'
      else keys.map group ++ [new] := by
  induction keys with
  | nil => rfl
  | cons k' keys ih =>
    obtain ⟨hnew, hrest⟩ := List.nodup_cons.mp hdistinct
    have ih := ih (fun k hk => hkey k (List.mem_cons_of_mem k' hk)) hrest
    rw [List.map_cons, enter, hkey k' List.mem_cons_self, ih]
    by_cases heq : k' = k
    · subst heq
      have hothers : keys.map (fun k => if k = k' then grow (group k) else group k) =
          keys.map group := by
        refine List.map_congr_left fun k hk => if_neg ?_
        rintro rfl
        exact hnew hk
      rw [if_pos rfl, if_pos List.mem_cons_self, List.map_cons, if_pos rfl, hothers]
    · have hmem : k ∈ k' :: keys ↔ k ∈ keys := by simp [Ne.symm heq]
      rw [if_neg heq]
      by_cases hk : k ∈ keys
      · rw [if_pos hk, if_pos (hmem.mpr hk), List.map_cons, if_neg heq]
      · rw [if_neg hk, if_neg (mt hmem.mp hk), List.cons_append]

/-- A key at the end stays if it is a new one. -/
theorem eraseDups_concat (keys : List κ) (k : κ) :
    (keys ++ [k]).eraseDups = if k ∈ keys then keys.eraseDups else keys.eraseDups ++ [k] := by
  rw [List.eraseDups_append]
  by_cases hk : k ∈ keys
  · simp [List.removeAll, hk]
  · simp [List.removeAll, hk, List.eraseDups_cons]

/-- Without repetitions a list has each of its members once. -/
theorem nodup_eraseDups (keys : List κ) : keys.eraseDups.Nodup := by
  induction keys using List.reverseRecOn with
  | nil => simp
  | append_singleton keys k ih =>
    rw [eraseDups_concat]
    split
    · exact ih
    · next hk =>
      rw [List.nodup_append]
      refine ⟨ih, by simp, fun a ha b hb => ?_⟩
      rw [List.mem_singleton] at hb
      rintro rfl
      exact hk (hb ▸ List.mem_eraseDups.mp ha)

/-- The keys stand in the order of first occurrence. -/
theorem pairwise_eraseDups (keys : List κ) :
    keys.eraseDups.Pairwise fun k k' => keys.idxOf k < keys.idxOf k' := by
  induction keys using List.reverseRecOn with
  | nil => simp
  | append_singleton keys k ih =>
    have hbefore {k' : κ} (hk' : k' ∈ keys.eraseDups) : k' ∈ keys := List.mem_eraseDups.mp hk'
    have hkept : keys.eraseDups.Pairwise fun a b =>
        (keys ++ [k]).idxOf a < (keys ++ [k]).idxOf b := by
      refine ih.imp_of_mem fun {a b} ha hb hab => ?_
      rwa [List.idxOf_append_of_mem (hbefore ha), List.idxOf_append_of_mem (hbefore hb)]
    rw [eraseDups_concat]
    split
    · exact hkept
    · next hk =>
      refine List.pairwise_append.mpr ⟨hkept, List.pairwise_singleton _ k, fun a ha b hb => ?_⟩
      rw [List.mem_singleton.mp hb, List.idxOf_append_of_mem (hbefore ha),
        List.idxOf_append_of_notMem hk]
      exact Nat.lt_of_lt_of_le (List.idxOf_lt_length_of_mem (hbefore ha)) (Nat.le_add_right _ _)

/-- Put together key by key, a list has lost nothing and holds nothing twice. -/
theorem perm_flatMap_filter {keyOf : α → κ} {keys : List κ} (hdistinct : keys.Nodup) {xs : List α}
    (hkeys : ∀ x ∈ xs, keyOf x ∈ keys) :
    (keys.flatMap fun k => xs.filter (keyOf · = k)).Perm xs := by
  induction keys generalizing xs with
  | nil =>
    obtain rfl : xs = [] := List.eq_nil_iff_forall_not_mem.mpr fun x hx =>
      absurd (hkeys x hx) List.not_mem_nil
    exact .refl []
  | cons k keys ih =>
    obtain ⟨hk, hdistinct⟩ := List.nodup_cons.mp hdistinct
    have hrest : (keys.flatMap fun k' => xs.filter (keyOf · = k')) =
        keys.flatMap fun k' => (xs.filter fun x => !decide (keyOf x = k)).filter (keyOf · = k') := by
      refine List.flatMap_congr fun k' hk' => ?_
      rw [List.filter_filter]
      refine List.filter_congr fun x _ => ?_
      have hne : k' ≠ k := fun heq => hk (heq ▸ hk')
      by_cases hx : keyOf x = k' <;> simp [hx, hne]
    have hothers : ∀ x ∈ xs.filter fun x => !decide (keyOf x = k), keyOf x ∈ keys := by
      intro x hx
      obtain ⟨hx, hne⟩ := List.mem_filter.mp hx
      refine List.mem_of_ne_of_mem ?_ (hkeys x hx)
      simpa using hne
    rw [List.flatMap_cons, hrest]
    exact ((ih hdistinct hothers).append_left _).trans (List.filter_append_perm _ xs)

/-- What has a key that occurs starts with something of that key. -/
theorem exists_filter_cons {keyOf : α → κ} {xs : List α} {k : κ} (hk : k ∈ xs.map keyOf) :
    ∃ y ys, keyOf y = k ∧ xs.filter (keyOf · = k) = y :: ys := by
  obtain ⟨x, hx, hxk⟩ := List.mem_map.mp hk
  have hne : xs.filter (keyOf · = k) ≠ [] :=
    List.ne_nil_of_mem (List.mem_filter.mpr ⟨hx, by simpa using hxk⟩)
  obtain ⟨y, ys, hys⟩ := List.exists_cons_of_ne_nil hne
  have hmem : y ∈ xs.filter (keyOf · = k) := by rw [hys]; exact List.mem_cons_self
  exact ⟨y, ys, by simpa using (List.mem_filter.mp hmem).2, hys⟩

/-- Entering one after the other makes a group for each key, of all that has the key. -/
theorem groups_eq {key : β → κ} {keyOf : α → κ} {make : List α → β} {grow : α → β → β}
    (hkey : ∀ x xs, key (make (x :: xs)) = keyOf x)
    (hgrow : ∀ x y ys, grow x (make (y :: ys)) = make (y :: ys ++ [x])) (xs : List α) :
    xs.foldl (fun groups x => enter key (keyOf x) (make [x]) (grow x) groups) [] =
      (xs.map keyOf).eraseDups.map fun k => make (xs.filter (keyOf · = k)) := by
  induction xs using List.reverseRecOn with
  | nil => simp
  | append_singleton xs x ih =>
    have hfirst : ∀ k ∈ (xs.map keyOf).eraseDups,
        ∃ y ys, keyOf y = k ∧ xs.filter (keyOf · = k) = y :: ys :=
      fun k hk => exists_filter_cons (List.mem_eraseDups.mp hk)
    have hkeys : ∀ k ∈ (xs.map keyOf).eraseDups, key (make (xs.filter (keyOf · = k))) = k := by
      intro k hk
      obtain ⟨y, ys, hyk, hys⟩ := hfirst k hk
      rw [hys, hkey, hyk]
    rw [List.foldl_append, List.foldl_cons, List.foldl_nil, ih,
      enter_map hkeys (nodup_eraseDups _), List.map_append, List.map_singleton, eraseDups_concat]
    have hmem : keyOf x ∈ (xs.map keyOf).eraseDups ↔ keyOf x ∈ xs.map keyOf := List.mem_eraseDups
    by_cases hx : keyOf x ∈ xs.map keyOf
    · rw [if_pos hx, if_pos (hmem.mpr hx)]
      refine List.map_congr_left fun k hk => ?_
      obtain ⟨y, ys, hyk, hys⟩ := hfirst k hk
      rw [List.filter_append, hys]
      by_cases hxk : keyOf x = k
      · rw [if_pos hxk.symm, hgrow]
        simp [hxk]
      · rw [if_neg (Ne.symm hxk)]
        simp [hxk]
    · rw [if_neg hx, if_neg (mt hmem.mp hx), List.map_append, List.map_singleton]
      have hnone : xs.filter (keyOf · = keyOf x) = [] := by
        refine List.filter_eq_nil_iff.mpr fun y hy hyx => ?_
        rw [decide_eq_true_eq] at hyx
        exact hx (hyx ▸ List.mem_map_of_mem hy)
      congr 1
      · refine List.map_congr_left fun k hk => ?_
        have hxk : keyOf x ≠ k := fun heq => hx (heq ▸ List.mem_eraseDups.mp hk)
        simp [List.filter_append, hxk]
      · simp [List.filter_append, hnone]

end Crossing.Report
