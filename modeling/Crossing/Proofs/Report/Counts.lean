import Crossing.Proofs.Report.Groups

/-!
# Counted calls

The calls of each label and those of each procedure by one method are counted without loss: what
comes of counting is the tally of the keys (`labelCounts_eq_tally`, `collapsed_collapse`), which
lists each key that occurs where it first occurs, with the number of its occurrences. The numbers of
a tally add up to the number of all keys (`sum_tally`), and so do the numbers of any list of keys
that has all of them once (`sum_count`).
-/

namespace Crossing.Report

variable {κ : Type} [DecidableEq κ]

/-- The keys that occur, in the order of first occurrence, each with the number of occurrences. -/
def tally (keys : List κ) : List (κ × Nat) :=
  keys.eraseDups.map fun k => (k, keys.count k)

/-- The occurrences of distinct keys add up to the length of a list in which no other key occurs. -/
theorem sum_count {keys all : List κ} (hdistinct : all.Nodup) (hall : ∀ k ∈ keys, k ∈ all) :
    (all.map (keys.count ·)).sum = keys.length := by
  -- The occurrences, key by key, are the keys in another order.
  have hperm := perm_flatMap_filter hdistinct hall
  have hcount (k : κ) : keys.count k = (keys.filter (· = k)).length :=
    List.count_eq_length_filter
  calc (all.map (keys.count ·)).sum
      = (all.map fun k => (keys.filter (· = k)).length).sum :=
        congrArg List.sum (List.map_congr_left fun k _ => hcount k)
    _ = (all.flatMap fun k => keys.filter (· = k)).length := List.length_flatMap.symm
    _ = keys.length := hperm.length_eq

/-- The numbers of a tally add up to the number of keys. -/
theorem sum_tally (keys : List κ) : ((tally keys).map (·.2)).sum = keys.length := by
  rw [tally, List.map_map]
  exact sum_count (nodup_eraseDups keys) fun _ => List.mem_eraseDups.mpr

/-- A key occurs as often as something has it. -/
theorem count_map_eq {α : Type} (keyOf : α → κ) (xs : List α) (k : κ) :
    (xs.map keyOf).count k = (xs.filter (keyOf · = k)).length := by
  rw [List.count_eq_length_filter, List.filter_map, List.length_map]
  exact congrArg List.length (List.filter_congr fun x _ => beq_eq_decide (keyOf x) k)

/-! ### Calls by label -/

/-- The count of calls of one label. -/
def labelled (calls : List Call) : Label × Nat :=
  ((calls.headD default).boundary, calls.length)

/-- Counting a label enters a call into the groups of labels. -/
theorem countLabel_eq (c : Call) (counts : List (Label × Nat)) :
    countLabel c.boundary counts =
      enter Prod.fst c.boundary (labelled [c]) (fun g => (g.1, g.2 + 1)) counts := by
  induction counts with
  | nil => rfl
  | cons g counts ih => rw [countLabel, enter, ih]

/-- The counts are those of the labels, each of all of its calls. -/
theorem labelCounts_eq (calls : List Call) :
    labelCounts calls = (calls.map (·.boundary)).eraseDups.map fun l =>
      labelled (calls.filter (·.boundary = l)) := by
  rw [labelCounts, show (fun counts (c : Call) => countLabel c.boundary counts) = _ from
    funext fun counts => funext fun c => countLabel_eq c counts]
  exact groups_eq (fun _ _ => rfl) (fun _ _ _ => by simp [labelled]) calls

/-- The calls are counted by their labels. -/
theorem labelCounts_eq_tally (calls : List Call) :
    labelCounts calls = tally (calls.map (·.boundary)) := by
  rw [labelCounts_eq, tally]
  refine List.map_congr_left fun l hl => ?_
  obtain ⟨c, rest, hlabel, hrest⟩ := exists_filter_cons (List.mem_eraseDups.mp hl)
  rw [count_map_eq, hrest]
  exact congrArg (·, _) hlabel

/-- The counts of the labels add up to the number of calls. -/
theorem sum_labelCounts (calls : List Call) :
    ((labelCounts calls).map (·.2)).sum = calls.length := by
  rw [labelCounts_eq_tally, sum_tally, List.length_map]

/-- A label is found in a tally with the number of its occurrences, none if it does not occur. -/
theorem countOf_tally (label : Label) (labels : List Label) :
    countOf label (tally labels) = labels.count label := by
  rw [countOf, tally, List.find?_map]
  cases hfind : labels.eraseDups.find? ((fun g : Label × Nat => decide (g.1 = label)) ∘
      fun l => (l, labels.count l)) with
  | none =>
    have hmem : label ∉ labels.eraseDups := fun hl => List.find?_eq_none.mp hfind label hl (by simp)
    exact (List.count_eq_zero.mpr (mt List.mem_eraseDups.mpr hmem)).symm
  | some l =>
    have hl := List.find?_some hfind
    obtain rfl : l = label := of_decide_eq_true hl
    rfl

/-! ### Calls by procedure -/

/-- The group of calls of one procedure by one method. -/
def repeated (calls : List Call) : Repeated :=
  ⟨(calls.headD default).procedure, (calls.headD default).communication, calls.length⟩

/-- Adding a procedure enters a call into the groups of procedures. -/
theorem addRepeated_eq (c : Call) (groups : List Repeated) :
    addRepeated c groups = enter Repeated.procedure c.procedure (repeated [c])
      (fun r => { r with count := r.count + 1 }) groups := by
  induction groups with
  | nil => rfl
  | cons r groups ih => rw [addRepeated, enter, ih]

/-- The groups are those of the procedures, each of all of its calls. -/
theorem collapse_eq (calls : List Call) :
    collapse calls = (calls.map (·.procedure)).eraseDups.map fun p =>
      repeated (calls.filter (·.procedure = p)) := by
  rw [collapse, show (fun groups c => addRepeated c groups) = _ from
    funext fun groups => funext fun c => addRepeated_eq c groups]
  exact groups_eq (fun _ _ => rfl) (fun _ _ _ => by simp [repeated]) calls

/-- A group has the procedure of one of the calls. -/
theorem exists_of_mem_collapse {calls : List Call} {r : Repeated} (h : r ∈ collapse calls) :
    ∃ c ∈ calls, c.procedure = r.procedure := by
  rw [collapse_eq] at h
  obtain ⟨p, hp, rfl⟩ := List.mem_map.mp h
  obtain ⟨c, rest, rfl, hrest⟩ := exists_filter_cons (List.mem_eraseDups.mp hp)
  have hc : c ∈ calls.filter (·.procedure = c.procedure) := by
    rw [hrest]
    exact List.mem_cons_self
  refine ⟨c, (List.mem_filter.mp hc).1, ?_⟩
  rw [hrest]
  rfl

/-- What makes groups the collapsed form of calls. -/
structure Collapsed (calls : List Call) (groups : List Repeated) : Prop where
  /-- There is a group for each procedure and method, in the order of first occurrence, with the
  number of its calls. -/
  counts : groups.map (fun r => (r.procedure, r.count)) = tally (calls.map (·.procedure))
  /-- The communication of a group is that of its first call. -/
  communication : ∀ r ∈ groups,
    (calls.find? (·.procedure = r.procedure)).map (·.communication) = some r.communication
  /-- The counts add up to the number of calls. -/
  total : (groups.map (·.count)).sum = calls.length

/-- Calls are collapsed without loss. -/
theorem collapsed_collapse (calls : List Call) : Collapsed calls (collapse calls) := by
  have hfirst {p : Procedure} (hp : p ∈ (calls.map (·.procedure)).eraseDups) :
      ∃ c rest, c.procedure = p ∧ calls.filter (·.procedure = p) = c :: rest :=
    exists_filter_cons (List.mem_eraseDups.mp hp)
  have hcounts : (collapse calls).map (fun r => (r.procedure, r.count)) =
      tally (calls.map (·.procedure)) := by
    rw [collapse_eq, List.map_map, tally]
    refine List.map_congr_left fun p hp => ?_
    obtain ⟨c, rest, rfl, hrest⟩ := hfirst hp
    rw [count_map_eq, Function.comp_apply, hrest]
    rfl
  refine ⟨hcounts, fun r hr => ?_, ?_⟩
  · rw [collapse_eq] at hr
    obtain ⟨p, hp, rfl⟩ := List.mem_map.mp hr
    obtain ⟨c, rest, rfl, hrest⟩ := hfirst hp
    have hhead := List.head?_filter (p := (·.procedure = c.procedure)) (l := calls)
    rw [hrest] at hhead ⊢
    rw [repeated, List.headD_cons, ← hhead]
    rfl
  · have hsum := sum_tally (calls.map (·.procedure))
    rwa [← hcounts, List.map_map, List.length_map] at hsum

end Crossing.Report
