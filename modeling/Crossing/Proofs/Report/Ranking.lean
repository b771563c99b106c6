import Crossing.Proofs.Report.Groups
import Crossing.Proofs.Stability

/-!
# The ranking of files

The groups that the ranking of files holds: one for each file, of all the calls in it
(`mem_ranking_iff`). If the calls of a file have one label, that is the label of the group, and if
their lines do not decrease, the group has them in the order of their lines already.

The ranking loses no call and breaks ties by the first occurrence of the files, and the calls of a
group stand by their lines and otherwise in the order in which they came (`filesRanked_ranking`).
Both sorts are stable, so what is proved of the groups before the sort carries over.
-/

namespace Crossing

/-- A call without a character in the texts that a report shows of it. -/
def Call.Avoids (x : Char) (c : Call) : Prop :=
  x ∉ c.procedure.path.toList ∧ x ∉ c.procedure.method.toList ∧ x ∉ c.file.toList

namespace Report

/-- The group of calls that stand in one file. -/
def fileCalls (calls : List Call) : FileCalls :=
  ⟨(calls.headD default).file, (calls.headD default).boundary, calls⟩

/-- Adding a call to its file enters it into the groups of files. -/
theorem addToFile_eq (c : Call) (files : List FileCalls) :
    addToFile c files = enter FileCalls.file c.file (fileCalls [c])
      (fun f => { f with calls := f.calls ++ [c] }) files := by
  induction files with
  | nil => rfl
  | cons f files ih => rw [addToFile, enter, ih]

/-- The files are those of the calls, each with all of its calls. -/
theorem byFile_eq (calls : List Call) :
    byFile calls = (calls.map (·.file)).eraseDups.map fun file =>
      fileCalls (calls.filter (·.file = file)) := by
  rw [byFile, show (fun files c => addToFile c files) = _ from
    funext fun files => funext fun c => addToFile_eq c files]
  exact groups_eq (fun _ _ => rfl) (fun _ _ _ => rfl) calls

/-- The file of a group is that of all its calls. -/
theorem file_fileCalls {calls : List Call} {file : String} (h : file ∈ calls.map (·.file)) :
    (fileCalls (calls.filter (·.file = file))).file = file := by
  obtain ⟨c, rest, hfile, hrest⟩ := exists_filter_cons h
  rw [hrest]
  exact hfile

/-- The ranking has a group for each file that has calls. -/
theorem mem_ranking_iff {calls : List Call} {g : FileCalls} :
    g ∈ ranking calls ↔ ∃ c ∈ calls, g = fileCalls (calls.filter (·.file = c.file)) := by
  rw [ranking, List.mem_mergeSort, byFile_eq, List.mem_map]
  simp only [List.mem_eraseDups, List.mem_map]
  constructor
  · rintro ⟨-, ⟨c, hc, rfl⟩, rfl⟩
    exact ⟨c, hc, rfl⟩
  · rintro ⟨c, hc, rfl⟩
    exact ⟨_, ⟨c, hc, rfl⟩, rfl⟩

/-- A group has the calls of its file. -/
theorem calls_of_mem_ranking {calls : List Call} {g : FileCalls} (h : g ∈ ranking calls) :
    g.calls = calls.filter (·.file = g.file) ∧ ∃ c ∈ g.calls, c.boundary = g.boundary := by
  obtain ⟨c, hc, rfl⟩ := mem_ranking_iff.mp h
  have hoccurs : c.file ∈ calls.map (·.file) := List.mem_map_of_mem hc
  obtain ⟨d, rest, -, hrest⟩ := exists_filter_cons hoccurs
  refine ⟨by rw [file_fileCalls hoccurs]; rfl, d, ?_, ?_⟩
  · rw [fileCalls, hrest]
    exact List.mem_cons_self
  · rw [fileCalls, hrest]
    rfl

/-- A character that no call has is in no group. -/
theorem avoids_of_mem_ranking {calls : List Call} {x : Char} (h : ∀ c ∈ calls, c.Avoids x)
    {g : FileCalls} (hg : g ∈ ranking calls) : x ∉ g.file.toList ∧ ∀ c ∈ g.calls, c.Avoids x := by
  have hcalls : ∀ c ∈ g.calls, c ∈ calls ∧ c.file = g.file := fun c hc => by
    rw [(calls_of_mem_ranking hg).1, List.mem_filter, decide_eq_true_eq] at hc
    exact hc
  obtain ⟨-, c, hc, -⟩ := calls_of_mem_ranking hg
  exact ⟨(hcalls c hc).2 ▸ (h c (hcalls c hc).1).2.2, fun d hd => h d (hcalls d hd).1⟩

/-- Calls whose lines do not decrease are in the order of their lines. -/
theorem byLine_eq_calls {g : FileCalls} (h : g.calls.Pairwise (·.line ≤ ·.line)) :
    g.byLine = g.calls :=
  List.mergeSort_of_pairwise (h.imp fun hle => decide_eq_true hle)

/-! ### A ranking of all calls -/

/-- Calls in the order of their lines, those of one line as they stood. -/
structure ByLine (calls sorted : List Call) : Prop where
  /-- The calls are the same. -/
  perm : sorted.Perm calls
  /-- The lines do not decrease. -/
  lines : sorted.Pairwise (·.line ≤ ·.line)
  /-- The calls of one line have kept their order. -/
  stable : ∀ line, sorted.filter (·.line = line) = calls.filter (·.line = line)

/-- What makes groups a ranking of the files of some calls. -/
structure FilesRanked (calls : List Call) (groups : List FileCalls) : Prop where
  /-- No file has two groups. -/
  distinct : (groups.map (·.file)).Nodup
  /-- The files are those of the calls. -/
  files : ∀ file, file ∈ groups.map (·.file) ↔ file ∈ calls.map (·.file)
  /-- A group has the calls of its file in the order in which they came. -/
  calls_eq : ∀ g ∈ groups, g.calls = calls.filter (·.file = g.file)
  /-- The groups together hold the calls, none of them twice. -/
  perm : (groups.flatMap (·.calls)).Perm calls
  /-- Each call is in one group. -/
  unique : ∀ c ∈ calls, ∃! g, g ∈ groups ∧ c ∈ g.calls
  /-- The counts add up to the number of calls. -/
  total : (groups.map (·.count)).sum = calls.length
  /-- The groups with more calls stand first, and of two with equally many the one whose file occurs
  first. -/
  ordered : groups.Pairwise fun g g' => g'.count < g.count ∨
    g'.count = g.count ∧ (calls.map (·.file)).idxOf g.file < (calls.map (·.file)).idxOf g'.file
  /-- The calls of a group can be had by their lines. -/
  byLine : ∀ g ∈ groups, ByLine g.calls g.byLine

/-- A group has its calls by their lines. -/
theorem byLine_spec (g : FileCalls) : ByLine g.calls g.byLine := by
  have htrans (a b c : Call) (hab : decide (a.line ≤ b.line) = true)
      (hbc : decide (b.line ≤ c.line) = true) : decide (a.line ≤ c.line) = true :=
    decide_eq_true (UInt32.le_trans (of_decide_eq_true hab) (of_decide_eq_true hbc))
  have htotal (a b : Call) : (decide (a.line ≤ b.line) || decide (b.line ≤ a.line)) = true := by
    simpa using UInt32.le_total a.line b.line
  refine ⟨List.mergeSort_perm _ _, ?_, fun line => ?_⟩
  · exact (List.pairwise_mergeSort htrans htotal g.calls).imp of_decide_eq_true
  · refine Stability.filter_mergeSort_of_ties htrans htotal g.calls fun a _ b _ ha hb => ?_
    rw [of_decide_eq_true ha, of_decide_eq_true hb]
    exact decide_eq_true (UInt32.le_refl line)

/-- Before the ranking the files stand in the order of first occurrence. -/
theorem map_file_byFile (calls : List Call) :
    (byFile calls).map (·.file) = (calls.map (·.file)).eraseDups := by
  rw [byFile_eq, List.map_map]
  exact (List.map_congr_left fun file hfile => file_fileCalls (List.mem_eraseDups.mp hfile)).trans
    (List.map_id _)

/-- Before the ranking the groups hold the calls, none of them twice. -/
theorem perm_byFile (calls : List Call) : ((byFile calls).flatMap (·.calls)).Perm calls := by
  rw [byFile_eq, List.flatMap_map]
  exact perm_flatMap_filter (nodup_eraseDups _) fun c hc =>
    List.mem_eraseDups.mpr (List.mem_map_of_mem hc)

/-- The ranking holds the groups. -/
theorem ranking_perm (calls : List Call) : (ranking calls).Perm (byFile calls) :=
  List.mergeSort_perm _ _

/-- The ranking goes by the number of calls, and by first occurrence where this ties. -/
theorem pairwise_ranking (calls : List Call) :
    (ranking calls).Pairwise fun g g' => g'.count < g.count ∨ g'.count = g.count ∧
      (calls.map (·.file)).idxOf g.file < (calls.map (·.file)).idxOf g'.file := by
  have hfirst : (byFile calls).Pairwise fun g g' =>
      (calls.map (·.file)).idxOf g.file < (calls.map (·.file)).idxOf g'.file := by
    have hkeys := pairwise_eraseDups (calls.map (·.file))
    rwa [← map_file_byFile, List.pairwise_map] at hkeys
  have htrans (f g h : FileCalls) (hfg : decide (g.count ≤ f.count) = true)
      (hgh : decide (h.count ≤ g.count) = true) : decide (h.count ≤ f.count) = true :=
    decide_eq_true (Nat.le_trans (of_decide_eq_true hgh) (of_decide_eq_true hfg))
  have htotal (f g : FileCalls) :
      (decide (g.count ≤ f.count) || decide (f.count ≤ g.count)) = true := by
    simpa using Nat.le_total g.count f.count
  refine (Stability.pairwise_mergeSort_stable htrans htotal hfirst).imp fun {g g'} hstable => ?_
  obtain ⟨hle, hties⟩ := hstable
  rcases Nat.lt_or_eq_of_le (of_decide_eq_true hle) with hlt | heq
  · exact .inl hlt
  · exact .inr ⟨heq, hties (decide_eq_true (Nat.le_of_eq heq.symm))⟩

/-- The files of any calls are ranked without losing a call, and ties go by first occurrence. -/
theorem filesRanked_ranking (calls : List Call) : FilesRanked calls (ranking calls) := by
  have hperm := ranking_perm calls
  have hfiles : ((ranking calls).map (·.file)).Perm (calls.map (·.file)).eraseDups := by
    rw [← map_file_byFile]
    exact hperm.map _
  have hdistinct := hfiles.nodup_iff.mpr (nodup_eraseDups _)
  have hcalls := (hperm.flatMap_right (·.calls)).trans (perm_byFile calls)
  have hgroup (g : FileCalls) (hg : g ∈ ranking calls) := (calls_of_mem_ranking hg).1
  refine ⟨hdistinct, fun file => ?_, hgroup, hcalls, fun c hc => ?_, ?_, pairwise_ranking calls,
    fun g _ => byLine_spec g⟩
  · rw [hfiles.mem_iff, List.mem_eraseDups]
  · obtain ⟨g, hg, hcg⟩ := List.mem_flatMap.mp (hcalls.mem_iff.mpr hc)
    -- A call is only in the group of its file, and that file has one group.
    have hfile {g : FileCalls} (hg : g ∈ ranking calls) (hcg : c ∈ g.calls) : c.file = g.file := by
      rw [hgroup g hg] at hcg
      exact of_decide_eq_true (List.mem_filter.mp hcg).2
    refine ⟨g, ⟨hg, hcg⟩, fun g' ⟨hg', hcg'⟩ => ?_⟩
    exact List.inj_on_of_nodup_map hdistinct hg' hg ((hfile hg' hcg').symm.trans (hfile hg hcg))
  · rw [← hcalls.length_eq, List.length_flatMap]
    rfl

end Report

end Crossing
