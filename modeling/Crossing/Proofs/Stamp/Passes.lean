import Crossing.Proofs.Script.Calls
import Crossing.Proofs.Stamp.Again
import Crossing.Proofs.Stamp.Course

/-!
# A second pass

In a stamped script no call takes a record, except those whose record was lost in a remark
(`takesRecord_stamped`). The calls of the stamped script are the stamped calls of the script, so it is
enough to look at one stamped call (`losesRecord_stamped`). Without remarks no record is lost
(`not_losesRecord_of_remarkFree`).
-/

namespace Crossing.Stamp

open Script Script.Tree

/-! ## Calls of a stamped script -/

/-- Which record the arguments of a call hold does not count for what is called. -/
theorem isRemoteCall_arguments (before args args' after : List Script.Tree) :
    isRemoteCall (.node .call (before ++ .node .arguments args :: after)) =
      isRemoteCall (.node .call (before ++ .node .arguments args' :: after)) := by
  have hparts (args : List Script.Tree) :
      (Script.Tree.node .call (before ++ .node .arguments args :: after)).parts =
        before.filter (!·.isTrivia) ++ .node .arguments args :: after.filter (!·.isTrivia) := by
    rw [parts, Script.Tree.children, List.filter_append, List.filter_cons]
    rfl
  unfold isRemoteCall method? callee?
  rw [hparts, hparts]
  cases before.filter (!·.isTrivia) <;> rfl

/-- Whether a call takes a record. -/
def TakesRecord (call : Script.Tree) : Prop :=
  isRemoteCall call = true ∧ ∃ record, (addRecord? record call).isSome = true

/-- Whether a call takes a record behind a remark, which makes it a part of the remark. -/
def LosesRecord (call : Script.Tree) : Prop :=
  isRemoteCall call = true ∧ ∃ record stamped, addRecord? record call = some (stamped, true)

/-- A call that loses one record loses any. -/
theorem losesRecord_iff (r : Script.Tree) (ts : List Script.Tree) :
    LosesRecord (.node .call ts) ↔ isRemoteCall (.node .call ts) = true ∧
      (addRecord? r (.node .call ts)).map Prod.snd = some true := by
  refine and_congr_right fun _ => ?_
  constructor
  · rintro ⟨r', stamped, h⟩
    rw [addRecord?_record r r', h]
    rfl
  · intro h
    obtain ⟨⟨stamped, lost⟩, hadded, hlost⟩ := Option.map_eq_some_iff.mp h
    cases hlost
    exact ⟨r, stamped, hadded⟩

/-- A call that takes one record takes any. -/
theorem takesRecord_iff (r : Script.Tree) (ts : List Script.Tree) :
    TakesRecord (.node .call ts) ↔ isRemoteCall (.node .call ts) = true ∧
      (addRecord? r (.node .call ts)).isSome = true := by
  refine and_congr_right fun _ => ⟨?_, fun h => ⟨r, h⟩⟩
  rintro ⟨r', h⟩
  rwa [← Option.isSome_map (f := Prod.snd), addRecord?_record r r', Option.isSome_map]

variable {record : UInt32 → Script.Tree}

/-- A call that was stamped takes a record if the call loses it, and then it loses this one, too. -/
theorem losesRecord_stamped (record : UInt32 → Script.Tree) (spot : Spot) (ts : List Script.Tree) :
    (TakesRecord (stamped record spot (.node .call ts)) ↔ LosesRecord (.node .call ts)) ∧
      (LosesRecord (stamped record spot (.node .call ts)) ↔ LosesRecord (.node .call ts)) := by
  -- A call that is not one of a remote procedure takes no record before or after. Of the others,
  -- those that took one take no other, unless it was lost.
  have hstays := isRemoteCall_stampedAll record spot .call .call ts
  rw [stamped]
  by_cases hremote : isRemoteCall (.node .call ts) = true
  · rw [if_pos hremote, losesRecord_iff (record spot.lineNumber) ts]
    cases agree_call record (record spot.lineNumber) spot ts with
    | stays hedits htree hstamped =>
      rw [hstamped, Option.map_none, Option.getD_none, takesRecord_iff (record spot.lineNumber),
        losesRecord_iff (record spot.lineNumber), htree, hstamped]
      simp
    | changes e call call' lost hedits htree hstamped hinserts hmakes =>
      have hagain := addRecord?_again (record spot.lineNumber) hstamped
      obtain ⟨_, before, args, args', after, heq, hlast, -, rfl⟩ := exists_of_addRecord? hstamped
      cases heq
      obtain ⟨hts, -, -⟩ := splitLast?_eq_some.mp hlast
      have hremote' :
          isRemoteCall (.node .call (before ++ .node .arguments args' :: after)) = true := by
        rw [isRemoteCall_arguments before args' args after, ← hts, hstays, hremote]
      rw [hstamped, htree, Option.map_some, Option.getD_some,
        takesRecord_iff (record spot.lineNumber), losesRecord_iff (record spot.lineNumber),
        ← Option.isSome_map (f := Prod.snd), hagain, hremote, hremote']
      cases lost <;> simp [again]
  · have htakes : ¬ TakesRecord (.node .call (stampedAll record spot ts)) :=
      fun h => hremote (hstays.symm.trans h.1)
    have hloses' : ¬ LosesRecord (.node .call (stampedAll record spot ts)) :=
      fun h => hremote (hstays.symm.trans h.1)
    have hloses : ¬ LosesRecord (.node .call ts) := fun h => hremote h.1
    rw [if_neg hremote]
    exact ⟨iff_of_false htakes hloses, iff_of_false hloses' hloses⟩

/-- What is true of the calls of a stamped script is what is true of the stamped calls. -/
theorem forall_calls_stamped {P Q : Script.Tree → Prop}
    (hrecord : ∀ line, course (fun _ => false) (record line) = [])
    (hPQ : ∀ spot ts, P (stamped record spot (.node .call ts)) ↔ Q (.node .call ts))
    (script : Script.Tree) :
    (∀ p ∈ calls (stamped record .start script), P p.2) ↔ ∀ p ∈ calls script, Q p.2 :=
  calc (∀ p ∈ calls (stamped record .start script), P p.2)
    _ ↔ ∀ t ∈ (calls (stamped record .start script)).map Prod.snd, P t := by
        rw [List.forall_mem_map]
    _ ↔ ∀ p ∈ calls script, P (stamped record p.1 p.2) := by
        rw [calls_stamped hrecord, List.forall_mem_map]
    _ ↔ ∀ p ∈ calls script, Q p.2 := by
        refine forall₂_congr fun p hp => ?_
        obtain ⟨⟨ts, hts⟩, -, -⟩ := call_of_mem_callsAt (L := layout) hp
        rw [hts, hPQ]

/-! ## The second plan -/

/-- A call is edited exactly if its tree takes a record. -/
theorem isSome_edits? (spot : Spot) (ts : List Script.Tree) (text : String) (r : Script.Tree) :
    (edits? spot (.node .call ts) text).isSome = (addRecord? r (.node .call ts)).isSome := by
  have htext : String.ofList (Script.Tree.leaf .text text.toList).text = text := by
    rw [Script.Tree.text, String.ofList_toList]
  have hagree := agree_call (fun _ => r) (.leaf .text text.toList) spot ts
  rw [htext] at hagree
  rw [← Option.isSome_map (f := Prod.snd), addRecord?_record r (.leaf .text text.toList),
    Option.isSome_map]
  cases hagree with
  | stays hedits htree hstamped => rw [hedits, htree]; rfl
  | changes e call call' lost hedits htree hstamped hinserts hmakes => rw [hedits, htree]; rfl

/-- A script has nothing to stamp exactly if none of its calls takes a record. -/
theorem plan_eq_nil_iff (records : UInt32 → String) (script : Script.Tree) :
    plan records script = [] ↔ ∀ p ∈ calls script, ¬ TakesRecord p.2 := by
  rw [plan, List.filterMap_eq_nil_iff]
  refine forall₂_congr fun p hp => ?_
  obtain ⟨spot, call⟩ := p
  obtain ⟨⟨ts, hts⟩, -, -⟩ := call_of_mem_callsAt (L := layout) hp
  dsimp only at hts ⊢
  subst hts
  rw [takesRecord_iff (.leaf .text []), ← isSome_edits? spot ts (records spot.lineNumber)]
  split
  · next hremote => simp [hremote]
  · next hremote => simp [hremote]

/-- A stamped script has a call that takes a record exactly if a call of the script loses its
record. -/
theorem takesRecord_stamped (hrecord : ∀ line, course (fun _ => false) (record line) = [])
    (script : Script.Tree) :
    (∀ p ∈ calls (stamped record .start script), ¬ TakesRecord p.2) ↔
      ∀ p ∈ calls script, ¬ LosesRecord p.2 :=
  forall_calls_stamped (P := (¬ TakesRecord ·)) (Q := (¬ LosesRecord ·)) hrecord
    (fun spot ts => not_congr (losesRecord_stamped record spot ts).1) script

/-- What a stamped script takes is lost. -/
theorem losesRecord_of_mem_calls_stamped
    (hrecord : ∀ line, course (fun _ => false) (record line) = []) (script : Script.Tree) :
    ∀ p ∈ calls (stamped record .start script), TakesRecord p.2 → LosesRecord p.2 := by
  refine (forall_calls_stamped (P := fun call => TakesRecord call → LosesRecord call)
    (Q := fun _ => True) hrecord (fun spot ts => ?_) script).mpr fun _ _ => trivial
  obtain ⟨htakes, hloses⟩ := losesRecord_stamped record spot ts
  rw [htakes, hloses]
  exact ⟨fun _ => trivial, fun _ => id⟩

/-! ## Where records are lost -/

mutual

/-- Whether a tree holds no remark. -/
def remarkFree : Script.Tree → Prop
  | .leaf kind _ => kind ≠ .remark
  | .node _ ts => remarkFreeAll ts

/-- Whether trees that follow one another hold no remark. -/
def remarkFreeAll : List Script.Tree → Prop
  | [] => True
  | t :: ts => remarkFree t ∧ remarkFreeAll ts

end

/-- Trees hold no remark if none of them does. -/
theorem remarkFreeAll_iff {ts : List Script.Tree} :
    remarkFreeAll ts ↔ ∀ t ∈ ts, remarkFree t := by
  induction ts with
  | nil => simp [remarkFreeAll]
  | cons t ts ih => simp [remarkFreeAll, ih]

/-- A tree that holds no remark is none. -/
theorem isLeaf_of_remarkFree {t : Script.Tree} (h : remarkFree t) : t.isLeaf .remark = false := by
  cases t with
  | leaf kind s => exact decide_eq_false (Ne.symm h)
  | node kind ts => rfl

/-- A literal without remarks loses no record. -/
theorem extendTree?_remarkFree {r t t' : Script.Tree} {path : List String} {lost : Bool}
    (ht : remarkFree t) (h : extendTree? r path t = some (t', lost)) : lost = false := by
  induction path generalizing t t' with
  | nil => contradiction
  | cons key path ih =>
    obtain ⟨_, _, ts, before, last, after, hpath, rfl, hseat, ⟨-, rfl, -⟩ |
      ⟨us, front, value, value', behind, hkey, hvalue, -⟩⟩ := exists_of_extendTree? h
    · rw [eq_of_seat? hseat] at ht
      exact isLeaf_of_remarkFree (remarkFreeAll_iff.mp ht last (by simp))
    · cases hpath
      obtain ⟨rfl, -, -⟩ := splitLast?_eq_some.mp hkey
      have hpair : remarkFree (.node .pair (front ++ [value])) := remarkFreeAll_iff.mp ht _ (by simp)
      exact ih (remarkFreeAll_iff.mp hpair value (by simp)) hvalue

/-- Arguments without remarks lose no record. -/
theorem addArgument?_remarkFree {r : Script.Tree} {ts ts' : List Script.Tree} {lost : Bool}
    (hts : ∀ t ∈ ts, remarkFree t) (h : addArgument? r ts = some (ts', lost)) : lost = false := by
  cases argued_of_addArgument? h with
  | none hfirst => rfl
  | @single _ _ first hfirst hsecond => exact isLeaf_of_remarkFree (hts first (by simp))
  | undefined hfirst hsecond hundefined => rfl
  | @literal _ _ _ _ second _ _ hfirst hsecond hextend =>
    exact extendTree?_remarkFree (hts second (by simp)) hextend

/-- A call without remarks loses no record. -/
theorem not_losesRecord_of_remarkFree {call : Script.Tree} (h : remarkFree call) :
    ¬ LosesRecord call := by
  rintro ⟨-, r, stamped, hadded⟩
  obtain ⟨ts, before, args, args', after, rfl, hlast, hargs, -⟩ := exists_of_addRecord? hadded
  obtain ⟨rfl, -, -⟩ := splitLast?_eq_some.mp hlast
  have hnode : remarkFree (.node .arguments args) := remarkFreeAll_iff.mp h _ (by simp)
  have hlost := addArgument?_remarkFree (remarkFreeAll_iff.mp hnode) hargs
  contradiction

mutual

/-- The calls of a tree without remarks hold none. -/
theorem remarkFree_of_mem_callsAt {t : Script.Tree} (ht : remarkFree t) {spot : Spot}
    {p : Spot × Script.Tree} (hp : p ∈ callsAt spot t) : remarkFree p.2 := by
  cases t with
  | leaf kind s => exact absurd hp List.not_mem_nil
  | node kind ts =>
    rw [callsAt, List.mem_append] at hp
    rcases hp with hp | hp
    · split at hp
      · rw [List.mem_singleton.mp hp]
        exact ht
      · exact absurd hp List.not_mem_nil
    · exact remarkFree_of_mem_callsIn ht hp

/-- The calls of several trees without remarks hold none. -/
theorem remarkFree_of_mem_callsIn {ts : List Script.Tree} (hts : remarkFreeAll ts) {spot : Spot}
    {p : Spot × Script.Tree} (hp : p ∈ callsIn spot ts) : remarkFree p.2 := by
  cases ts with
  | nil => exact absurd hp List.not_mem_nil
  | cons t ts =>
    rw [callsIn, List.mem_append] at hp
    rcases hp with hp | hp
    · exact remarkFree_of_mem_callsAt hts.1 hp
    · exact remarkFree_of_mem_callsIn hts.2 hp

end

end Crossing.Stamp
