import Crossing.Proofs.Script.Located
import Crossing.Proofs.Stamp.Settled

/-!
# Stamping only adds

Each call that takes a record takes it by one edit, and what the edit takes away is nothing, or the
name `undefined` in the place of options (`Edit.Adds`). The edits of a script keep apart however its
calls are nested, so all of them are carried out, and the new text is the old one with nothing but
these edits (`additive_plan`).
-/

namespace Crossing

namespace Edit

open Text List

/-- Whether an edit lies in a text and takes nothing from it but the name `undefined`. -/
def Adds (s : List Char) (e : Edit) : Prop :=
  ∃ before old after, s = before ++ old ++ after ∧ e.start = Utf8.width before ∧
    e.stop = e.start + Utf8.width old ∧ (old = [] ∨ old = "undefined".toList)

/-- Whether two edits have no place in common. -/
def Apart (a b : Edit) : Prop :=
  Precedes a b ∨ Precedes b a

namespace Rewrites

variable {offset : Nat} {s s' : List Char} {es : List Edit}

/-- Each edit of a text takes the place of a part of it. -/
theorem located (h : Rewrites offset s s' es) : ∀ e ∈ es, ∃ before old after,
    s = before ++ old ++ after ∧ e.start = offset + Utf8.width before ∧
      e.stop = e.start + Utf8.width old := by
  induction h with
  | keep offset s => exact fun e he => absurd he not_mem_nil
  | edit offset old new =>
    intro e he
    rw [mem_singleton.mp he]
    exact ⟨[], old, [], by simp, rfl, rfl⟩
  | @append offset s s' t t' es fs hs ht hapart ihs iht =>
    intro e he
    rcases mem_append.mp he with he | he
    · obtain ⟨before, old, after, rfl, hstart, hstop⟩ := ihs e he
      exact ⟨before, old, after ++ t, by simp, hstart, hstop⟩
    · obtain ⟨before, old, after, rfl, hstart, hstop⟩ := iht e he
      exact ⟨s ++ before, old, after, by simp, by rw [Utf8.width_append]; omega, hstop⟩
  | perm hs hperm ih => exact fun e he => ih e (hperm.mem_iff.mpr he)

/-- The edits of a text have no place in common. -/
theorem apart (h : Rewrites offset s s' es) : es.Pairwise Apart := by
  obtain ⟨sorted, hperm, hsorted, -⟩ := h.sorted
  have happart : sorted.Pairwise Apart := hsorted.imp .inl
  exact (hperm.pairwise_iff Or.symm).mp happart

/-- None of the edits of a text is dropped. -/
theorem select_eq {source : String} (h : Rewrites 0 source.toList s' es) :
    select (Utf8.width source.toList) none (es.mergeSort before) = es.mergeSort before := by
  obtain ⟨sorted, hperm, hsorted, -⟩ := h.sorted
  have hbounds (e : Edit) (he : e ∈ sorted) :
      e.start ≤ e.stop ∧ e.stop ≤ Utf8.width source.toList := by
    have := h.bounds e (hperm.mem_iff.mp he)
    omega
  rw [mergeSort_eq_reverse hperm hsorted fun e he => (hbounds e he).1]
  exact select_eq_self (pairwise_reverse.mpr hsorted)
    (fun e he => hbounds e (mem_reverse.mp he)) fun e _ => Nat.le_refl _

/-- An insertion takes nothing from a text. -/
theorem adds_of_insertion {e : Edit} (h : Rewrites 0 s s' es) (he : e ∈ es)
    (hinsertion : e.start = e.stop) : e.Adds s := by
  obtain ⟨before, old, after, hs, hstart, hstop⟩ := h.located e he
  exact ⟨before, old, after, hs, by omega, hstop, .inl (Utf8.eq_nil_of_width (by omega))⟩

end Rewrites

end Edit

namespace Stamp

open Text Script Script.Tree Options List

variable {spot : Spot} {ts : List Script.Tree} {record : String} {e : Edit}

/-- Whether an edit takes the place of a name `undefined` that stands among leaves. -/
def FillsUndefined (spot : Spot) (tokens : List Token) (e : Edit) : Prop :=
  ∃ front name behind, tokens = front ++ (Leaf.undefined, name) :: behind ∧
    e.start = (spot.after (front.flatMap Prod.snd)).offset ∧ e.stop = e.start + Utf8.width name

/-- What an edit fills among some leaves, it fills among all of them. -/
theorem FillsUndefined.inside {front tokens : List Token}
    (h : FillsUndefined (spot.after (front.flatMap Prod.snd)) tokens e) (behind : List Token) :
    FillsUndefined spot (front ++ tokens ++ behind) e := by
  obtain ⟨before, name, after, rfl, hstart, hstop⟩ := h
  refine ⟨front ++ before, name, after ++ behind, by simp, ?_, hstop⟩
  rw [hstart, List.flatMap_append, Spot.after_append]

/-- An argument that gives way to the options stands among the arguments. -/
theorem fillsUndefined_argument {p : Spot × Script.Tree} (hp : p ∈ placed spot ts)
    (hundefined : p.2.isLeaf .undefined = true) (text : String) :
    FillsUndefined spot (tokensOf ts) ⟨p.1.offset, stop p, text⟩ := by
  obtain ⟨spot', t⟩ := p
  cases t with
  | node kind us => contradiction
  | leaf kind name =>
    obtain rfl : kind = .undefined := (of_decide_eq_true hundefined).symm
    obtain ⟨before, after, rfl, rfl⟩ := exists_of_mem_placed hp
    refine ⟨tokensOf before, name, tokensOf after, ?_, ?_, rfl⟩
    · simp [tokensOf_append, tokensOf, tokens]
    · rw [flatMap_tokensOf]

/-- The one edit for the arguments of a call inserts something or fills a name. -/
theorem insertion_or_fillsUndefined_arguments {args : List Script.Tree} {closing : Nat}
    (h : argumentEdits? record closing ((placed spot args).filter (isArgument ·.2)) = some [e]) :
    e.start = e.stop ∨ FillsUndefined spot (tokensOf args) e := by
  have hmem (p : Spot × Script.Tree) (hp : p ∈ (placed spot args).filter (isArgument ·.2)) :
      p ∈ placed spot args := (mem_filter.mp hp).1
  generalize (placed spot args).filter (isArgument ·.2) = found at h hmem
  match found with
  | [] =>
    cases h
    exact .inl rfl
  | [first] =>
    cases h
    exact .inl rfl
  | first :: (spot', second) :: rest =>
    rw [argumentEdits?] at h
    by_cases hundefined : second.isLeaf .undefined = true
    · rw [if_pos hundefined] at h
      cases h
      exact .inr (fillsUndefined_argument (hmem (spot', second) (by simp)) hundefined _)
    · rw [if_neg hundefined, extend?_of_object] at h
      obtain ⟨⟨place, slot⟩, -, hedit⟩ := Option.map_eq_some_iff.mp h
      cases hedit
      exact .inl (inserts_edit place slot).1

/-- The one edit for a call inserts something or fills a name. -/
theorem insertion_or_fillsUndefined
    (h : edits? spot (.node .call ts) record = some [e]) :
    e.start = e.stop ∨ FillsUndefined spot (tokensOf ts) e := by
  by_cases hargs : ∃ before args after,
      splitLast? (!·.isFiller) ts = some (before, .node .arguments args, after)
  · obtain ⟨before, args, after, hlast⟩ := hargs
    rw [edits?_eq, arguments?_eq hlast] at h
    obtain ⟨rfl, -, -⟩ := splitLast?_eq_some.mp hlast
    have htokens : tokensOf (before ++ .node .arguments args :: after) =
        tokensOf before ++ tokensOf args ++ tokensOf after := by
      simp [tokensOf_append, tokensOf, tokens]
    rw [htokens]
    rw [← flatMap_tokensOf] at h
    exact (insertion_or_fillsUndefined_arguments h).imp_right (·.inside (tokensOf after))
  · have hother : ∀ before args after,
        splitLast? (!·.isFiller) ts ≠ some (before, .node .arguments args, after) :=
      fun before args after hlast => hargs ⟨before, args, after, hlast⟩
    rw [edits?_eq, arguments?_other spot hother] at h
    contradiction

/-- A call that can be stamped is stamped by one edit. -/
theorem exists_edit {edits : List Edit} (h : edits? spot (.node .call ts) record = some edits) :
    ∃ e, edits = [e] := by
  have hagree := agree_call (fun _ => .leaf .text record.toList) (.leaf .text record.toList) spot ts
  rw [Script.Tree.text, String.ofList_toList] at hagree
  cases hagree with
  | stays hedits htree hstamped =>
    rw [h] at hedits
    contradiction
  | changes e a b lost hedits htree hstamped hinserts hmakes =>
    exact ⟨e, Option.some.inj (h.symm.trans hedits)⟩

/-- Each stamp of a script is one edit, which inserts something or fills a name of the script. -/
theorem edit_of_mem_plan {record : UInt32 → String} {script : Script.Tree} {stamp : Stamp}
    (h : stamp ∈ plan record script) : ∃ e, stamp.edits = [e] ∧
      (e.start = e.stop ∨ FillsUndefined .start script.tokens e) := by
  obtain ⟨⟨spot, call⟩, hcall, hmade⟩ := mem_filterMap.mp h
  obtain ⟨⟨ts, hts⟩, -, -⟩ := call_of_mem_callsAt (L := layout) hcall
  dsimp only at hts hmade
  subst hts
  split at hmade
  · obtain ⟨edits, hedits, rfl⟩ := Option.map_eq_some_iff.mp hmade
    obtain ⟨e, rfl⟩ := exists_edit hedits
    refine ⟨e, rfl, (insertion_or_fillsUndefined hedits).imp_right fun hfills => ?_⟩
    -- The name stands in the call, and the call in the script.
    obtain ⟨front, behind, htokens, hspot⟩ := tokens_of_mem_callsAt hcall
    dsimp only at hspot
    rw [htokens]
    rw [hspot] at hfills
    exact hfills.inside behind
  · contradiction

/-- An edit that fills a name takes nothing else away. -/
theorem FillsUndefined.adds {script : Script.Tree}
    (hspelled : ∀ name, (Leaf.undefined, name) ∈ script.tokens → name = "undefined".toList)
    (h : FillsUndefined .start script.tokens e) : e.Adds script.text := by
  obtain ⟨front, name, behind, htokens, hstart, hstop⟩ := h
  refine ⟨front.flatMap Prod.snd, name, behind.flatMap Prod.snd, ?_, ?_, hstop,
    .inr (hspelled name (by simp [htokens]))⟩
  · rw [← flatMap_tokens, htokens]
    simp
  · rw [hstart]
    exact Nat.zero_add _

/-- What stamps do to a text when they only add to it. -/
structure Additive (source : String) (stamps : List Stamp) : Prop where
  /-- Each stamp is one edit, which takes nothing away but the name `undefined`. -/
  single : ∀ stamp ∈ stamps, ∃ e, stamp.edits = [e] ∧ e.Adds source.toList
  /-- No two edits have a place in common. -/
  apart : (stamps.flatMap (·.edits)).Pairwise Edit.Apart
  /-- No edit is dropped. -/
  kept : Edit.select (Utf8.width source.toList) none
    ((stamps.flatMap (·.edits)).mergeSort Edit.before) =
      (stamps.flatMap (·.edits)).mergeSort Edit.before
  /-- The new text is the old one with these edits. -/
  output : ∃ code, Edit.applyAll? source (stamps.flatMap (·.edits)) = some code ∧
    Edit.Rewrites 0 source.toList code.toList (stamps.flatMap (·.edits))

/-- The stamps of a script only add to its text. -/
theorem additive_plan {read : Script.Reader} (hread : read.Spells) {d : Dialect} {source : String}
    {script : Script.Tree} (hreads : read d source.toList = some script)
    (record : UInt32 → String) : Additive source (plan record script) := by
  have htext := hread.text hreads
  -- The record is all one leaf here, as only its text is asked for.
  have hrewrites := rewrites_plan (fun line => .leaf .text (record line).toList)
    (hread.layout hreads)
  simp only [Script.Tree.text, String.ofList_toList, htext] at hrewrites
  refine ⟨fun stamp hstamp => ?_, hrewrites.apart, hrewrites.select_eq,
    _, Edit.applyAll?_of_rewrites hrewrites, by rwa [String.toList_ofList]⟩
  obtain ⟨e, hedits, hinsertion | hfills⟩ := edit_of_mem_plan hstamp
  · have hmem : e ∈ (plan record script).flatMap (·.edits) :=
      mem_flatMap.mpr ⟨stamp, hstamp, hedits ▸ mem_singleton.mpr rfl⟩
    exact ⟨e, hedits, hrewrites.adds_of_insertion hmem hinsertion⟩
  · exact ⟨e, hedits, htext ▸ hfills.adds (hread.undefined hreads)⟩

/-- Calls in the callee, the arguments and the options of a call, each with an edit of its own. -/
theorem additive_nested : ∃ script,
    parse? .plain "a.b.query(a.c.query(), undefined).d.query(1, \x7b x: a.e.query(2), \x7d);".toList =
      some script ∧
    (plan (fun _ => "0") script).map (·.edits.map fun e => (e.start, e.stop)) =
      [[(63, 63)], [(23, 32)], [(20, 20)], [(61, 61)]] ∧
    Additive "a.b.query(a.c.query(), undefined).d.query(1, \x7b x: a.e.query(2), \x7d);"
      (plan (fun _ => "0") script) := by
  obtain ⟨script, hreads, hedits⟩ := Option.map_eq_some_iff.mp
    (show (parse? .plain
        "a.b.query(a.c.query(), undefined).d.query(1, \x7b x: a.e.query(2), \x7d);".toList).map
      (fun script => (plan (fun _ => "0") script).map (·.edits.map fun e => (e.start, e.stop))) =
        some [[(63, 63)], [(23, 32)], [(20, 20)], [(61, 61)]] by decide +kernel)
  exact ⟨script, hreads, hedits, additive_plan spells_parse? hreads _⟩

end Stamp

end Crossing
