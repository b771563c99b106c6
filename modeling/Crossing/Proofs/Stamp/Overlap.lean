import Crossing.Proofs.Stability
import Crossing.Proofs.Stamp.Splice
import Mathlib.Data.List.Infix
import Mathlib.Data.List.Nodup

/-!
# Edits that may overlap

What a list of edits does to a text when nothing is known of them but that they cut no character in
two (`applyAll?_splices`). Some of them are kept, which lie in the text and do not overlap, and the
new text is the old one with the texts of these in the places of their ranges (`Woven`). One that is
dropped has its reason: it is no range of the text, or it reaches behind the start of one that is
kept and comes before it from the back. Edits that do not overlap are all kept, and if their ranges
differ, their order in the list does not count.

The edits are carried out from the back. What is behind the start of the last one has its final form,
and what is in front of it is as it was, so the offsets of the edits to come hold still
(`spliceAll?_select`).
-/

namespace Crossing.Edit

open Text List

/-- The range of an edit. -/
def range (e : Edit) : Nat × Nat := (e.start, e.stop)

/-- Whether an edit has a range of a text. -/
def LiesIn (s : List Char) (e : Edit) : Prop :=
  e.start ≤ e.stop ∧ e.stop ≤ Utf8.width s

/-- Whether a byte offset lies between two characters of a text. -/
def OnBoundary (s : List Char) (offset : Nat) : Prop :=
  ∃ front, front <+: s ∧ Utf8.width front = offset

instance (s : List Char) (e : Edit) : Decidable (e.LiesIn s) :=
  inferInstanceAs (Decidable (_ ∧ _))

instance (s : List Char) (offset : Nat) : Decidable (OnBoundary s offset) :=
  decidable_of_iff (∃ front ∈ s.inits, Utf8.width front = offset) <| by
    simp only [mem_inits, OnBoundary]

/-- Whether one of two edits ends where the other one starts, or before. -/
def Clear (a b : Edit) : Prop :=
  a.stop ≤ b.start ∨ b.stop ≤ a.start

/-- How edits in the order of a text make another text of it: the range of each gives way to its
text, and all else stays. -/
inductive Woven : (old new : List Char) → List Edit → Prop
  | keep (s : List Char) : Woven s s []
  | edit {front front' : List Char} {es : List Edit} (h : Woven front front' es)
    (old after : List Char) (text : String) : Woven (front ++ old ++ after)
      (front' ++ text.toList ++ after)
      (es ++ [⟨Utf8.width front, Utf8.width front + Utf8.width old, text⟩])

/-! ## What is kept -/

/-- What is kept is a part of the list. -/
theorem select_sublist (length : Nat) (floor : Option Nat) (es : List Edit) :
    select length floor es <+ es := by
  induction es generalizing floor with
  | nil => exact .slnil
  | cons e es ih =>
    rw [select]
    split
    · exact (ih _).cons_cons e
    · exact (ih _).cons e

/-- What is kept lies in the text. -/
theorem bounds_of_mem_select {length : Nat} {floor : Option Nat} {es : List Edit} :
    ∀ e ∈ select length floor es, e.start ≤ e.stop ∧ e.stop ≤ length := by
  induction es generalizing floor with
  | nil => exact fun e he => absurd he not_mem_nil
  | cons e es ih =>
    rw [select]
    split
    · next hkept => exact forall_mem_cons.mpr ⟨⟨hkept.1, hkept.2.2⟩, ih⟩
    · exact ih

/-- What is kept ends where the last one starts, or before. -/
theorem stop_le_of_mem_select {length floor : Nat} {es : List Edit} :
    ∀ e ∈ select length (some floor) es, e.stop ≤ floor := by
  induction es generalizing floor with
  | nil => exact fun e he => absurd he not_mem_nil
  | cons e es ih =>
    rw [select]
    split
    · next hkept =>
      obtain ⟨hrange, hfloor, -⟩ := hkept
      rw [Option.getD_some] at hfloor
      exact forall_mem_cons.mpr ⟨hfloor, fun f hf => by
        have := ih f hf
        omega⟩
    · exact ih

/-- Of what is kept, each ends where those kept before it start, or before. -/
theorem pairwise_select (length : Nat) (floor : Option Nat) (es : List Edit) :
    (select length floor es).Pairwise fun a b => b.stop ≤ a.start := by
  induction es generalizing floor with
  | nil => exact .nil
  | cons e es ih =>
    rw [select]
    split
    · exact pairwise_cons.mpr ⟨stop_le_of_mem_select, ih _⟩
    · exact ih _

/-- Why an edit is dropped: it has no range of the text, or it reaches behind the start of one that
is kept and comes before it from the back. -/
def Hindered (length : Nat) (kept : List Edit) (e : Edit) : Prop :=
  e.stop < e.start ∨ length < e.stop ∨ ∃ k ∈ kept, before k e = true ∧ k.start < e.stop

/-- What is dropped from edits that come from the back has its reason, which may lie in one that was
kept before them all. -/
theorem exists_dropped (length : Nat) {es : List Edit} (hsorted : es.Pairwise (before · · = true))
    (floor : Option Nat) : ∃ dropped, select length floor es ++ dropped ~ es ∧
      ∀ e ∈ dropped, Hindered length (select length floor es) e ∨ ∃ n ∈ floor, n < e.stop := by
  induction es generalizing floor with
  | nil => exact ⟨[], .nil, fun e he => absurd he not_mem_nil⟩
  | cons e es ih =>
    obtain ⟨hlast, hes⟩ := pairwise_cons.mp hsorted
    rw [select]
    split
    · obtain ⟨dropped, hperm, hreason⟩ := ih hes (some e.start)
      refine ⟨dropped, hperm.cons e, fun f hf => .inl ?_⟩
      have hmem : f ∈ es := hperm.mem_iff.mp (mem_append_right _ hf)
      rcases hreason f hf with (hrange | hlength | ⟨k, hk, hbefore⟩) | ⟨n, hn, hstop⟩
      · exact .inl hrange
      · exact .inr (.inl hlength)
      · exact .inr (.inr ⟨k, mem_cons_of_mem e hk, hbefore⟩)
      · -- It reaches behind the start of the edit that was kept last.
        cases hn
        exact .inr (.inr ⟨e, mem_cons_self, hlast f hmem, hstop⟩)
    · next hleft =>
      obtain ⟨dropped, hperm, hreason⟩ := ih hes floor
      refine ⟨e :: dropped, perm_middle.trans (hperm.cons e), forall_mem_cons.mpr ⟨?_, hreason⟩⟩
      by_cases hrange : e.stop < e.start
      · exact .inl (.inl hrange)
      by_cases hlength : length < e.stop
      · exact .inl (.inr (.inl hlength))
      cases floor with
      | none => exact absurd ⟨by omega, Nat.le_refl _, by omega⟩ hleft
      | some n =>
        refine .inr ⟨n, rfl, ?_⟩
        rw [Option.getD_some] at hleft
        omega

/-! ## What becomes of the text -/

/-- Of two first parts of a text, the shorter one is a first part of the other. -/
theorem prefix_of_width_le {s front head : List Char} (hfront : front <+: s) (hhead : head <+: s)
    (h : Utf8.width front ≤ Utf8.width head) : front <+: head := by
  rcases prefix_or_prefix_of_prefix hfront hhead with hle | ⟨more, rfl⟩
  · exact hle
  · rw [Utf8.width_append] at h
    rw [Utf8.eq_nil_of_width (s := more) (by omega), append_nil]

/-- A range of a text that cuts no character in two, and ends before some of the text does, is a part
of what is before that. -/
theorem exists_parts {s head : List Char} (hhead : head <+: s) {start stop : Nat}
    (hstart : OnBoundary s start) (hstop : OnBoundary s stop) (hle : start ≤ stop)
    (hend : stop ≤ Utf8.width head) : ∃ front old after, head = front ++ old ++ after ∧
      Utf8.width front = start ∧ Utf8.width front + Utf8.width old = stop := by
  obtain ⟨front, hfront, rfl⟩ := hstart
  obtain ⟨upto, hupto, rfl⟩ := hstop
  obtain ⟨old, rfl⟩ := prefix_of_width_le hfront hupto hle
  obtain ⟨after, rfl⟩ := prefix_of_width_le hupto hhead hend
  exact ⟨front, old, after, rfl, rfl, (Utf8.width_append front old).symm⟩

/-- What is kept of the edits that end before some of a text does makes a new text of what is before
that, whatever has become of the rest. -/
theorem spliceAll?_select {s : List Char} {es : List Edit}
    (hboundary : ∀ e ∈ es, e.LiesIn s → OnBoundary s e.start ∧ OnBoundary s e.stop)
    {head : List Char} (hhead : head <+: s) (tail : List Char) :
    ∃ head', spliceAll? (select (Utf8.width s) (some (Utf8.width head)) es) (head ++ tail) =
        some (head' ++ tail) ∧
      Woven head head' (select (Utf8.width s) (some (Utf8.width head)) es).reverse := by
  induction es generalizing head tail with
  | nil => exact ⟨head, rfl, .keep head⟩
  | cons e es ih =>
    have hrest := fun f hf => hboundary f (mem_cons_of_mem e hf)
    rw [select]
    split
    · next hkept =>
      obtain ⟨hrange, hfloor, hlength⟩ := hkept
      rw [Option.getD_some] at hfloor
      obtain ⟨hstart, hstop⟩ := hboundary e mem_cons_self ⟨hrange, hlength⟩
      obtain ⟨start, stop, text⟩ := e
      obtain ⟨front, old, after, rfl, rfl, rfl⟩ := exists_parts hhead hstart hstop hrange hfloor
      -- The edit leaves what is in front of it as it is.
      have hfront : front <+: s := by
        rw [append_assoc] at hhead
        exact (prefix_append front _).trans hhead
      obtain ⟨front', hsplice, hwoven⟩ := ih hrest hfront (text.toList ++ (after ++ tail))
      have hone := splice?_append front old (after ++ tail) text.toList
      rw [String.ofList_toList] at hone
      refine ⟨front' ++ text.toList ++ after, ?_, ?_⟩
      · rw [spliceAll?, append_assoc, hone, Option.bind_eq_bind, Option.bind_some, append_assoc,
          hsplice]
        simp only [append_assoc]
      · rw [reverse_cons]
        exact .edit hwoven old after text
    · exact ih hrest hhead tail

/-- No edit of a text reaches behind its end, so it does not count whether a floor is there. -/
theorem select_none (length : Nat) (es : List Edit) :
    select length none es = select length (some length) es := by
  induction es with
  | nil => rfl
  | cons e es ih =>
    rw [select, select, ih]
    congr 1
    simp

/-- The edits that are kept make a new text. -/
theorem exists_applyAll? {source : String} {edits : List Edit}
    (hboundary : ∀ e ∈ edits, e.LiesIn source.toList →
      OnBoundary source.toList e.start ∧ OnBoundary source.toList e.stop) :
    ∃ code, applyAll? source edits = some code ∧ Woven source.toList code.toList
      (select (Utf8.width source.toList) none (edits.mergeSort before)).reverse := by
  have hsorted : ∀ e ∈ edits.mergeSort before, e.LiesIn source.toList →
      OnBoundary source.toList e.start ∧ OnBoundary source.toList e.stop :=
    fun e he => hboundary e (mem_mergeSort.mp he)
  obtain ⟨s', hsplice, hwoven⟩ := spliceAll?_select hsorted prefix_rfl []
  rw [← select_none] at hsplice hwoven
  rw [append_nil, append_nil] at hsplice
  refine ⟨.ofList s', ?_, by rwa [String.toList_ofList]⟩
  unfold applyAll?
  dsimp only
  rw [hsplice]
  rfl

/-! ## The order of the list -/

/-- Sorting keeps edits of one range in the order of the list. -/
theorem filter_mergeSort (edits : List Edit) (r : Nat × Nat) :
    (edits.mergeSort before).filter (·.range = r) = edits.filter (·.range = r) := by
  refine Stability.filter_mergeSort_of_ties before_trans before_total edits
    fun a _ b _ ha hb => ?_
  have ha : a.range = r := of_decide_eq_true ha
  have hb : b.range = r := of_decide_eq_true hb
  obtain ⟨hstart, hstop⟩ := Prod.mk.inj (ha.trans hb.symm)
  rw [before_iff]
  omega

/-- Edits of different ranges are sorted the same way, whatever their order in the list. -/
theorem mergeSort_eq_of_perm {edits edits' : List Edit} (hperm : edits' ~ edits)
    (hranges : (edits.map range).Nodup) : edits'.mergeSort before = edits.mergeSort before := by
  have hsame : edits'.mergeSort before ~ edits.mergeSort before :=
    (mergeSort_perm edits' before).trans (hperm.trans (mergeSort_perm edits before).symm)
  refine hsame.eq_of_pairwise (fun a b ha hb hab hba => ?_)
    (pairwise_mergeSort before_trans before_total edits')
    (pairwise_mergeSort before_trans before_total edits)
  have ha : a ∈ edits := hperm.mem_iff.mp (mem_mergeSort.mp ha)
  have hb : b ∈ edits := mem_mergeSort.mp hb
  refine inj_on_of_nodup_map hranges ha hb ?_
  rw [before_iff] at hab hba
  exact Prod.ext (show a.start = b.start by omega) (show a.stop = b.stop by omega)

/-! ## All that a list of edits does -/

/-- What a list of edits does to a text, some of which are kept and the others dropped. -/
structure Splices (s : List Char) (edits kept dropped : List Edit) (s' : List Char) : Prop where
  /-- Each edit is kept or dropped. -/
  parts : kept ++ dropped ~ edits
  /-- What is kept lies in the text. -/
  liesIn : ∀ e ∈ kept, e.LiesIn s
  /-- What is kept does not overlap, and comes in the order of the text. -/
  apart : kept.Pairwise fun a b => a.stop ≤ b.start
  /-- What is dropped has its reason. -/
  hindered : ∀ e ∈ dropped, Hindered (Utf8.width s) kept e
  /-- Of insertions at one place, the last of the list comes first in the text. -/
  reversed : ∀ r, (kept.filter (·.range = r)).reverse <+ edits.filter (·.range = r)
  /-- The ranges of what is kept give way to its texts, and all else stays. -/
  woven : Woven s s' kept

/-- Edits that lie in the text and do not overlap are not hindered. -/
theorem Splices.dropped_eq_nil {s s' : List Char} {edits kept dropped : List Edit}
    (h : Splices s edits kept dropped s') (hliesIn : ∀ e ∈ edits, e.LiesIn s)
    (hclear : edits.Pairwise Clear) : dropped = [] := by
  refine eq_nil_iff_forall_not_mem.mpr fun e he => ?_
  have hparts : (kept ++ dropped).Pairwise Clear :=
    (h.parts.pairwise_iff (fun hab => Or.symm hab)).mpr hclear
  have hmem : ∀ f ∈ kept ++ dropped, f.LiesIn s := fun f hf => hliesIn f (h.parts.mem_iff.mp hf)
  obtain ⟨hrange, hlength⟩ := hmem e (mem_append_right kept he)
  rcases h.hindered e he with hinverted | hbehind | ⟨k, hk, hbefore, hstart⟩
  · omega
  · omega
  · -- The edit that hinders it would have to end where it starts, and start where it ends.
    obtain ⟨hkrange, -⟩ := hmem k (mem_append_left dropped hk)
    have hkclear : k.Clear e := (pairwise_append.mp hparts).2.2 k hk e he
    rw [before_iff] at hbefore
    unfold Clear at hkclear
    omega

/-- Edits that cut no character in two are carried out: some of them are kept, lie in the text and do
not overlap, the others have a reason to be dropped, and the new text is the old one with the texts
of those that are kept in the places of their ranges. If all of them lie in the text, and no two of
them overlap or have the same range, none is dropped, and they may be listed in any order. -/
theorem applyAll?_splices (source : String) (edits : List Edit)
    (hboundary : ∀ e ∈ edits, e.LiesIn source.toList →
      OnBoundary source.toList e.start ∧ OnBoundary source.toList e.stop) :
    ∃ kept dropped code, applyAll? source edits = some code ∧
      Splices source.toList edits kept dropped code.toList ∧
      ((∀ e ∈ edits, e.LiesIn source.toList) → edits.Pairwise Clear → (edits.map range).Nodup →
        dropped = [] ∧ ∀ edits', edits' ~ edits → applyAll? source edits' = some code) := by
  obtain ⟨code, happly, hwoven⟩ := exists_applyAll? hboundary
  obtain ⟨dropped, hperm, hreason⟩ := exists_dropped (Utf8.width source.toList)
    (pairwise_mergeSort before_trans before_total edits) none
  generalize hkept : select (Utf8.width source.toList) none (edits.mergeSort before) = kept
    at hwoven hperm hreason
  have hsplices : Splices source.toList edits kept.reverse dropped code.toList := by
    refine ⟨?_, fun e he => ?_, ?_, fun e he => ?_, fun r => ?_, hwoven⟩
    · exact ((reverse_perm kept).append_right dropped).trans
        (hperm.trans (mergeSort_perm edits before))
    · exact bounds_of_mem_select e (hkept ▸ mem_reverse.mp he)
    · rw [pairwise_reverse, ← hkept]
      exact pairwise_select _ _ _
    · rcases hreason e he with (hrange | hlength | ⟨k, hk, hbefore⟩) | ⟨n, hn, -⟩
      · exact .inl hrange
      · exact .inr (.inl hlength)
      · exact .inr (.inr ⟨k, mem_reverse.mpr hk, hbefore⟩)
      · contradiction
    · rw [filter_reverse, reverse_reverse, ← filter_mergeSort edits, ← hkept]
      exact (select_sublist _ _ _).filter _
  refine ⟨kept.reverse, dropped, code, happly, hsplices, fun hliesIn hclear hranges =>
    ⟨hsplices.dropped_eq_nil hliesIn hclear, fun edits' hedits => ?_⟩⟩
  rw [← happly]
  unfold applyAll?
  rw [mergeSort_eq_of_perm hedits hranges]

/-- Edits of which one has a range that others lie in, one ends behind the text, and one ends before
it starts; and two insertions at the start of a range. -/
def crossing : List Edit :=
  [⟨0, 3, "X"⟩, ⟨2, 3, "Y"⟩, .insertion 2 "a", .insertion 2 "b", ⟨4, 9, "Z"⟩, ⟨5, 4, "W"⟩, ⟨3, 4, "V"⟩]

/-- The first letter has two bytes. The insertion that is listed last comes first in the text. -/
theorem applyAll?_splices_crossing :
    (∀ e ∈ crossing, e.LiesIn "äbcd".toList →
      OnBoundary "äbcd".toList e.start ∧ OnBoundary "äbcd".toList e.stop) ∧
    applyAll? "äbcd" crossing = some "äbaYVd" ∧
    ∃ kept dropped, Splices "äbcd".toList crossing kept dropped "äbaYVd".toList := by
  have hboundary : ∀ e ∈ crossing, e.LiesIn "äbcd".toList →
      OnBoundary "äbcd".toList e.start ∧ OnBoundary "äbcd".toList e.stop := by decide
  have hsorted : crossing.mergeSort before = [⟨5, 4, "W"⟩, ⟨4, 9, "Z"⟩, ⟨3, 4, "V"⟩, ⟨2, 3, "Y"⟩,
      .insertion 2 "a", .insertion 2 "b", ⟨0, 3, "X"⟩] := by
    simp [crossing, mergeSort, MergeSort.Internal.splitInTwo, before, insertion]
  have happly : applyAll? "äbcd" crossing = some "äbaYVd" := by
    rw [applyAll?, hsorted]
    decide +kernel
  obtain ⟨kept, dropped, code, hcode, hsplices, -⟩ :=
    applyAll?_splices "äbcd" crossing hboundary
  rw [happly] at hcode
  cases hcode
  exact ⟨hboundary, happly, kept, dropped, hsplices⟩

end Crossing.Edit
