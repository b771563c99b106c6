import Crossing.Proofs.Text.Utf8
import Crossing.Stamp.Edit

/-!
# Edits that keep apart

What a list of edits does to a text when no two of them share a place (`Rewrites`). Such edits may be
listed in any order: carrying them out sorts them, drops none, and puts each new text where the old
one was (`applyAll?_of_rewrites`). The statement is built up along the text, so it says of a piece
what it says of the whole.
-/

namespace Crossing.Edit

open Text List

/-- Whether an edit ends where another one starts or before, and is not the same insertion. -/
def Precedes (a b : Edit) : Prop :=
  a.stop ≤ b.start ∧ a.start < b.stop

/-- A text is parted where its first part ends. -/
theorem splitAt?_append (s t : List Char) : splitAt? (Utf8.width s) (s ++ t) = some (s, t) := by
  induction s with
  | nil => cases t <;> rfl
  | cons c s ih =>
    -- A character has at least one byte, so the offset is not the start.
    have hpos := c.utf8Size_pos
    obtain ⟨n, hn⟩ : ∃ n, Utf8.width (c :: s) = n + 1 := ⟨Utf8.width (c :: s) - 1, by
      unfold Utf8.width
      omega⟩
    have hrest : n + 1 - c.utf8Size = Utf8.width s := by
      unfold Utf8.width at hn
      omega
    have hle : c.utf8Size ≤ n + 1 := by
      unfold Utf8.width at hn
      omega
    rw [hn, List.cons_append, splitAt?, if_pos hle, hrest, ih]
    rfl

/-- An edit of the middle part of a text puts its text there. -/
theorem splice?_append (before old after new : List Char) :
    splice? ⟨Utf8.width before, Utf8.width before + Utf8.width old, .ofList new⟩
      (before ++ old ++ after) = some (before ++ new ++ after) := by
  unfold splice?
  have hwidth : Utf8.width before + Utf8.width old - Utf8.width before = Utf8.width old := by omega
  simp only [hwidth, List.append_assoc, splitAt?_append, Option.bind_eq_bind, Option.bind_some,
    String.toList_ofList, Option.pure_def]

/-- Edits are carried out one after the other. -/
theorem spliceAll?_append (es fs : List Edit) (s : List Char) :
    spliceAll? (es ++ fs) s = spliceAll? es s >>= spliceAll? fs := by
  induction es generalizing s with
  | nil => rfl
  | cons e es ih =>
    rw [List.cons_append, spliceAll?, spliceAll?]
    cases splice? e s with
    | none => rfl
    | some t => exact ih t

/-- Edits that are listed from the back and keep apart are all carried out. -/
theorem select_eq_self {length : Nat} {es : List Edit} (hes : es.Pairwise fun a b => Precedes b a)
    (hbounds : ∀ e ∈ es, e.start ≤ e.stop ∧ e.stop ≤ length) {floor : Option Nat}
    (hfloor : ∀ e ∈ es, e.stop ≤ floor.getD e.stop) : select length floor es = es := by
  induction es generalizing floor with
  | nil => rfl
  | cons e es ih =>
    obtain ⟨hlast, hes⟩ := pairwise_cons.mp hes
    have he := hbounds e mem_cons_self
    have hrest : select length (some e.start) es = es :=
      ih hes (fun f hf => hbounds f (mem_cons_of_mem e hf)) fun f hf => (hlast f hf).1
    rw [select, if_pos ⟨he.1, hfloor e mem_cons_self, he.2⟩, hrest]

/-- Whether an edit inserts a text that is not empty. -/
def Inserts (e : Edit) : Prop :=
  e.start = e.stop ∧ 0 < Utf8.width e.text.toList

/-- How edits make a new text of one that starts at an offset. -/
inductive Rewrites : (offset : Nat) → (old new : List Char) → List Edit → Prop
  /-- Without edits the text stays. -/
  | keep (offset : Nat) (s : List Char) : Rewrites offset s s []
  | edit (offset : Nat) (old new : List Char) :
    Rewrites offset old new [⟨offset, offset + Utf8.width old, .ofList new⟩]
  | append {offset : Nat} {s s' t t' : List Char} {es fs : List Edit}
    (hs : Rewrites offset s s' es) (ht : Rewrites (offset + Utf8.width s) t t' fs)
    (hapart : ∀ e ∈ es, ∀ f ∈ fs, Precedes e f) : Rewrites offset (s ++ t) (s' ++ t') (es ++ fs)
  /-- The edits may be listed in any order. -/
  | perm {offset : Nat} {s s' : List Char} {es fs : List Edit}
    (hs : Rewrites offset s s' es) (hperm : es ~ fs) : Rewrites offset s s' fs

namespace Rewrites

variable {offset : Nat} {s s' : List Char} {es : List Edit}

/-- The edits of a text lie in it. -/
theorem bounds (h : Rewrites offset s s' es) :
    ∀ e ∈ es, offset ≤ e.start ∧ e.start ≤ e.stop ∧ e.stop ≤ offset + Utf8.width s := by
  induction h with
  | keep offset s => exact fun e he => absurd he not_mem_nil
  | edit offset old new =>
    intro e he
    rw [mem_singleton.mp he]
    exact ⟨Nat.le_refl _, Nat.le_add_right _ _, Nat.le_refl _⟩
  | append hs ht hapart ihs iht =>
    intro e he
    rw [Utf8.width_append]
    rcases mem_append.mp he with he | he
    · have := ihs e he
      omega
    · have := iht e he
      omega
  | perm hs hperm ih => exact fun e he => ih e (hperm.mem_iff.mpr he)

/-- A text gets longer by each insertion. -/
theorem width_le (h : Rewrites offset s s' es) (hes : ∀ e ∈ es, e.Inserts) :
    Utf8.width s + es.length ≤ Utf8.width s' := by
  induction h with
  | keep offset s => exact Nat.le_refl _
  | edit offset old new =>
    have hinserts := hes _ (mem_singleton.mpr rfl)
    unfold Inserts at hinserts
    simp only [String.toList_ofList, length_singleton] at hinserts ⊢
    omega
  | append hs ht hapart ihs iht =>
    have hleft := ihs fun e he => hes e (mem_append_left _ he)
    have hright := iht fun e he => hes e (mem_append_right _ he)
    rw [Utf8.width_append, Utf8.width_append, length_append]
    omega
  | perm hs hperm ih =>
    rw [← hperm.length_eq]
    exact ih fun e he => hes e (hperm.mem_iff.mp he)

/-- In the order of the text, the edits keep apart and put the new text in the place of the old one,
whatever stands around it. -/
theorem sorted (h : Rewrites offset s s' es) : ∃ sorted : List Edit, sorted ~ es ∧
    sorted.Pairwise Precedes ∧ ∀ before after, Utf8.width before = offset →
      spliceAll? sorted.reverse (before ++ s ++ after) = some (before ++ s' ++ after) := by
  induction h with
  | keep offset s => exact ⟨[], .refl _, .nil, fun before after _ => rfl⟩
  | edit offset old new =>
    refine ⟨_, .refl _, pairwise_singleton _ _, fun before after hbefore => ?_⟩
    subst hbefore
    rw [reverse_singleton, spliceAll?, splice?_append]
    rfl
  | @append offset s s' t t' es fs hs ht hapart ihs iht =>
    obtain ⟨es', hes', hordes, hsplices⟩ := ihs
    obtain ⟨fs', hfs', hordfs, hsplicet⟩ := iht
    refine ⟨es' ++ fs', hes'.append hfs', pairwise_append.mpr ⟨hordes, hordfs, fun e he f hf =>
      hapart e (hes'.mem_iff.mp he) f (hfs'.mem_iff.mp hf)⟩, fun before after hbefore => ?_⟩
    -- The edits of the second part come first; they leave the first part where it is.
    have hsecond : spliceAll? fs'.reverse (before ++ (s ++ t) ++ after) =
        some (before ++ s ++ (t' ++ after)) := by
      have := hsplicet (before ++ s) after (by rw [Utf8.width_append, hbefore])
      simpa only [append_assoc] using this
    rw [reverse_append, spliceAll?_append, hsecond, Option.bind_eq_bind, Option.bind_some,
      hsplices before _ hbefore]
    simp only [append_assoc]
  | perm hs hperm ih =>
    obtain ⟨sorted, hsorted, hrest⟩ := ih
    exact ⟨sorted, hsorted.trans hperm, hrest⟩

end Rewrites

/-- Edits come from the back: one that starts later first, and of those that start together one that
ends later. -/
theorem before_iff {a b : Edit} :
    before a b = true ↔ b.start < a.start ∨ b.start = a.start ∧ b.stop ≤ a.stop := by
  simp only [before, Bool.or_eq_true, Bool.and_eq_true, decide_eq_true_eq, beq_iff_eq]

/-- The order of edits is transitive. -/
theorem before_trans (a b c : Edit) (hab : before a b = true) (hbc : before b c = true) :
    before a c = true := by
  rw [before_iff] at *
  omega

/-- Of two edits one is in front of the other. -/
theorem before_total (a b : Edit) : (before a b || before b a) = true := by
  rw [Bool.or_eq_true, before_iff, before_iff]
  omega

/-- Sorting from the back reverses edits that keep apart in the order of the text. -/
theorem mergeSort_eq_reverse {sorted es : List Edit} (hperm : sorted ~ es)
    (hsorted : sorted.Pairwise Precedes) (hstop : ∀ e ∈ sorted, e.start ≤ e.stop) :
    es.mergeSort before = sorted.reverse := by
  have hreverse : sorted.reverse.Pairwise fun a b => before a b = true := by
    rw [pairwise_reverse]
    refine hsorted.imp_of_mem fun {a b} ha hb hab => ?_
    have := hstop a ha
    have := hstop b hb
    unfold Precedes at hab
    rw [before_iff]
    omega
  -- Two edits that keep apart cannot stand before each other, so the order is strict.
  have hstrict : ∀ a ∈ sorted, ∀ b ∈ sorted, before a b = true → before b a = true → a = b := by
    refine Pairwise.forall_of_forall_of_flip (fun _ _ _ _ => rfl) ?_ ?_ <;>
    · refine hsorted.imp_of_mem fun {a b} ha hb hab => ?_
      have := hstop a ha
      have := hstop b hb
      unfold Precedes at hab
      simp only [flip, before_iff]
      omega
  have hsame : es.mergeSort before ~ sorted.reverse :=
    (mergeSort_perm es before).trans (hperm.symm.trans (reverse_perm sorted).symm)
  exact hsame.eq_of_pairwise (fun a b ha hb => hstrict a
    (hperm.mem_iff.mpr ((mergeSort_perm es before).mem_iff.mp ha)) b (mem_reverse.mp hb))
    (pairwise_mergeSort before_trans before_total es) hreverse

/-- Edits that rewrite a text are carried out as a whole. -/
theorem applyAll?_of_rewrites {source : String} {s' : List Char} {es : List Edit}
    (h : Rewrites 0 source.toList s' es) : applyAll? source es = some (.ofList s') := by
  obtain ⟨sorted, hperm, hordered, hsplice⟩ := h.sorted
  have hbounds (e : Edit) (he : e ∈ sorted) :
      e.start ≤ e.stop ∧ e.stop ≤ Utf8.width source.toList := by
    have := h.bounds e (hperm.mem_iff.mp he)
    omega
  have hselect : select (Utf8.width source.toList) none sorted.reverse = sorted.reverse :=
    select_eq_self (pairwise_reverse.mpr hordered)
      (fun e he => hbounds e (mem_reverse.mp he)) fun e _ => Nat.le_refl _
  have hall := hsplice [] [] rfl
  rw [nil_append, append_nil, nil_append, append_nil] at hall
  unfold applyAll?
  dsimp only
  rw [mergeSort_eq_reverse hperm hordered fun e he => (hbounds e he).1, hselect, hall]
  rfl

end Crossing.Edit
