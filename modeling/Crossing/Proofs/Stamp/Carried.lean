import Crossing.Proofs.Script.Grammar
import Crossing.Proofs.Stamp.Shape
import Crossing.Proofs.Stamp.Splice
import Crossing.Proofs.Stamp.Written

/-!
# Edits inside of trees

The edits that are planned for the calls inside of a tree, and what it means that they make the text
of the stamped tree (`Carried`): they rewrite it, and lie strictly inside of it, so those of
neighbours keep apart. Trees that are carried may follow one another, may have something written
between them, and may hold one tree that changes (`carried_inside`).
-/

namespace Crossing.Stamp

open Text Script Script.Tree Options List

/-- The edits for calls. -/
def editsFor (record : UInt32 → Script.Tree) (calls : List (Spot × Script.Tree)) : List Edit :=
  calls.flatMap fun (spot, call) =>
    if isRemoteCall call then
      (edits? spot call (.ofList (record spot.lineNumber).text)).getD []
    else []

variable (record : UInt32 → Script.Tree)

/-- The planned edits are those for the calls of the script. -/
theorem flatMap_plan (script : Script.Tree) :
    (plan (fun line => .ofList (record line).text) script).flatMap (·.edits) =
      editsFor record (calls script) := by
  unfold plan editsFor
  induction calls script with
  | nil => rfl
  | cons p ps ih =>
    obtain ⟨spot, call⟩ := p
    rw [filterMap_cons, flatMap_cons, ← ih]
    dsimp only
    by_cases hremote : isRemoteCall call = true
    · rw [if_pos hremote, if_pos hremote]
      cases edits? spot call (.ofList (record spot.lineNumber).text) <;> rfl
    · rw [if_neg hremote, if_neg hremote]
      rfl

/-- The edits inside of a tree. -/
def editsAt (spot : Spot) (t : Script.Tree) : List Edit :=
  editsFor record (callsAt spot t)

/-- The edits inside of trees that follow one another. -/
def editsIn (spot : Spot) (ts : List Script.Tree) : List Edit :=
  editsFor record (callsIn spot ts)

/-- The edits inside of trees that follow one another, from the first on. -/
theorem editsIn_cons (spot : Spot) (t : Script.Tree) (ts : List Script.Tree) :
    editsIn record spot (t :: ts) =
      editsAt record spot t ++ editsIn record (spot.after t.text) ts := by
  rw [editsIn, callsIn, editsFor, flatMap_append]
  rfl

/-- The edits inside of joined lists. -/
theorem editsIn_append (spot : Spot) (ts us : List Script.Tree) :
    editsIn record spot (ts ++ us) =
      editsIn record spot ts ++ editsIn record (spot.after (textOf ts)) us := by
  induction ts generalizing spot with
  | nil => rfl
  | cons t ts ih =>
    rw [cons_append, editsIn_cons, editsIn_cons, ih, textOf, Spot.after_append, append_assoc]

/-- There are no edits inside of a leaf. -/
theorem editsAt_leaf (spot : Spot) (kind : Leaf) (s : List Char) :
    editsAt record spot (.leaf kind s) = [] := rfl

/-- The edits inside of a node that is no call are those inside of its children. -/
theorem editsAt_node {kind : Kind} (hkind : kind ≠ .call) (spot : Spot) (ts : List Script.Tree) :
    editsAt record spot (.node kind ts) = editsIn record spot ts := by
  rw [editsAt, callsAt, if_neg hkind]
  rfl

/-- The edits inside of a call are its own ones and those inside of its children. -/
theorem editsAt_call (spot : Spot) (ts : List Script.Tree) :
    editsAt record spot (.node .call ts) =
      (if isRemoteCall (.node .call ts) then
        (edits? spot (.node .call ts) (.ofList (record spot.lineNumber).text)).getD []
      else []) ++ editsIn record spot ts := by
  rw [editsAt, callsAt, if_pos rfl, editsFor, flatMap_append, flatMap_singleton]
  rfl

/-- Whether the edits inside of a text that becomes another one are carried out as they should be,
and lie strictly inside of it. -/
structure Carried (spot : Spot) (old new : List Char) (es : List Edit) : Prop where
  rewrites : Edit.Rewrites spot.offset old new es
  inside : ∀ e ∈ es, spot.offset < e.start ∧ e.stop < (spot.after old).offset

/-- The layout of trees whose edits make the stamped trees. -/
def carried : Script.Layout := fun kind ts => ∀ spot,
  Carried spot (textOf ts) (stamped record spot (.node kind ts)).text
    (editsAt record spot (.node kind ts))

variable {record} {spot : Spot}

/-- What is around a place is carried out together with what happens at the place. -/
theorem rewrites_around {s s' old new u u' : List Char} {es fs gs : List Edit}
    (hs : Carried spot s s' es) (hmid : Edit.Rewrites (spot.after s).offset old new fs)
    (hu : Carried ((spot.after s).after old) u u' gs) :
    Edit.Rewrites spot.offset (s ++ (old ++ u)) (s' ++ (new ++ u')) (es ++ (fs ++ gs)) := by
  -- What is around the place ends where the place starts, or starts where it ends, and its edits
  -- lie strictly inside of it.
  have hbounds := hmid.bounds
  have hoffset : (spot.after s).offset = spot.offset + Utf8.width s := rfl
  have hrest : Edit.Rewrites (spot.offset + Utf8.width s) (old ++ u) (new ++ u') (fs ++ gs) := by
    refine .append hmid hu.rewrites fun e he f hf => ?_
    have he := hbounds e he
    have hf := hu.inside f hf
    have hstart : ((spot.after s).after old).offset = (spot.after s).offset + Utf8.width old := rfl
    unfold Edit.Precedes
    have := (hu.rewrites.bounds f ‹_›)
    omega
  refine .append hs.rewrites hrest fun e he f hf => ?_
  have hin := hs.inside e he
  have hes := hs.rewrites.bounds e he
  have hfs := hrest.bounds f hf
  unfold Edit.Precedes
  omega

/-- Texts that follow one another are carried out one after the other. -/
theorem Carried.append {s s' t t' : List Char} {es fs : List Edit} (hs : Carried spot s s' es)
    (ht : Carried (spot.after s) t t' fs) : Carried spot (s ++ t) (s' ++ t') (es ++ fs) where
  rewrites := by
    have := rewrites_around hs (.keep _ []) ht
    simpa only [nil_append] using this
  inside e he := by
    have hoffset : (spot.after s).offset = spot.offset + Utf8.width s := rfl
    rw [Spot.after_append]
    have hend : ((spot.after s).after t).offset = (spot.after s).offset + Utf8.width t := rfl
    rcases mem_append.mp he with he | he
    · have := hs.inside e he
      omega
    · have := ht.inside e he
      omega

/-- A text without edits stays. -/
theorem Carried.keep (spot : Spot) (s : List Char) : Carried spot s s [] :=
  ⟨.keep _ s, fun _ h => absurd h not_mem_nil⟩

/-- A tree whose edits are carried out. -/
theorem carried_of_every {t : Script.Tree} (h : t.Every (carried record)) (spot : Spot) :
    Carried spot t.text (stamped record spot t).text (editsAt record spot t) := by
  cases t with
  | leaf kind s =>
    rw [stamped_leaf]
    exact .keep spot s
  | node kind ts => exact h.1 spot

/-- Trees whose edits are carried out. -/
theorem carried_of_everyOf {ts : List Script.Tree} (h : EveryOf (carried record) ts) (spot : Spot) :
    Carried spot (textOf ts) (textOf (stampedAll record spot ts)) (editsIn record spot ts) := by
  induction ts generalizing spot with
  | nil => exact .keep spot []
  | cons t ts ih =>
    rw [textOf, stampedAll, textOf, editsIn_cons]
    exact (carried_of_every h.1 spot).append (ih h.2 _)

/-- An insertion between trees. -/
theorem rewrites_insertion {ts us : List Script.Tree} (hts : EveryOf (carried record) ts)
    (hus : EveryOf (carried record) us) (spot : Spot) (w : List Char) :
    Edit.Rewrites spot.offset (textOf ts ++ textOf us)
      (textOf (stampedAll record spot ts) ++
        (w ++ textOf (stampedAll record (spot.after (textOf ts)) us)))
      (⟨(spot.after (textOf ts)).offset, (spot.after (textOf ts)).offset, .ofList w⟩ ::
        editsIn record spot (ts ++ us)) := by
  -- An insertion is an edit of the empty text between the trees.
  have h := rewrites_around (carried_of_everyOf hts spot) (.edit _ [] w)
    (carried_of_everyOf hus _)
  rw [editsIn_append]
  exact h.perm perm_middle

/-- What is written behind a tree is inserted where the tree ends. -/
theorem rewrites_behind {before after : List Script.Tree} {last : Script.Tree}
    (hts : EveryOf (carried record) (before ++ last :: after)) (written : List Script.Tree)
    (gap : List Char) (spot : Spot) :
    Edit.Rewrites spot.offset (textOf (before ++ last :: after))
      (textOf (stampedAll record spot before ++ (insertBehind written gap
        (stamped record (spot.after (textOf before)) last)
        (stampedAll record ((spot.after (textOf before)).after last.text) after)).1))
      (⟨((spot.after (textOf before)).after last.text).offset,
        ((spot.after (textOf before)).after last.text).offset, .ofList (textOf written ++ gap)⟩ ::
          editsIn record spot (before ++ last :: after)) := by
  -- The tree that something is written behind counts as one of those in front.
  have hconcat : before ++ last :: after = before ++ [last] ++ after := by simp
  have hspot : spot.after (textOf (before ++ [last])) =
      (spot.after (textOf before)).after last.text := by
    rw [textOf_append, textOf, textOf, append_nil, Spot.after_append]
  rw [hconcat] at hts ⊢
  obtain ⟨hbefore, hafter⟩ := everyOf_append.mp hts
  have h := rewrites_insertion hbefore hafter spot (textOf written ++ gap)
  rw [hspot] at h
  have hold : textOf (before ++ [last] ++ after) = textOf (before ++ [last]) ++ textOf after :=
    textOf_append _ _
  have hnew : textOf (stampedAll record spot before ++ (insertBehind written gap
        (stamped record (spot.after (textOf before)) last)
        (stampedAll record ((spot.after (textOf before)).after last.text) after)).1) =
      textOf (stampedAll record spot (before ++ [last])) ++ (textOf written ++ gap ++
        textOf (stampedAll record ((spot.after (textOf before)).after last.text) after)) := by
    simp only [stampedAll_append, stampedAll, textOf_append, textOf_insertBehind, textOf,
      append_assoc, append_nil]
  rw [hold]
  exact hnew ▸ h

/-- One edit more, inside of a text. -/
theorem Carried.cons {s s' t' : List Char} {e : Edit} {es : List Edit} (hs : Carried spot s s' es)
    (h : Edit.Rewrites spot.offset s t' (e :: es))
    (he : spot.offset < e.start ∧ e.stop < (spot.after s).offset) : Carried spot s t' (e :: es) where
  rewrites := h
  inside f hf := by
    rcases mem_cons.mp hf with rfl | hf
    · exact he
    · exact hs.inside f hf

/-- The edits of one tree of a list, which come first, and those of the other ones. -/
theorem perm_inside (ts : List Script.Tree) (t : Script.Tree) (us : List Script.Tree) (spot : Spot)
    (e : Edit) : editsIn record spot ts ++ (e :: editsAt record (spot.after (textOf ts)) t ++
      editsIn record ((spot.after (textOf ts)).after t.text) us) ~
        e :: editsIn record spot (ts ++ t :: us) := by
  rw [editsIn_append, editsIn_cons]
  exact perm_middle

/-- What an edit does in one tree of a list, it does in the list. -/
theorem rewrites_inside {ts us : List Script.Tree} (t t' : Script.Tree) {e : Edit}
    (hts : EveryOf (carried record) ts) (hus : EveryOf (carried record) us) (spot : Spot)
    (ht : Edit.Rewrites (spot.after (textOf ts)).offset t.text t'.text
      (e :: editsAt record (spot.after (textOf ts)) t)) :
    Edit.Rewrites spot.offset (textOf (ts ++ t :: us))
      (textOf (stampedAll record spot ts ++
        t' :: stampedAll record ((spot.after (textOf ts)).after t.text) us))
      (e :: editsIn record spot (ts ++ t :: us)) := by
  have h := rewrites_around (carried_of_everyOf hts spot) ht (carried_of_everyOf hus _)
  rw [textOf_append, textOf_append, textOf, textOf]
  exact h.perm (perm_inside ts t us spot e)

/-- What an edit does strictly inside of one tree of a list, it does strictly inside of the list. -/
theorem carried_inside {ts us : List Script.Tree} (t t' : Script.Tree) {e : Edit}
    (hts : EveryOf (carried record) ts) (hus : EveryOf (carried record) us) (spot : Spot)
    (ht : Carried (spot.after (textOf ts)) t.text t'.text
      (e :: editsAt record (spot.after (textOf ts)) t)) :
    Carried spot (textOf (ts ++ t :: us))
      (textOf (stampedAll record spot ts ++
        t' :: stampedAll record ((spot.after (textOf ts)).after t.text) us))
      (e :: editsIn record spot (ts ++ t :: us)) := by
  have h := (carried_of_everyOf hts spot).append (ht.append (carried_of_everyOf hus _))
  rw [textOf_append, textOf_append, textOf, textOf]
  exact ⟨h.rewrites.perm (perm_inside ts t us spot e),
    fun f hf => h.inside f ((perm_inside ts t us spot e).mem_iff.mpr hf)⟩

end Crossing.Stamp
