import Crossing.Proofs.Script.Order
import Crossing.Script.Cursor

/-!
# A loop over a tree comes to each of its calls once

The loop of `Script/Cursor.lean` keeps no account of where it has been, and yet it ends and is at
each call of the tree once (`Cursor.walk?_eq`). It is followed from the point where it arrives at a
node to the point where it leaves this node: what it passes in between is what there is at and below
the node, which is an induction over the tree (`Cursor.covers_tree`), and a run from one point to
another is put together from runs (`Cursor.Leads.trans`). `Cursor.follows_ofTree` says that there is
a cursor of the kind that is asked for.
-/

namespace Crossing.Script

open Crossing.Script.Tree

/-! ## Places -/

/-- What stands below a place is looked up from the node that stands there. -/
theorem locate?_append (spot : Spot) (t : Tree) (p q : List Nat) :
    locate? spot t (p ++ q) = (locate? spot t p).bind fun found => locate? found.1 found.2 q := by
  induction p generalizing spot t with
  | nil => rfl
  | cons i p ih =>
    rw [List.cons_append, locate?, locate?]
    cases (placed spot t.children)[i]? with
    | none => rfl
    | some child => exact ih child.1 child.2

/-- Below the place of a node its children stand, by their numbers. -/
theorem locate?_concat {spot : Spot} {t : Tree} {p : List Nat} {found : Spot × Tree}
    (h : locate? spot t p = some found) (i : Nat) :
    locate? spot t (p ++ [i]) = (placed found.1 found.2.children)[i]? := by
  rw [locate?_append, h, Option.bind_some, locate?]
  exact Option.bind_fun_some _

/-- A node without children has no places below it. -/
theorem locate?_cons_of_children {spot : Spot} {t : Tree} (h : t.children = []) (i : Nat)
    (p : List Nat) : locate? spot t (i :: p) = none := by
  rw [locate?, h]
  rfl

mutual

/-- The calls at and below a tree, with their places, which are those of the tree with what leads
from it to the call. -/
def placedCallsAt (place : List Nat) (spot : Spot) : Tree → List (List Nat × Spot × Tree)
  | .leaf _ _ => []
  | .node kind ts =>
    (if kind = .call then [(place, spot, .node kind ts)] else []) ++ placedCallsIn place 0 spot ts

/-- The calls in trees that follow one another from a child of a node on, with their places. -/
def placedCallsIn (place : List Nat) (i : Nat) (spot : Spot) :
    List Tree → List (List Nat × Spot × Tree)
  | [] => []
  | t :: ts =>
    placedCallsAt (place ++ [i]) spot t ++ placedCallsIn place (i + 1) (spot.after t.text) ts

end

mutual

/-- Without their places, these are the calls at and below the tree. -/
theorem snd_placedCallsAt (place : List Nat) (spot : Spot) (t : Tree) :
    (placedCallsAt place spot t).map Prod.snd = callsAt spot t := by
  cases t with
  | leaf kind s => rfl
  | node kind ts =>
    rw [placedCallsAt, callsAt, List.map_append, snd_placedCallsIn]
    split <;> rfl

/-- Without their places, these are the calls in the trees. -/
theorem snd_placedCallsIn (place : List Nat) (i : Nat) (spot : Spot) (ts : List Tree) :
    (placedCallsIn place i spot ts).map Prod.snd = callsIn spot ts := by
  cases ts with
  | nil => rfl
  | cons t ts =>
    rw [placedCallsIn, callsIn, List.map_append, snd_placedCallsAt, snd_placedCallsIn]

end

mutual

/-- The places that are given are those where a call stands. -/
theorem mem_placedCallsAt {place q : List Nat} {spot : Spot} {t : Tree} {found : Spot × Tree} :
    (q, found) ∈ placedCallsAt place spot t ↔
      ∃ p, q = place ++ p ∧ locate? spot t p = some found ∧ found.2.hasKind .call = true := by
  cases t with
  | leaf kind s =>
    refine ⟨fun h => absurd h List.not_mem_nil, ?_⟩
    rintro ⟨p, -, hp, hcall⟩
    cases p with
    | nil =>
      rw [← Option.some.inj hp] at hcall
      contradiction
    | cons i p => cases (locate?_cons_of_children rfl i p).symm.trans hp
  | node kind ts =>
    rw [placedCallsAt, List.mem_append, mem_placedCallsIn]
    constructor
    · rintro (h | ⟨j, p, hq, hp, hcall⟩)
      · split at h
        · next hkind =>
          obtain ⟨hq, hfound⟩ := Prod.mk.inj (List.mem_singleton.mp h)
          refine ⟨[], by rw [hq, List.append_nil], by rw [hfound]; rfl, ?_⟩
          rw [hfound]
          exact decide_eq_true hkind.symm
        · exact absurd h List.not_mem_nil
      · exact ⟨j :: p, by rw [hq, Nat.zero_add], hp, hcall⟩
    · rintro ⟨p, hq, hp, hcall⟩
      cases p with
      | nil =>
        rw [← Option.some.inj hp] at hcall
        rw [if_pos (of_decide_eq_true hcall).symm, hq, List.append_nil, ← Option.some.inj hp]
        exact .inl (List.mem_singleton.mpr rfl)
      | cons j p => exact .inr ⟨j, p, by rw [hq, Nat.zero_add], hp, hcall⟩

/-- The places that are given for trees are those below them where a call stands. -/
theorem mem_placedCallsIn {place q : List Nat} {i : Nat} {spot : Spot} {ts : List Tree}
    {found : Spot × Tree} :
    (q, found) ∈ placedCallsIn place i spot ts ↔
      ∃ j p, q = place ++ (i + j) :: p ∧
        ((placed spot ts)[j]?.bind fun child => locate? child.1 child.2 p) = some found ∧
        found.2.hasKind .call = true := by
  cases ts with
  | nil =>
    refine ⟨fun h => absurd h List.not_mem_nil, ?_⟩
    rintro ⟨j, p, -, hp, -⟩
    cases hp
  | cons t ts =>
    rw [placedCallsIn, List.mem_append, mem_placedCallsAt, mem_placedCallsIn]
    constructor
    · rintro (⟨p, hq, hp, hcall⟩ | ⟨j, p, hq, hp, hcall⟩)
      · exact ⟨0, p, by rw [hq, List.append_assoc]; rfl, hp, hcall⟩
      · exact ⟨j + 1, p, by rw [hq, Nat.add_assoc, Nat.add_comm 1], hp, hcall⟩
    · rintro ⟨j, p, hq, hp, hcall⟩
      cases j with
      | zero => exact .inl ⟨p, by rw [hq, List.append_assoc]; rfl, hp, hcall⟩
      | succ j => exact .inr ⟨j, p, by rw [hq, Nat.add_assoc, Nat.add_comm 1], hp, hcall⟩

end

mutual

/-- A call comes before those below it, and these before those of the siblings behind it. -/
theorem pairwise_placedCallsAt (place : List Nat) (spot : Spot) (t : Tree) :
    (placedCallsAt place spot t).Pairwise (·.1 < ·.1) := by
  cases t with
  | leaf kind s => exact .nil
  | node kind ts =>
    rw [placedCallsAt, List.pairwise_append]
    refine ⟨?_, pairwise_placedCallsIn place 0 spot ts, fun a ha b hb => ?_⟩
    · split
      · exact List.pairwise_singleton _ _
      · exact .nil
    · split at ha
      · obtain ⟨j, p, hb, -⟩ := mem_placedCallsIn.mp hb
        rw [List.mem_singleton.mp ha, hb]
        -- A place is in front of those below it.
        calc place = place ++ [] := (List.append_nil place).symm
          _ < place ++ (0 + j) :: p := List.append_left_lt (List.nil_lt_cons _ _)
      · exact absurd ha List.not_mem_nil

/-- The calls in a tree come before those in the trees behind it. -/
theorem pairwise_placedCallsIn (place : List Nat) (i : Nat) (spot : Spot) (ts : List Tree) :
    (placedCallsIn place i spot ts).Pairwise (·.1 < ·.1) := by
  cases ts with
  | nil => exact .nil
  | cons t ts =>
    rw [placedCallsIn, List.pairwise_append]
    refine ⟨pairwise_placedCallsAt _ _ t, pairwise_placedCallsIn _ _ _ ts, fun a ha b hb => ?_⟩
    obtain ⟨p, ha, -⟩ := mem_placedCallsAt.mp ha
    obtain ⟨j, q, hb, -⟩ := mem_placedCallsIn.mp hb
    -- The two places part at the number of the child.
    rw [ha, hb, List.append_assoc]
    exact List.append_left_lt (List.cons_lt_cons_iff.mpr (.inl (by omega)))

end

/-- A tree has a node. -/
theorem Tree.size_pos (t : Tree) : 0 < t.size := by
  cases t with
  | leaf kind s => exact Nat.one_pos
  | node kind ts =>
    rw [Tree.size]
    exact Nat.add_pos_left Nat.one_pos _

namespace Cursor

variable {γ : Type} {m : Cursor γ} {script : Tree} {place : γ → List Nat}

/-! ## Runs of the loop -/

/-- Whether the loop comes from a point to another, over so many points and with these visits, those
at the last point left out. -/
inductive Leads (m : Cursor γ) : (here : Point γ) → (points : Nat) → List γ → Point γ → Prop
  | stay (here : Point γ) : Leads m here 0 [] here
  | step {here there last : Point γ} {points : Nat} {visited : List γ}
      (hnext : m.next? here = some there) (hrest : Leads m there points visited last) :
      Leads m here (points + 1) (m.visit here ++ visited) last

/-- A run behind a run is one run. -/
theorem Leads.trans {a b c : Point γ} {n k : Nat} {v w : List γ} (hab : m.Leads a n v b)
    (hbc : m.Leads b k w c) : m.Leads a (n + k) (v ++ w) c := by
  induction hab with
  | stay => rwa [Nat.zero_add, List.nil_append]
  | step hnext hrest ih =>
    rw [Nat.add_right_comm, List.append_assoc]
    exact .step hnext (ih hbc)

/-- A run to a point where the loop ends is all of the loop: it is over if so many points are
allowed, and else it is not. -/
theorem Leads.walk?_eq {a b : Point γ} {n : Nat} {v : List γ} (h : m.Leads a n v b)
    (hend : m.next? b = none) (points : Nat) :
    m.walk? points a = if n + 1 ≤ points then some (v ++ m.visit b) else none := by
  -- Each point of the run takes one of those that are allowed, and the last one takes one more.
  induction h generalizing points with
  | stay here =>
    cases points with
    | zero => rfl
    | succ points => simp only [walk?, hend, Nat.le_add_left, if_true, List.nil_append]
  | step hnext hrest ih =>
    cases points with
    | zero => rfl
    | succ points =>
      simp only [walk?, hnext, ih hend, Nat.add_le_add_iff_right]
      split
      · rw [Option.map_some, List.append_assoc]
      · rfl

/-- Whether the loop comes from a point, over so many points, to the one where it leaves a place,
and visits these calls on the way. -/
def Covers (m : Cursor γ) (place : γ → List Nat) (here : Point γ) (points : Nat) (p : List Nat)
    (found : List (List Nat × Spot × Tree)) : Prop :=
  ∃ visited last, m.Leads here points visited (.leaving last) ∧ place last = p ∧
    visited.map (fun c => (place c, m.node c)) = found

namespace Follows

/-! ### What the next point is -/

/-- At a node without children, the loop does not go down. -/
theorem next?_childless (h : m.Follows script place) {c : γ} (hc : (m.node c).2.children = []) :
    m.next? (.arrived c) = some (.leaving c) := by
  have hchild := h.firstChild c
  rw [if_pos hc, Option.map_eq_none_iff] at hchild
  rw [next?, hchild]

/-- Else it goes to the first of the children. -/
theorem next?_firstChild (h : m.Follows script place) {c : γ} (hc : (m.node c).2.children ≠ []) :
    ∃ d, m.next? (.arrived c) = some (.arrived d) ∧ place d = place c ++ [0] := by
  have hchild := h.firstChild c
  rw [if_neg hc, Option.map_eq_some_iff] at hchild
  obtain ⟨d, hd, hplace⟩ := hchild
  exact ⟨d, by rw [next?, hd], hplace⟩

section Leaving

variable {c : γ} {p : List Nat} {i : Nat}

/-- From a child it goes to the child behind it. -/
theorem next?_nextSibling (h : m.Follows script place) (hc : place c = p ++ [i])
    (hnext : (locate? .start script (p ++ [i + 1])).isSome) :
    ∃ d, m.next? (.leaving c) = some (.arrived d) ∧ place d = p ++ [i + 1] := by
  have hsibling := h.nextSibling c p i hc
  rw [if_pos hnext, Option.map_eq_some_iff] at hsibling
  obtain ⟨d, hd, hplace⟩ := hsibling
  exact ⟨d, by rw [next?, hd], hplace⟩

/-- From the last of the children it goes up. -/
theorem next?_parent (h : m.Follows script place) (hc : place c = p ++ [i])
    (hlast : ¬ (locate? .start script (p ++ [i + 1])).isSome) :
    ∃ d, m.next? (.leaving c) = some (.leaving d) ∧ place d = p := by
  have hsibling := h.nextSibling c p i hc
  rw [if_neg hlast, Option.map_eq_none_iff] at hsibling
  obtain ⟨d, hd, hplace⟩ := Option.map_eq_some_iff.mp (h.parent c p i hc)
  exact ⟨d, by rw [next?, hsibling, hd], hplace⟩

/-- From the root it does not go on. -/
theorem next?_root (h : m.Follows script place) (hc : place c = []) :
    m.next? (.leaving c) = none := by
  obtain ⟨hsibling, hparent⟩ := h.root c hc
  rw [next?, hsibling, hparent]

end Leaving

/-! ### The loop over a tree -/

/-- Where the loop arrives at a call, it visits it. -/
theorem visit_arrived {c : γ} {spot : Spot} {kind : Kind} {ts : List Tree}
    (hnode : m.node c = (spot, .node kind ts)) :
    (m.visit (.arrived c)).map (fun c => (place c, m.node c)) =
      if kind = .call then [(place c, spot, .node kind ts)] else [] := by
  rw [visit]
  split
  · next hcall =>
    rw [hnode] at hcall
    rw [List.map_singleton, hnode, if_pos (of_decide_eq_true hcall).symm]
  · next hcall =>
    rw [hnode] at hcall
    rw [if_neg fun hkind => hcall (decide_eq_true hkind.symm), List.map_nil]

mutual

/-- From where it arrives at a node, the loop visits the calls at and below the node and comes to
where it leaves it. It passes each node twice. -/
theorem covers_tree (h : m.Follows script place) (t : Tree) {c : γ} {spot : Spot}
    (hnode : m.node c = (spot, t)) :
    m.Covers place (.arrived c) (2 * t.size - 1) (place c) (placedCallsAt (place c) spot t) := by
  cases t with
  | leaf kind s =>
    refine ⟨_, c, .step (h.next?_childless (by rw [hnode]; rfl)) (.stay _), rfl, ?_⟩
    rw [visit, hnode]
    rfl
  | node kind ts =>
    by_cases hts : ts = []
    · subst hts
      refine ⟨_, c, .step (h.next?_childless (by rw [hnode]; rfl)) (.stay _), rfl, ?_⟩
      rw [List.map_append, visit_arrived hnode]
      rfl
    · obtain ⟨d, hnext, hd⟩ := h.next?_firstChild (c := c) (by rw [hnode]; exact hts)
      have hplaced (j : Nat) :
          locate? .start script (place c ++ [0 + j]) = (placed spot ts)[j]? := by
        rw [locate?_concat (h.node c), hnode, Nat.zero_add]
        rfl
      obtain ⟨visited, last, hleads, hlast, hvisited⟩ := covers_trees h ts hts hplaced hd
      refine ⟨m.visit (.arrived c) ++ visited, last, ?_, hlast, ?_⟩
      · rw [Tree.size, show 2 * (1 + Tree.sizeOf ts) - 1 = 2 * Tree.sizeOf ts + 1 by omega]
        exact .step hnext hleads
      · rw [List.map_append, visit_arrived hnode, hvisited, placedCallsAt]

/-- From where it arrives at the first of the children that are left, the loop visits the calls in
all of these and comes to where it leaves their parent. -/
theorem covers_trees (h : m.Follows script place) (ts : List Tree) (hts : ts ≠ []) {p : List Nat}
    {i : Nat} {spot : Spot}
    (hplaced : ∀ j, locate? .start script (p ++ [i + j]) = (placed spot ts)[j]?) {c : γ}
    (hc : place c = p ++ [i]) :
    m.Covers place (.arrived c) (2 * Tree.sizeOf ts) p (placedCallsIn p i spot ts) := by
  cases ts with
  | nil => contradiction
  | cons t ts =>
    have hnode : m.node c = (spot, t) := by
      have := hplaced 0
      rw [Nat.add_zero, ← hc, h.node c] at this
      exact Option.some.inj this
    -- The trees that are left stand at the places from the next one on.
    have hrest (j : Nat) :
        locate? .start script (p ++ [i + 1 + j]) = (placed (spot.after t.text) ts)[j]? := by
      rw [Nat.add_assoc, Nat.add_comm 1]
      exact hplaced (j + 1)
    obtain ⟨visited, last, hleads, hlast, hvisited⟩ := covers_tree h t hnode
    rw [hc] at hlast hvisited
    rw [Tree.sizeOf, placedCallsIn, ← hvisited]
    have hpos := t.size_pos
    by_cases hts : ts = []
    · -- The first child is the last one, and the loop goes up from it.
      subst hts
      obtain ⟨d, hnext, hd⟩ := h.next?_parent hlast (by rw [hrest 0]; exact Bool.false_ne_true)
      refine ⟨visited ++ m.visit (.leaving last), d, ?_, hd, List.map_append⟩
      rw [show 2 * (t.size + Tree.sizeOf []) = 2 * t.size - 1 + 1 by rw [Tree.sizeOf]; omega]
      exact hleads.trans (.step hnext (.stay _))
    · obtain ⟨d, hnext, hd⟩ := h.next?_nextSibling hlast (by
        rw [← Nat.add_zero (i + 1), hrest 0]
        cases ts with
        | nil => contradiction
        | cons u us => rfl)
      obtain ⟨later, behind, hmore, hbehind, hlater⟩ := covers_trees h ts hts hrest hd
      refine ⟨visited ++ (m.visit (.leaving last) ++ later), behind, ?_, hbehind, ?_⟩
      case refine_2 => rw [List.map_append, visit, List.nil_append, hlater]
      rw [show 2 * (t.size + Tree.sizeOf ts) = 2 * t.size - 1 + (2 * Tree.sizeOf ts + 1) by omega]
      exact hleads.trans (.step hnext hmore)

end

/-- The loop over a tree ends when it has passed each node twice, and with as many points as that it
has visited the calls of the tree at their places. -/
theorem walk?_eq (h : m.Follows script place) {c : γ} (hc : place c = []) :
    ∃ visited : List γ,
      (∀ points, m.walk? points (.arrived c) =
        if 2 * script.size ≤ points then some visited else none) ∧
      visited.map (fun c => (place c, m.node c)) = placedCallsAt [] .start script := by
  have hnode : m.node c = (.start, script) := by
    have := h.node c
    rw [hc] at this
    exact (Option.some.inj this).symm
  obtain ⟨visited, last, hleads, hlast, hvisited⟩ := h.covers_tree script hnode
  rw [hc] at hlast hvisited
  refine ⟨visited, fun points => ?_, hvisited⟩
  have hpos := script.size_pos
  rw [hleads.walk?_eq (h.next?_root hlast), visit, List.append_nil,
    show 2 * script.size - 1 + 1 = 2 * script.size by omega]

end Follows

/-- What it is to visit the calls of a script one by one. -/
structure VisitsCalls (m : Cursor γ) (script : Tree) (place : γ → List Nat) (visited : List γ) :
    Prop where
  /-- The calls are visited as they are listed, a call before those inside of it. -/
  calls : visited.map m.node = calls script
  /-- The places that are visited are those where a call stands. -/
  mem_place : ∀ p, p ∈ visited.map place ↔
    ∃ found, locate? .start script p = some found ∧ found.2.hasKind .call = true
  /-- None is visited again: a place is visited before those below it, and these before those of the
  siblings behind it. -/
  places : (visited.map place).Pairwise (· < ·)

/-- Visits of the calls of a script at their places are visits of the calls one by one. -/
theorem VisitsCalls.of_map_eq {visited : List γ}
    (h : visited.map (fun c => (place c, m.node c)) = placedCallsAt [] .start script) :
    m.VisitsCalls script place visited where
  calls := by
    rw [Script.calls, ← snd_placedCallsAt [], ← h, List.map_map]
    rfl
  mem_place p := by
    have hplaces : visited.map place = (placedCallsAt [] .start script).map Prod.fst := by
      rw [← h, List.map_map]
      rfl
    rw [hplaces, List.mem_map]
    constructor
    · rintro ⟨⟨q, found⟩, hmem, rfl⟩
      obtain ⟨p, rfl, hp⟩ := mem_placedCallsAt.mp hmem
      exact ⟨found, hp⟩
    · rintro ⟨found, hp⟩
      exact ⟨(p, found), mem_placedCallsAt.mpr ⟨p, rfl, hp⟩, rfl⟩
  places := by
    have horder := pairwise_placedCallsAt [] .start script
    rw [← h, List.pairwise_map] at horder
    exact List.pairwise_map.mpr horder

/-! ## A cursor that is its place -/

/-- A place that a tree has. -/
theorem map_val_place? (script : Tree) (p : List Nat) :
    (place? script p).map Subtype.val =
      if (locate? .start script p).isSome then some p else none := by
  unfold place?
  split <;> rfl

/-- The cursor that is its place goes from place to place as it should. -/
theorem follows_ofTree (script : Tree) : (ofTree script).Follows script Subtype.val where
  node c := (Option.some_get c.property).symm
  firstChild c := by
    have hfound : locate? .start script c.val = some ((ofTree script).node c) :=
      (Option.some_get c.property).symm
    change (place? script (c.val ++ [0])).map _ = _
    rw [map_val_place?, locate?_concat hfound]
    cases ((ofTree script).node c).2.children <;> rfl
  nextSibling c p i hc := by
    change (c.val.getLast?.bind _).map _ = _
    rw [hc, List.getLast?_concat, List.dropLast_concat, Option.bind_some, map_val_place?]
  parent c p i hc := by
    have hparent : (locate? .start script p).isSome := by
      have := c.property
      rw [hc, locate?_append] at this
      exact Option.isSome_of_isSome_bind this
    change (if c.val = [] then none else place? script c.val.dropLast).map _ = _
    rw [hc, if_neg (List.concat_ne_nil i p), List.dropLast_concat, map_val_place?, if_pos hparent]
  root c hc := by
    refine ⟨?_, if_pos hc⟩
    change c.val.getLast?.bind _ = none
    rw [hc]
    rfl

end Cursor

end Crossing.Script
