import Crossing.Proofs.Stamp.Lift

/-!
# What stamping keeps

Outside of calls a stamped tree has the shape of the tree it was made of: leaves stay as they are,
nodes keep their kinds, and members of lists keep their places. So whatever is sought in a list of
trees is found at the same place in the stamped one (`splitFirst?_stampedAll`), and calls of remote
procedures stay such calls (`isRemoteCall_stampedAll`).
-/

namespace Crossing.Stamp

open Script Script.Tree

variable {record : UInt32 → Script.Tree} {spot : Spot}

/-- A call with a record is a call. -/
theorem exists_of_addRecord? {r call t : Script.Tree} {lost : Bool}
    (h : addRecord? r call = some (t, lost)) :
    ∃ ts before args args' after, call = .node .call ts ∧
      splitLast? (!·.isFiller) ts = some (before, .node .arguments args, after) ∧
      addArgument? r args = some (args', lost) ∧
      t = .node .call (before ++ .node .arguments args' :: after) := by
  unfold addRecord? at h
  split at h
  · next ts =>
    obtain ⟨parted, hparted, h⟩ := Option.bind_eq_some_iff.mp h
    split at h
    · next before args after =>
      obtain ⟨⟨args', lost'⟩, hargs, h⟩ := Option.bind_eq_some_iff.mp h
      cases h
      exact ⟨ts, before, args, args', after, rfl, hparted, hargs, rfl⟩
    · contradiction
  · contradiction

/-- How arguments take a record: what they become, and whether it is lost there. -/
inductive Argued (r : Script.Tree) : (ts ts' : List Script.Tree) → (lost : Bool) → Prop
  /-- Without arguments both of them are written. -/
  | none {ts : List Script.Tree} (h : splitFirst? isArgument ts = none) : Argued r ts
    (ts.dropLast ++ .leaf .undefined "undefined".toList :: mark "," :: blank ::
      nested recordPath r :: ts.getLast?.toList) false
  /-- The options are written behind a single argument. -/
  | single {before after : List Script.Tree} {first : Script.Tree}
    (hfirst : splitFirst? isArgument (before ++ first :: after) = some (before, first, after))
    (hsecond : splitFirst? isArgument after = none) : Argued r (before ++ first :: after)
      (before ++ (insertBehind [mark ",", blank, nested recordPath r] [] first after).1)
      (first.isLeaf .remark)
  /-- Options that are `undefined` are replaced. -/
  | undefined {before between behind : List Script.Tree} {first second : Script.Tree}
    (hfirst : splitFirst? isArgument (before ++ first :: (between ++ second :: behind)) =
      some (before, first, between ++ second :: behind))
    (hsecond : splitFirst? isArgument (between ++ second :: behind) = some (between, second, behind))
    (h : second.isLeaf .undefined = true) :
    Argued r (before ++ first :: (between ++ second :: behind))
      (before ++ first :: (between ++ nested recordPath r :: behind)) false
  /-- Options that are a literal are extended. -/
  | literal {before between behind : List Script.Tree} {first second second' : Script.Tree}
    {lost : Bool}
    (hfirst : splitFirst? isArgument (before ++ first :: (between ++ second :: behind)) =
      some (before, first, between ++ second :: behind))
    (hsecond : splitFirst? isArgument (between ++ second :: behind) = some (between, second, behind))
    (h : extendTree? r recordPath second = some (second', lost)) :
    Argued r (before ++ first :: (between ++ second :: behind))
      (before ++ first :: (between ++ second' :: behind)) lost

/-- What arguments with a record are. -/
theorem argued_of_addArgument? {r : Script.Tree} {ts ts' : List Script.Tree} {lost : Bool}
    (h : addArgument? r ts = some (ts', lost)) : Argued r ts ts' lost := by
  cases hfirst : splitFirst? isArgument ts with
  | none =>
    rw [addArgument?_none hfirst] at h
    cases h
    exact .none hfirst
  | some parted =>
    obtain ⟨before, first, after⟩ := parted
    obtain ⟨rfl, -, -⟩ := splitFirst?_eq_some.mp hfirst
    cases hsecond : splitFirst? isArgument after with
    | none =>
      rw [addArgument?_single _ hfirst hsecond] at h
      cases h
      exact .single hfirst hsecond
    | some parted =>
      obtain ⟨between, second, behind⟩ := parted
      obtain ⟨rfl, -, -⟩ := splitFirst?_eq_some.mp hsecond
      cases hundefined : second.isLeaf .undefined with
      | true =>
        rw [addArgument?_undefined hfirst hsecond hundefined] at h
        cases h
        exact .undefined hfirst hsecond hundefined
      | false =>
        rw [addArgument?_literal hfirst hsecond hundefined] at h
        obtain ⟨⟨second', lost'⟩, hextend, h⟩ := Option.map_eq_some_iff.mp h
        cases h
        exact .literal hfirst hsecond hextend

/-- What an extended literal is. -/
theorem exists_of_extendTree? {r t t' : Script.Tree} {path : List String} {lost : Bool}
    (h : extendTree? r path t = some (t', lost)) : ∃ key rest ts before last after,
      path = key :: rest ∧ t = .node .object ts ∧ seat? ts = some (before, last, after) ∧
      ((splitLast? (isAt key) ts = none ∧ lost = last.isLeaf .remark ∧
          t' = .node .object (addSlot (slotTree key (nested rest r)) before last after).1) ∨
        ∃ us front value value' behind,
          splitLast? (isAt key) ts = some (us, .node .pair (front ++ [value]), behind) ∧
          extendTree? r rest value = some (value', lost) ∧
          t' = .node .object (us ++ .node .pair (front ++ [value']) :: behind)) := by
  cases hobject : t.hasKind .object with
  | false =>
    rw [extendTree?_other hobject] at h
    contradiction
  | true =>
    cases t with
    | leaf kind s => contradiction
    | node kind ts =>
      obtain rfl : kind = .object := (of_decide_eq_true hobject).symm
      cases path with
      | nil => contradiction
      | cons key rest =>
        cases hseat : seat? ts with
        | none =>
          rw [extendTree?_unseated hseat] at h
          contradiction
        | some parted =>
          obtain ⟨before, last, after⟩ := parted
          refine ⟨key, rest, ts, before, last, after, rfl, rfl, hseat, ?_⟩
          cases hkey : splitLast? (isAt key) ts with
          | none =>
            rw [extendTree?_slot _ _ hseat hkey, addSlot_snd] at h
            cases h
            exact .inl ⟨rfl, rfl, rfl⟩
          | some parted =>
            obtain ⟨us, member, behind⟩ := parted
            rw [extendTree?_inside _ _ hseat hkey] at h
            obtain ⟨⟨front, value⟩, hmember, h⟩ := Option.bind_eq_some_iff.mp h
            obtain ⟨⟨value', lost'⟩, hvalue, h⟩ := Option.map_eq_some_iff.mp h
            cases h
            obtain rfl := pairParts?_eq_some.mp hmember
            exact .inr ⟨us, front, value, value', behind, rfl, hvalue, rfl⟩

/-- A leaf stays as it is. -/
@[simp]
theorem stamped_leaf (kind : Leaf) (s : List Char) :
    stamped record spot (.leaf kind s) = .leaf kind s := by
  rw [stamped]

/-- A node that is no call holds its stamped children. -/
theorem stamped_node {kind : Kind} (hkind : kind ≠ .call) (ts : List Script.Tree) :
    stamped record spot (.node kind ts) = .node kind (stampedAll record spot ts) := by
  have hnone (r : Script.Tree) : addRecord? r (.node kind (stampedAll record spot ts)) = none := by
    rw [addRecord?]
    rintro us heq
    cases heq
    exact hkind rfl
  rw [stamped, hnone]
  split <;> rfl

/-- A node keeps its kind. -/
theorem exists_stamped_node (record : UInt32 → Script.Tree) (spot : Spot) (kind : Kind)
    (ts : List Script.Tree) : ∃ us, stamped record spot (.node kind ts) = .node kind us := by
  by_cases hkind : kind = .call
  · subst hkind
    rw [stamped]
    split
    · cases h : addRecord? (record spot.lineNumber) (.node .call (stampedAll record spot ts)) with
      | none => exact ⟨_, rfl⟩
      | some added =>
        obtain ⟨t, lost⟩ := added
        obtain ⟨_, before, _, args, after, -, -, -, rfl⟩ := exists_of_addRecord? h
        exact ⟨_, rfl⟩
    · exact ⟨_, rfl⟩
  · exact ⟨_, stamped_node hkind ts⟩

/-- Whatever does not look into nodes takes a stamped tree for the tree. -/
theorem apply_stamped {β : Type} (f : Script.Tree → β)
    (hf : ∀ kind ts us, f (.node kind ts) = f (.node kind us)) (t : Script.Tree) :
    f (stamped record spot t) = f t := by
  -- A leaf stays, and of a node only its kind does.
  cases t with
  | leaf kind s => rw [stamped_leaf]
  | node kind ts =>
    obtain ⟨us, hus⟩ := exists_stamped_node record spot kind ts
    rw [hus, hf kind us ts]

/-- What is passed over in lists stays so. -/
@[simp]
theorem isFiller_stamped (t : Script.Tree) : (stamped record spot t).isFiller = t.isFiller :=
  apply_stamped _ (fun _ _ _ => rfl) t

/-- Blanks and comments stay so. -/
@[simp]
theorem isTrivia_stamped (t : Script.Tree) : (stamped record spot t).isTrivia = t.isTrivia :=
  apply_stamped _ (fun _ _ _ => rfl) t

/-- Leaves of a kind stay so. -/
@[simp]
theorem isLeaf_stamped (l : Leaf) (t : Script.Tree) :
    (stamped record spot t).isLeaf l = t.isLeaf l :=
  apply_stamped _ (fun _ _ _ => rfl) t

/-- A sign stays one. -/
@[simp]
theorem isMark_stamped (sign : String) (t : Script.Tree) :
    (stamped record spot t).isMark sign = t.isMark sign :=
  apply_stamped _ (fun _ _ _ => rfl) t

/-- Nodes of a kind stay so. -/
@[simp]
theorem hasKind_stamped (kind : Kind) (t : Script.Tree) :
    (stamped record spot t).hasKind kind = t.hasKind kind :=
  apply_stamped _ (fun _ _ _ => rfl) t

/-- A key stays as it is. -/
@[simp]
theorem key?_stamped (t : Script.Tree) : key? (stamped record spot t) = key? t :=
  apply_stamped _ (fun _ _ _ => rfl) t

/-- Arguments stay arguments. -/
@[simp]
theorem isArgument_stamped (t : Script.Tree) : isArgument (stamped record spot t) = isArgument t :=
  apply_stamped _ (fun _ _ _ => rfl) t

/-- The key of a pair stays. -/
theorem pairKey?_stampedAll (ts : List Script.Tree) :
    pairKey? (stampedAll record spot ts) = pairKey? ts := by
  induction ts generalizing spot with
  | nil => rfl
  | cons t ts ih =>
    cases ts with
    | nil => rfl
    | cons u ts =>
      have hrest := @ih (spot.after t.text)
      rw [stampedAll] at hrest ⊢
      rw [stampedAll, pairKey?, pairKey?, isTrivia_stamped, key?_stamped, hrest]

/-- A slot of a key stays one. -/
@[simp]
theorem isAt_stamped (key : String) (t : Script.Tree) :
    isAt key (stamped record spot t) = isAt key t := by
  cases t with
  | leaf kind s => rw [stamped_leaf]
  | node kind ts =>
    by_cases hkind : kind = .pair
    · subst hkind
      rw [stamped_node (by decide), isAt, isAt, pairKey?_stampedAll]
    · obtain ⟨us, hus⟩ := exists_stamped_node record spot kind ts
      rw [hus]
      cases kind <;> first | exact absurd rfl hkind | rfl

/-! ## Lists -/

/-- Joined lists are stamped one after the other. -/
theorem stampedAll_append (ts us : List Script.Tree) : stampedAll record spot (ts ++ us) =
    stampedAll record spot ts ++ stampedAll record (spot.after (textOf ts)) us := by
  induction ts generalizing spot with
  | nil => rfl
  | cons t ts ih => rw [List.cons_append, stampedAll, stampedAll, ih, textOf, Spot.after_append,
      List.cons_append]

/-- Each stamped tree of a list is one of a tree of the list. -/
theorem exists_of_mem_stampedAll {ts : List Script.Tree} {u : Script.Tree}
    (h : u ∈ stampedAll record spot ts) : ∃ t ∈ ts, ∃ spot', u = stamped record spot' t := by
  induction ts generalizing spot with
  | nil => exact absurd h List.not_mem_nil
  | cons t ts ih =>
    rcases List.mem_cons.mp h with rfl | h
    · exact ⟨t, List.mem_cons_self, spot, rfl⟩
    · obtain ⟨t', ht', hu⟩ := ih h
      exact ⟨t', List.mem_cons_of_mem t ht', hu⟩

section Split

variable {p : Script.Tree → Bool} {ts before after : List Script.Tree} {t : Script.Tree}

/-- No tree of a list gains a property by stamping that stamping keeps. -/
theorem forall_stampedAll (hp : ∀ spot t, p (stamped record spot t) = p t)
    (h : ∀ u ∈ ts, p u = false) : ∀ u ∈ stampedAll record spot ts, p u = false := by
  intro u hu
  obtain ⟨t, ht, spot', rfl⟩ := exists_of_mem_stampedAll hu
  rw [hp, h t ht]

/-- The first tree with a property is at the same place in the stamped list. -/
theorem splitFirst?_stampedAll (spot : Spot) (hp : ∀ spot t, p (stamped record spot t) = p t)
    (h : splitFirst? p ts = some (before, t, after)) :
    splitFirst? p (stampedAll record spot ts) =
      some (stampedAll record spot before, stamped record (spot.after (textOf before)) t,
        stampedAll record ((spot.after (textOf before)).after t.text) after) := by
  obtain ⟨rfl, ht, hbefore⟩ := splitFirst?_eq_some.mp h
  exact splitFirst?_eq_some.mpr
    ⟨by rw [stampedAll_append, stampedAll], by rw [hp, ht], forall_stampedAll hp hbefore⟩

/-- The last tree with a property is at the same place in the stamped list. -/
theorem splitLast?_stampedAll (spot : Spot) (hp : ∀ spot t, p (stamped record spot t) = p t)
    (h : splitLast? p ts = some (before, t, after)) :
    splitLast? p (stampedAll record spot ts) =
      some (stampedAll record spot before, stamped record (spot.after (textOf before)) t,
        stampedAll record ((spot.after (textOf before)).after t.text) after) := by
  obtain ⟨rfl, ht, hafter⟩ := splitLast?_eq_some.mp h
  exact splitLast?_eq_some.mpr
    ⟨by rw [stampedAll_append, stampedAll], by rw [hp, ht], forall_stampedAll hp hafter⟩

/-- If no tree has a property, no stamped one has it. -/
theorem splitFirst?_stampedAll_none (spot : Spot) (hp : ∀ spot t, p (stamped record spot t) = p t)
    (h : splitFirst? p ts = none) : splitFirst? p (stampedAll record spot ts) = none :=
  splitFirst?_eq_none.mpr (forall_stampedAll hp (splitFirst?_eq_none.mp h))

/-- If no tree has a property, no last one of the stamped trees has it. -/
theorem splitLast?_stampedAll_none (spot : Spot) (hp : ∀ spot t, p (stamped record spot t) = p t)
    (h : splitLast? p ts = none) : splitLast? p (stampedAll record spot ts) = none :=
  splitLast?_eq_none.mpr (forall_stampedAll hp (splitLast?_eq_none.mp h))

end Split

/-- What a seat is. -/
theorem seat?_eq_some {ts before after : List Script.Tree} {last : Script.Tree} :
    seat? ts = some (before, last, after) ↔ ∃ members closing gap behind,
      splitLast? (!·.isFiller) ts = some (members, closing, behind) ∧
      closing.isMark "\x7d" = true ∧ splitLast? (!·.isFiller) members = some (before, last, gap) ∧
      after = gap ++ closing :: behind := by
  unfold seat?
  constructor
  · intro h
    obtain ⟨⟨members, closing, behind⟩, hclosing, h⟩ := Option.bind_eq_some_iff.mp h
    dsimp only at h
    split at h
    · next hmark =>
      obtain ⟨⟨before', last', gap⟩, hlast, h⟩ := Option.bind_eq_some_iff.mp h
      cases h
      exact ⟨members, closing, gap, behind, hclosing, hmark, hlast, rfl⟩
    · contradiction
  · rintro ⟨members, closing, gap, behind, hclosing, hmark, hlast, rfl⟩
    simp [hclosing, hmark, hlast]

/-- The seat of a literal stays at its place. -/
theorem seat?_stampedAll (record : UInt32 → Script.Tree) (spot : Spot)
    {ts before after : List Script.Tree} {last : Script.Tree}
    (h : seat? ts = some (before, last, after)) : seat? (stampedAll record spot ts) =
      some (stampedAll record spot before, stamped record (spot.after (textOf before)) last,
        stampedAll record ((spot.after (textOf before)).after last.text) after) := by
  obtain ⟨members, closing, gap, behind, hclosing, hmark, hlast, rfl⟩ := seat?_eq_some.mp h
  have hfiller (spot : Spot) (t : Script.Tree) :
      (!(stamped record spot t).isFiller) = !t.isFiller := by
    rw [isFiller_stamped]
  obtain ⟨rfl, -, -⟩ := splitLast?_eq_some.mp hlast
  refine seat?_eq_some.mpr ⟨_, _, _, _, splitLast?_stampedAll _ hfiller hclosing,
    by rw [isMark_stamped, hmark], splitLast?_stampedAll _ hfiller hlast, ?_⟩
  rw [stampedAll_append, stampedAll, textOf_append, textOf, Spot.after_append, Spot.after_append]

/-- Lists that look alike to the search for a seat have it at the same place. -/
theorem seat?_rel {R : Script.Tree → Script.Tree → Prop} {ts us : List Script.Tree}
    (hR : ∀ t u, R t u → t.isFiller = u.isFiller ∧ t.isMark "\x7d" = u.isMark "\x7d")
    (h : List.Forall₂ R ts us) : Option.Rel (Parted R) (seat? ts) (seat? us) := by
  have hfiller (t u : Script.Tree) (htu : R t u) : (!t.isFiller) = !u.isFiller := by
    rw [(hR t u htu).1]
  -- The bracket is sought first, and then the last member before it.
  have hclosing := splitLast?_rel hfiller h
  unfold seat?
  generalize splitLast? (!·.isFiller) ts = x, splitLast? (!·.isFiller) us = y at hclosing
  cases hclosing with
  | none => exact .none
  | @some x y hxy =>
    obtain ⟨members, closing, behind⟩ := x
    obtain ⟨members', closing', behind'⟩ := y
    obtain ⟨hmembers, hmark, hbehind⟩ := hxy
    have hlast := splitLast?_rel hfiller hmembers
    simp only [Option.bind_eq_bind, Option.bind_some, (hR _ _ hmark).2]
    generalize splitLast? (!·.isFiller) members = x,
      splitLast? (!·.isFiller) members' = y at hlast
    split
    · cases hlast with
      | none => exact .none
      | some hxy => exact .some ⟨hxy.1, hxy.2.1, List.rel_append hxy.2.2 (.cons hmark hbehind)⟩
    · exact .none

/-- Each tree of a list is stamped. -/
theorem forall₂_stampedAll (record : UInt32 → Script.Tree) (spot : Spot) (ts : List Script.Tree) :
    List.Forall₂ (fun t u => ∃ spot, u = stamped record spot t) ts (stampedAll record spot ts) := by
  induction ts generalizing spot with
  | nil => exact .nil
  | cons t ts ih => exact .cons ⟨spot, rfl⟩ (ih _)

/-- A list without a seat gains none. -/
theorem seat?_stampedAll_none {ts : List Script.Tree} (h : seat? ts = none) :
    seat? (stampedAll record spot ts) = none := by
  have hrel := seat?_rel (fun t u htu => by
    obtain ⟨spot, rfl⟩ := htu
    exact ⟨(isFiller_stamped t).symm, (isMark_stamped _ t).symm⟩)
    (forall₂_stampedAll record spot ts)
  rw [h] at hrel
  generalize seat? (stampedAll record spot ts) = y at hrel
  cases hrel
  rfl

/-- A pair is parted at the same place when it is stamped. -/
theorem pairParts?_stamped (t : Script.Tree) : pairParts? (stamped record spot t) =
    (pairParts? t).map fun (front, value) =>
      (stampedAll record spot front, stamped record (spot.after (textOf front)) value) := by
  cases t with
  | leaf kind s => rw [stamped_leaf]; rfl
  | node kind ts =>
    by_cases hkind : kind = .pair
    · subst hkind
      rw [stamped_node (by decide)]
      rcases List.eq_nil_or_concat ts with rfl | ⟨front, value, rfl⟩
      · rfl
      · rw [List.concat_eq_append, stampedAll_append, pairParts?_eq_some.mpr rfl]
        exact pairParts?_eq_some.mpr rfl
    · have hnone (us : List Script.Tree) : pairParts? (.node kind us) = none := by
        cases kind <;> first | exact absurd rfl hkind | rfl
      obtain ⟨us, hus⟩ := exists_stamped_node record spot kind ts
      rw [hus, hnone, hnone]
      rfl

/-! ## Calls of remote procedures -/

/-- The parts of a node are stamped one by one. -/
theorem forall₂_parts (record : UInt32 → Script.Tree) (spot : Spot) (kind kind' : Kind)
    (ts : List Script.Tree) :
    List.Forall₂ (fun t u => ∃ spot, u = stamped record spot t) (Script.Tree.node kind ts).parts
      (Script.Tree.node kind' (stampedAll record spot ts)).parts := by
  refine List.rel_filter (fun t u htu => ?_) (forall₂_stampedAll record spot ts)
  obtain ⟨spot, rfl⟩ := htu
  simp only [isTrivia_stamped]

/-- What the markers on a value are taken off is of the kind that it was. -/
theorem hasKind_withoutMarkers_stamped (kind : Kind) (t : Script.Tree) :
    (withoutMarkers (stamped record spot t)).hasKind kind = (withoutMarkers t).hasKind kind := by
  match t with
  | .leaf k s => rw [stamped_leaf]
  | .node k ts =>
    by_cases hk : k = .nonNull
    · subst hk
      rw [stamped_node (by decide)]
      cases ts with
      | nil => rfl
      | cons t ts =>
        rw [stampedAll, withoutMarkers, withoutMarkers]
        exact hasKind_withoutMarkers_stamped kind t
    · obtain ⟨us, hus⟩ := exists_stamped_node record spot k ts
      -- Only a marker is taken off.
      have hsame (us : List Script.Tree) : withoutMarkers (.node k us) = .node k us := by
        rw [withoutMarkers]
        rintro t ts heq
        cases heq
        exact hk rfl
      rw [hus, hsame, hsame]
      rfl

/-- The method that a member has by its parts, and whether it is one of a member or an element. -/
def methodOf? : List Script.Tree → Option (String × Bool)
  | [receiver, _, .leaf .property method] =>
    some (.ofList method, (withoutMarkers receiver).hasKind .member ||
      (withoutMarkers receiver).hasKind .element)
  | _ => none

/-- The method of a call is that of the member that it calls. -/
theorem method?_eq (call : Script.Tree) : method? call = call.parts.head?.bind fun callee =>
    if callee.hasKind .member then methodOf? callee.parts else none := by
  unfold method? callee? methodOf?
  cases call.parts.head? with
  | none => rfl
  | some callee =>
    simp only [Option.bind_eq_bind, Option.bind_some]
    cases callee.hasKind .member <;> rfl

/-- The method of a member stays when its parts are stamped. -/
theorem methodOf?_stamped {ts us : List Script.Tree}
    (h : List.Forall₂ (fun t u => ∃ spot, u = stamped record spot t) ts us) :
    methodOf? us = methodOf? ts := by
  -- Only three parts make a method, and the last of them is a leaf, which stays as it is.
  cases h with
  | nil => rfl
  | cons hreceiver h =>
  cases h with
  | nil => rfl
  | cons hdot h =>
  cases h with
  | nil => rfl
  | @cons name name' ts us hname h =>
  obtain ⟨_, rfl⟩ := hreceiver
  obtain ⟨_, rfl⟩ := hname
  cases name with
  | leaf kind s =>
    rw [stamped_leaf]
    cases h with
    | nil => cases kind <;> simp only [methodOf?, hasKind_withoutMarkers_stamped]
    | cons => cases kind <;> rfl
  | node kind ts =>
    obtain ⟨us, hus⟩ := exists_stamped_node record _ kind ts
    rw [hus]
    cases h <;> rfl

/-- A call of a remote procedure stays one when what is inside of it is stamped. -/
theorem isRemoteCall_stampedAll (record : UInt32 → Script.Tree) (spot : Spot) (kind kind' : Kind)
    (ts : List Script.Tree) :
    isRemoteCall (.node kind (stampedAll record spot ts)) = isRemoteCall (.node kind' ts) := by
  have hparts := forall₂_parts record spot kind' kind ts
  rw [isRemoteCall, isRemoteCall, method?_eq, method?_eq]
  generalize (Script.Tree.node kind' ts).parts = ps,
    (Script.Tree.node kind (stampedAll record spot ts)).parts = qs at hparts
  cases hparts with
  | nil => rfl
  | @cons t u ts us htu _ =>
    obtain ⟨spot', rfl⟩ := htu
    simp only [List.head?_cons, Option.bind_some, hasKind_stamped]
    by_cases hmember : t.hasKind .member = true
    · cases t with
      | leaf k s => contradiction
      | node k ms =>
        obtain rfl : k = .member := (of_decide_eq_true hmember).symm
        rw [stamped_node (by decide),
          methodOf?_stamped (forall₂_parts record spot' .member .member ms)]
    · rw [if_neg hmember, if_neg hmember]

end Crossing.Stamp
