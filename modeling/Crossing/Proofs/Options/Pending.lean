import Crossing.Proofs.Options.Growth
import Mathlib.Data.List.Nodup

/-!
# What a run leaves to be written

After a run of `ensure` on a tree from a source, `pending` says what has to be written into the
source. It accounts for all that was added (`pending_accounts`): the literals of the source that
gained slots are listed in their order, each once, with the texts of the slots that they gained, and
every slot that was added is one of these or stands inside of exactly one of them. No slot is left
out of a text, since those that were made here all have one (`wholeTexts?_of_made`).

A literal is known by its place. Places of the source stay where they are when the tree grows, and
what stands at a place of the source beyond the slots of the source was gained.
-/

namespace Crossing.Options

open Text

variable {α : Type}

/-! ## Texts in which nothing is left out -/

mutual

/-- The text of a value with all that is in it; `none` if a slot in it has no text. -/
def Value.wholeText? : Value α → Option String
  | .object _ slots => (wholeTexts? slots).map braces
  | .expr text => some text
  | .other => none

/-- The texts of slots, each with all that is in it; `none` if one of them has no text. -/
def wholeTexts? : List (Slot (Value α)) → Option (List String)
  | [] => some []
  | ⟨key, value, _⟩ :: rest => do
    let key ← key
    let text ← value.wholeText?
    let texts ← wholeTexts? rest
    return (Quoted.key key ++ ": " ++ text) :: texts

end

mutual

/-- The text of a value made here has all in it that the value has. -/
theorem wholeText?_of_made {value : Value α} (h : value.Made) :
    ∃ text, value.wholeText? = some text ∧ value.render? = some text := by
  cases value with
  | object anchor slots =>
    refine ⟨braces (renderSlots slots), ?_, rfl⟩
    rw [Value.wholeText?, wholeTexts?_of_made h.2]
    rfl
  | expr text => exact ⟨text, rfl, rfl⟩
  | other => exact absurd h id

/-- The texts of slots made here have all in them that the slots have. -/
theorem wholeTexts?_of_made {slots : List (Slot (Value α))} (h : SlotsMade slots) :
    wholeTexts? slots = some (renderSlots slots) := by
  cases slots with
  | nil => rfl
  | cons slot rest =>
    obtain ⟨key, value, inserted⟩ := slot
    obtain ⟨⟨hkey, -, hvalue⟩, hrest⟩ := h
    obtain ⟨key, rfl⟩ := Option.isSome_iff_exists.mp hkey
    obtain ⟨text, hwhole, hrender⟩ := wholeText?_of_made hvalue
    simp [wholeTexts?, renderSlots, hwhole, hrender, wholeTexts?_of_made hrest]

end

/-- Slots made here have a text if there are any. -/
theorem isEmpty_renderSlots {slots : Slots α} (h : SlotsMade slots) :
    (renderSlots slots).isEmpty = slots.isEmpty := by
  cases slots with
  | nil => rfl
  | cons slot rest =>
    obtain ⟨key, value, inserted⟩ := slot
    obtain ⟨⟨hkey, -, hvalue⟩, -⟩ := h
    obtain ⟨key, rfl⟩ := Option.isSome_iff_exists.mp hkey
    obtain ⟨text, -, hrender⟩ := wholeText?_of_made hvalue
    simp [renderSlots, hrender]

/-! ## Places -/

mutual

/-- The places of the literals of a value, in the order in which they start. -/
def Value.places : Value α → List (List Nat)
  | .object _ slots => [] :: slotPlaces 0 slots
  | .expr _ => []
  | .other => []

/-- The places of the literals of slots that are numbered from `n` on. -/
def slotPlaces (n : Nat) : List (Slot (Value α)) → List (List Nat)
  | [] => []
  | ⟨_, value, _⟩ :: rest => value.places.map (n :: ·) ++ slotPlaces (n + 1) rest

end

/-- The slots of the literal at a place. -/
def Value.slotsAt (place : List Nat) (value : Value α) : Slots α :=
  match value.inside? place with
  | some (.object _ slots) => slots
  | _ => []

/-- The anchor of the literal at a place. -/
def Value.anchorAt? (place : List Nat) (value : Value α) : Option α :=
  match value.inside? place with
  | some (.object anchor _) => anchor
  | _ => none

/-- The slots that a literal has gained when a tree has become another one. -/
def gained (old new : Value α) (place : List Nat) : Slots α :=
  (new.slotsAt place).drop (old.slotsAt place).length

/-- The way to a place inside of a slot goes through the slot. -/
theorem inside?_slot (anchor : Option α) (front : Slots α) (slot : Slot (Value α)) (rest : Slots α)
    (place : List Nat) :
    (Value.object anchor (front ++ slot :: rest)).inside? (front.length :: place) =
      slot.value.inside? place := by
  rw [Value.inside?, List.getElem?_append_right (Nat.le_refl _), Nat.sub_self]
  rfl

/-- A place is found by the first part of the way and then the rest of it. -/
theorem inside?_append (place place' : List Nat) (value : Value α) :
    value.inside? (place ++ place') = (value.inside? place).bind (Value.inside? place') := by
  induction place generalizing value with
  | nil => rfl
  | cons n place ih =>
    cases value with
    | object anchor slots =>
      rw [List.cons_append, Value.inside?, Value.inside?]
      cases slots[n]? with
      | none => rfl
      | some slot => exact ih slot.value
    | expr text => rfl
    | other => rfl

mutual

/-- At the place of a literal there is one. -/
theorem exists_of_mem_places {value : Value α} {place : List Nat} (h : place ∈ value.places) :
    ∃ anchor slots, value.inside? place = some (.object anchor slots) := by
  cases value with
  | object anchor slots =>
    rw [Value.places, List.mem_cons] at h
    rcases h with rfl | h
    · exact ⟨anchor, slots, rfl⟩
    · exact exists_of_mem_slotPlaces anchor [] h
  | expr text => exact absurd h List.not_mem_nil
  | other => exact absurd h List.not_mem_nil

/-- At the place of a literal in one of several slots there is one. -/
theorem exists_of_mem_slotPlaces (anchor : Option α) (front : List (Slot (Value α)))
    {slots : List (Slot (Value α))} {place : List Nat} (h : place ∈ slotPlaces front.length slots) :
    ∃ inner inside,
      (Value.object anchor (front ++ slots)).inside? place = some (.object inner inside) := by
  cases slots with
  | nil => exact absurd h List.not_mem_nil
  | cons slot rest =>
    rw [slotPlaces, List.mem_append, List.mem_map] at h
    rcases h with ⟨place, h, rfl⟩ | h
    · rw [inside?_slot]
      exact exists_of_mem_places h
    · have hlength : front.length + 1 = (front ++ [slot]).length := by simp
      rw [hlength] at h
      have := exists_of_mem_slotPlaces anchor _ h
      rwa [List.append_assoc] at this

end

/-! ## What is listed -/

/-- What is listed for a literal that has gained slots: its anchor and the whole texts of these. -/
def report (old new : Value α) (place : List Nat) : Option (Option α × Option (List String)) :=
  if (gained old new place).isEmpty then none
  else some (old.anchorAt? place, wholeTexts? (gained old new place))

/-- What is listed for a literal inside of a slot. -/
theorem report_slot {anchor anchor' : Option α} {front front' : Slots α}
    (h : front.length = front'.length) (slot slot' : Slot (Value α)) (rest rest' : Slots α)
    (place : List Nat) :
    report (.object anchor (front ++ slot :: rest)) (.object anchor' (front' ++ slot' :: rest'))
        (front.length :: place) = report slot.value slot'.value place := by
  have hold := inside?_slot anchor front slot rest place
  have hnew := inside?_slot anchor' front' slot' rest' place
  rw [← h] at hnew
  unfold report gained Value.slotsAt Value.anchorAt?
  rw [hold, hnew]

/-- The slots of a source have no mark, and keep it so when they grow. -/
theorem SlotsGrow.filter_inserted {slots slots' : Slots α} (h : SlotsGrow slots slots')
    (horiginal : SlotsOriginal slots) :
    slots'.filter (·.inserted) = slots'.drop slots.length ∧
      SlotsMade (slots'.drop slots.length) := by
  induction slots generalizing slots' with
  | nil =>
    cases h with
    | gained hmade => exact ⟨List.filter_eq_self.mpr hmade.inserted, hmade⟩
  | cons slot rest ih =>
    obtain ⟨key, value, inserted⟩ := slot
    obtain ⟨rfl, -, hrest⟩ := horiginal
    cases h with
    | slot hvalue hgrow => simpa using ih hgrow hrest

/-- Slots made here hold nothing that is listed on its own. -/
theorem pendingSlots_of_made {slots : Slots α} (h : SlotsMade slots) : pendingSlots slots = [] := by
  induction slots with
  | nil => rfl
  | cons slot rest ih =>
    obtain ⟨key, value, inserted⟩ := slot
    obtain ⟨⟨-, rfl, -⟩, hrest⟩ := h
    rw [pendingSlots, ih hrest]
    rfl

mutual

/-- What is listed for a value of a source that has grown. -/
theorem pending_of_grows {old new : Value α} (h : old.Grows new) (horiginal : old.Original) :
    new.pending.map (fun p => (some p.1, some p.2)) = old.places.filterMap (report old new) := by
  cases h with
  | @object anchor slots slots' hslots =>
    obtain ⟨hanchor, hslotsOriginal⟩ := horiginal
    obtain ⟨anchor, rfl⟩ := Option.isSome_iff_exists.mp hanchor
    obtain ⟨hfilter, hmade⟩ := hslots.filter_inserted hslotsOriginal
    have hinner := pendingSlots_of_grow (some anchor) [] [] hslots
      hslotsOriginal rfl
    have hgained : gained (.object (some anchor) slots) (.object (some anchor) slots') [] =
        slots'.drop slots.length := rfl
    rw [Value.pending, hfilter, Value.places, List.map_append, hinner, List.filterMap_cons, report,
      hgained, isEmpty_renderSlots hmade, wholeTexts?_of_made hmade]
    cases (slots'.drop slots.length).isEmpty <;> rfl
  | expr text => rfl
  | other => rfl

/-- What is listed for slots of a source that have grown. -/
theorem pendingSlots_of_grow (anchor : Option α) (front front' : List (Slot (Value α)))
    {slots slots' : List (Slot (Value α))} (h : SlotsGrow slots slots') (horiginal : SlotsOriginal slots)
    (hfront : front.length = front'.length) :
    (pendingSlots slots').map (fun p => (some p.1, some p.2)) =
      (slotPlaces front.length slots).filterMap
        (report (.object anchor (front ++ slots)) (.object anchor (front' ++ slots'))) := by
  cases h with
  | gained hmade =>
    rw [pendingSlots_of_made hmade]
    rfl
  | @slot key value value' inserted rest rest' hvalue hrest =>
    obtain ⟨rfl, hvalueOriginal, hrestOriginal⟩ := horiginal
    have hlater := pendingSlots_of_grow anchor (front ++ [⟨key, value, false⟩])
      (front' ++ [⟨key, value', false⟩]) hrest hrestOriginal (by simp [hfront])
    simp only [List.append_assoc, List.singleton_append, List.length_append,
      List.length_singleton] at hlater
    rw [pendingSlots, if_neg Bool.false_ne_true, List.map_append, slotPlaces,
      List.filterMap_append, hlater, pending_of_grows hvalue hvalueOriginal, List.filterMap_map]
    congr 1
    refine List.filterMap_congr fun place _ => ?_
    exact (report_slot hfront ⟨key, value, false⟩ ⟨key, value', false⟩ rest rest' place).symm

end

/-! ## Each addition once -/

/-- The slot with a number in the literal at a place. -/
def Value.slot? (place : List Nat) (n : Nat) (value : Value α) : Option (Slot (Value α)) :=
  (value.slotsAt place)[n]?

/-- Whether a slot is one that the literal at a place has gained, or stands inside of one. -/
def Covers (old : Value α) (literal : List Nat) (place : List Nat) (n : Nat) : Prop :=
  literal ∈ old.places ∧
    ∃ m rest, place ++ [n] = literal ++ m :: rest ∧ (old.slotsAt literal).length ≤ m

/-- The place of a literal in a slot. -/
theorem mem_slotPlaces {slots : Slots α} {i : Nat} {slot : Slot (Value α)}
    (hslot : slots[i]? = some slot) {place : List Nat} (h : place ∈ slot.value.places) (n : Nat) :
    (n + i) :: place ∈ slotPlaces n slots := by
  induction slots generalizing n i with
  | nil => contradiction
  | cons first rest ih =>
    rw [slotPlaces, List.mem_append]
    cases i with
    | zero =>
      cases hslot
      exact .inl (List.mem_map.mpr ⟨place, h, rfl⟩)
    | succ i =>
      have hrest := ih hslot (n + 1)
      rw [Nat.add_assoc, Nat.add_comm 1 i] at hrest
      exact .inr hrest

/-- The slots at a place in a slot. -/
theorem slotsAt_cons {anchor : Option α} {slots : Slots α} {i : Nat} {slot : Slot (Value α)}
    (h : slots[i]? = some slot) (place : List Nat) :
    (Value.object anchor slots).slotsAt (i :: place) = slot.value.slotsAt place := by
  rw [Value.slotsAt, Value.inside?, h]
  rfl

/-- A slot without a mark is a slot of a source that stayed. -/
theorem lt_length_of_not_inserted {slots slots' : Slots α} (h : SlotsGrow slots slots')
    (horiginal : SlotsOriginal slots) {i : Nat} (hi : i < slots.length) :
    ∃ slot slot', slots[i]? = some slot ∧ slots'[i]? = some slot' ∧ slot'.inserted = false ∧
      slot.value.Grows slot'.value ∧ slot.value.Original := by
  induction slots generalizing slots' i with
  | nil => contradiction
  | cons first rest ih =>
    obtain ⟨key, value, inserted⟩ := first
    obtain ⟨rfl, hvalueOriginal, hrestOriginal⟩ := horiginal
    cases h with
    | slot hvalue hrest =>
      cases i with
      | zero => exact ⟨_, _, rfl, rfl, rfl, hvalue, hvalueOriginal⟩
      | succ i => exact ih hrest hrestOriginal (Nat.lt_of_succ_lt_succ hi)

/-- A slot that was added is one that a literal of the source has gained, or stands inside of one. -/
theorem exists_covers {old new : Value α} (h : old.Grows new) (horiginal : old.Original)
    {place : List Nat} {n : Nat} {slot : Slot (Value α)} (hslot : new.slot? place n = some slot)
    (hinserted : slot.inserted = true) : ∃ literal, Covers old literal place n := by
  induction place generalizing old new with
  | nil =>
    cases h with
    | @object anchor slots slots' hslots =>
      refine ⟨[], List.mem_cons_self, n, [], rfl, ?_⟩
      by_contra hlt
      obtain ⟨_, slot', -, hslot', hmark, -, -⟩ :=
        lt_length_of_not_inserted hslots horiginal.2 (Nat.lt_of_not_le hlt)
      have hsame : some slot = some slot' := hslot.symm.trans hslot'
      cases hsame
      rw [hinserted] at hmark
      contradiction
    | expr text => contradiction
    | other => contradiction
  | cons i place ih =>
    cases h with
    | @object anchor slots slots' hslots =>
      by_cases hi : i < slots.length
      · -- The way goes on in a slot of the source.
        obtain ⟨first, first', hfirst, hfirst', -, hgrows, hfirstOriginal⟩ :=
          lt_length_of_not_inserted hslots horiginal.2 hi
        rw [Value.slot?, slotsAt_cons hfirst'] at hslot
        obtain ⟨literal, hliteral, m, rest, hplace, hm⟩ := ih hgrows hfirstOriginal hslot
        refine ⟨i :: literal, ?_, m, rest, by rw [List.cons_append, hplace]; rfl, ?_⟩
        · have := mem_slotPlaces hfirst hliteral 0
          rw [Nat.zero_add] at this
          exact List.mem_cons_of_mem _ this
        · rwa [slotsAt_cons hfirst]
      · exact ⟨[], List.mem_cons_self, i, place ++ [n], rfl, Nat.le_of_not_lt hi⟩
    | expr text => contradiction
    | other => contradiction

/-- A literal of the source does not stand inside of a slot that was gained. -/
theorem not_mem_places_below {old : Value α} {literal : List Nat} {m : Nat}
    (hm : (old.slotsAt literal).length ≤ m) (rest : List Nat) :
    literal ++ m :: rest ∉ old.places := by
  intro hmem
  obtain ⟨anchor, slots, hinside⟩ := exists_of_mem_places hmem
  rw [inside?_append, Option.bind_eq_some_iff] at hinside
  obtain ⟨value, hvalue, hinside⟩ := hinside
  cases value with
  | object anchor' slots' =>
    rw [Value.slotsAt, hvalue] at hm
    rw [Value.inside?, List.getElem?_eq_none hm] at hinside
    contradiction
  | expr text => contradiction
  | other => contradiction

/-- No two literals of the source have gained a slot that another one stands inside of. -/
theorem covers_unique {old : Value α} {literal literal' place : List Nat} {n : Nat}
    (h : Covers old literal place n) (h' : Covers old literal' place n) : literal = literal' := by
  obtain ⟨hmem, m, rest, hplace, hm⟩ := h
  obtain ⟨hmem', m', rest', hplace', hm'⟩ := h'
  rw [hplace] at hplace'
  -- Of two ways to one place, one goes on where the other ends.
  rcases List.append_eq_append_iff.mp hplace' with ⟨more, hliteral, hrest⟩ | ⟨more, hliteral, hrest⟩
  · cases more with
    | nil => rw [hliteral, List.append_nil]
    | cons k more =>
      obtain ⟨rfl, -⟩ := List.cons.inj hrest
      exact absurd (hliteral ▸ hmem') (not_mem_places_below hm more)
  · cases more with
    | nil => rw [hliteral, List.append_nil]
    | cons k more =>
      obtain ⟨rfl, -⟩ := List.cons.inj hrest
      exact absurd (hliteral ▸ hmem) (not_mem_places_below hm' more)

/-! ## In the order in which they were gained -/

/-- Slots that are alike have the same keys. -/
theorem keys_of_alike {slots slots' : Slots α} (h : List.Forall₂ Slot.Alike slots slots') :
    slots.map (·.key) = slots'.map (·.key) := by
  induction h with
  | nil => rfl
  | cons halike _ ih => rw [List.map_cons, List.map_cons, halike.1, ih]

/-- A tree that grows further keeps the slots that it has gained in front of those that it gains. -/
theorem gained_prefix {old mid new : Value α} (h : old.Grows mid) (h' : mid.Grows new)
    {place : List Nat} (hplace : place ∈ old.places) :
    (gained old mid place).map (·.key) <+: (gained old new place).map (·.key) := by
  obtain ⟨anchor, slots, hslots⟩ := exists_of_mem_places hplace
  obtain ⟨value, hmid, hgrows⟩ := h.inside? hslots
  cases hgrows with
  | @object _ _ slots₁ hfirst =>
    obtain ⟨value, hnew, hgrows⟩ := h'.inside? hmid
    cases hgrows with
    | @object _ _ slots₂ hsecond =>
      obtain ⟨kept₁, gained₁, rfl, hkept₁, -⟩ := hfirst.exists_gained
      obtain ⟨kept₂, gained₂, rfl, hkept₂, -⟩ := hsecond.exists_gained
      have hlength : slots.length ≤ kept₂.length := by
        have := hkept₁.length_eq
        have := hkept₂.length_eq
        rw [List.length_append] at this
        omega
      have hkeys : ((kept₁ ++ gained₁).drop slots.length).map (·.key) =
          (kept₂.drop slots.length).map (·.key) := by
        rw [List.map_drop, List.map_drop, keys_of_alike hkept₂]
      unfold gained Value.slotsAt
      simp only [hslots, hmid, hnew]
      rw [hkeys, List.drop_append_of_le_length hlength, List.map_append]
      exact List.prefix_append _ _

/-! ## One addition -/

/-- The literal that gains a slot is the innermost one that the keys lead to. -/
theorem exists_of_target? {text : String} {keys : List String} {value : Value α} {anchor : α}
    {slot : String} (h : target? text keys value = some (anchor, slot)) :
    ∃ front key rest slots, keys = front ++ key :: rest ∧
      value.at? front = some (.object (some anchor) slots) ∧ value.at? (front ++ [key]) = none ∧
      slot = Quoted.key key ++ ": " ++ nestedText rest text := by
  induction keys generalizing value with
  | nil => contradiction
  | cons key keys ih =>
    match value with
    | .object none _ | .expr _ | .other => contradiction
    | .object (some outer) slots =>
      rw [target?] at h
      cases hkey : lookup key slots with
      | none =>
        rw [hkey] at h
        cases h
        refine ⟨[], key, keys, slots, rfl, rfl, ?_, rfl⟩
        rw [List.nil_append, Value.at?_cons, hkey]
        rfl
      | some inner =>
        rw [hkey] at h
        obtain ⟨front, key', rest, slots', rfl, hfound, hnone, rfl⟩ := ih h
        refine ⟨key :: front, key', rest, slots', rfl, ?_, ?_, rfl⟩
        · rw [Value.at?_cons, hkey]
          exact hfound
        · rw [List.cons_append, Value.at?_cons, hkey]
          exact hnone

/-- An expression that gets into a tree of a source gives one slot to one literal of it. -/
theorem pending_of_inserted {l : Literal α} (horiginal : l.tree.Original) {path : List String}
    {leaf text : String} (h : (l.ensure path leaf text).1 = .inserted) :
    ∃ front key rest anchor slots, path ++ [leaf] = front ++ key :: rest ∧
      l.at? front = some (.object (some anchor) slots) ∧ l.at? (front ++ [key]) = none ∧
      (l.ensure path leaf text).2.pending =
        [(anchor, [Quoted.key key ++ ": " ++ nestedText rest text])] := by
  obtain ⟨anchor, slots⟩ := l
  obtain ⟨hanchor, hslots⟩ := horiginal
  obtain ⟨anchor, rfl⟩ := Option.isSome_iff_exists.mp hanchor
  have htarget := pending_ensure path leaf text hslots anchor
  split at htarget
  · next place slot heq =>
    obtain ⟨front, key, rest, slots', hkeys, hfound, hnone, rfl⟩ := exists_of_target? heq
    exact ⟨front, key, rest, place, slots', hkeys, hfound, hnone, htarget.2⟩
  · exact absurd h htarget

/-! ## All additions -/

/-- What is listed after a run accounts for all that was added. -/
structure Accounts (entries : List Entry) (l : Literal α) : Prop where
  /-- In the order of the source, the literals that gained slots are listed, with the whole texts of
  these. -/
  listed : (l.ensureAll entries).pending.map (fun p => (some p.1, some p.2)) =
    l.tree.places.filterMap (report l.tree (l.ensureAll entries).tree)
  /-- No literal is listed twice. -/
  once : ((l.ensureAll entries).pending.map (·.1)).Nodup
  /-- What a part of the run gained comes in front of what the rest of it gained. -/
  ordered : ∀ first, first <+: entries → ∀ place ∈ l.tree.places,
    (gained l.tree (l.ensureAll first).tree place).map (·.key) <+:
      (gained l.tree (l.ensureAll entries).tree place).map (·.key)
  /-- Every slot that was added is a slot that a literal of the source gained, or stands inside of
  one, and there is one such literal only. -/
  covered : ∀ place n slot, (l.ensureAll entries).tree.slot? place n = some slot →
    slot.inserted = true → ∃! literal, Covers l.tree literal place n

/-- The anchors of what is listed are some of those of the source, in their order. -/
theorem anchors_report (old new : Value α) (places : List (List Nat)) :
    List.Sublist ((places.filterMap (report old new)).map (·.1)) (places.map old.anchorAt?) := by
  induction places with
  | nil => exact .slnil
  | cons place places ih =>
    rw [List.filterMap_cons, List.map_cons, report]
    cases (gained old new place).isEmpty with
    | true => exact ih.cons _
    | false => exact ih.cons_cons _

/-- After any run on a tree of a source, what is listed accounts for all that was added; and an
expression that gets into the tree gives a single slot to a single literal, the innermost one that
the path leads to. -/
theorem pending_accounts (entries : List Entry) (l : Literal α) (horiginal : l.tree.Original)
    (hdistinct : (l.tree.places.map l.tree.anchorAt?).Nodup) :
    Accounts entries l ∧
      ∀ path leaf text, (l.ensure path leaf text).1 = .inserted →
        ∃ front key rest anchor slots, path ++ [leaf] = front ++ key :: rest ∧
          l.at? front = some (.object (some anchor) slots) ∧ l.at? (front ++ [key]) = none ∧
          (l.ensure path leaf text).2.pending =
            [(anchor, [Quoted.key key ++ ": " ++ nestedText rest text])] := by
  have hgrows := l.grows_ensureAll entries
  have hlisted : (l.ensureAll entries).pending.map (fun p => (some p.1, some p.2)) =
      l.tree.places.filterMap (report l.tree (l.ensureAll entries).tree) :=
    pending_of_grows hgrows horiginal
  refine ⟨⟨hlisted, ?_, ?_, fun place n slot hslot hinserted => ?_⟩,
    fun path leaf text => pending_of_inserted horiginal⟩
  · have hanchors := anchors_report l.tree (l.ensureAll entries).tree l.tree.places
    rw [← hlisted, List.map_map] at hanchors
    have hsome : (((l.ensureAll entries).pending.map (·.1)).map some).Nodup := by
      rw [List.map_map]
      exact hdistinct.sublist hanchors
    exact hsome.of_map some
  · rintro first ⟨second, rfl⟩ place hplace
    have hlater := (l.ensureAll first).grows_ensureAll second
    rw [← l.ensureAll_append] at hlater
    exact gained_prefix (l.grows_ensureAll first) hlater hplace
  · obtain ⟨literal, hliteral⟩ := exists_covers hgrows horiginal hslot hinserted
    exact ⟨literal, hliteral, fun other hother => covers_unique hother hliteral⟩

/-- A literal of a source with literals in it. -/
def layered : Literal Nat where
  anchor := some 0
  slots :=
    [⟨some "trpc", .object (some 1)
        [⟨some "context", .object (some 2) [⟨some "keep", .other, false⟩], false⟩], false⟩,
      ⟨none, .other, false⟩, ⟨some "query", .object (some 3) [], false⟩]

/-- Expressions for three literals; the third of them goes into a level that the first one made. -/
def spread : List Entry :=
  [⟨["query", "a"], "b", "1"⟩, ⟨["trpc", "context"], "__boundary", "X"⟩,
    ⟨["query", "a"], "c", "2"⟩, ⟨["new"], "d", "3"⟩]

/-- The outermost literal is listed first, though it was the last one to gain a slot. -/
theorem pending_accounts_layered : layered.tree.Original ∧
    (layered.tree.places.map layered.tree.anchorAt?).Nodup ∧ Accounts spread layered ∧
    (layered.ensureAll spread).pending =
      [(0, ["new: \x7b d: 3 \x7d"]), (2, ["__boundary: X"]), (3, ["a: \x7b b: 1, c: 2 \x7d"])] := by
  have horiginal : layered.tree.Original := by
    simp [layered, Literal.tree, Value.Original, SlotsOriginal]
  have hdistinct : (layered.tree.places.map layered.tree.anchorAt?).Nodup := by decide
  exact ⟨horiginal, hdistinct, (pending_accounts spread layered horiginal hdistinct).1,
    by decide +kernel⟩

end Crossing.Options
