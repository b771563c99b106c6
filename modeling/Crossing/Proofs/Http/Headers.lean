import Crossing.Http.Header
import Crossing.Proofs.Text.Blank

/-!
# What a reader finds in header fields

A name may have several values, of which a reader finds the first (`get?_eq_head?`). Setting and
erasing a name change the values of that name and of no other. A value is read as it was set if it
can be read at all and has no blanks at its ends (`read?_eq_some`). Writing a list of fields with
distinct names has a normal form (`fields_write`), which shows that writing the same fields again
changes nothing. If names occur several times in the list, the last value of each stays
(`get?_write`).
-/

namespace Crossing.Http.Headers

open Text

/-- The values of a name, in the order in which they came. -/
def values (name : String) (h : Headers) : List String :=
  (h.fields.filter (·.1 == name)).map (·.2)

/-- What is found under a name is its first value. -/
theorem get?_eq_head? (name : String) (h : Headers) : h.get? name = (h.values name).head? := by
  rw [get?, values, List.head?_map, List.head?_filter]

/-- Without fields there is no value for a name. -/
@[simp]
theorem get?_empty (name : String) : empty.get? name = none := rfl

/-- A name that was erased has no values. -/
@[simp]
theorem values_erase_self (name : String) (h : Headers) : (h.erase name).values name = [] := by
  simp [values, erase]

/-- Erasing a name leaves the values of the others alone. -/
theorem values_erase_of_ne {name other : String} (hne : other ≠ name) (h : Headers) :
    (h.erase name).values other = h.values other := by
  unfold values erase
  rw [List.filter_filter]
  congr 2
  funext f
  by_cases hf : f.1 = other
  · simp [hf, hne]
  · simp [hf]

/-- A name that was set has one value. -/
@[simp]
theorem values_set_self (name value : String) (h : Headers) :
    (h.set name value).values name = [value] := by
  have herased := values_erase_self name h
  unfold values at herased ⊢
  simp only [set, append, List.filter_append, List.map_append, herased]
  simp

/-- Setting a name leaves the values of the others alone. -/
theorem values_set_of_ne {name other : String} (hne : other ≠ name) (value : String)
    (h : Headers) : (h.set name value).values other = h.values other := by
  rw [← values_erase_of_ne hne h]
  unfold values
  simp [set, append, Ne.symm hne]

/-- Nothing is found under a name that was erased. -/
@[simp]
theorem get?_erase_self (name : String) (h : Headers) : (h.erase name).get? name = none := by
  rw [get?_eq_head?, values_erase_self, List.head?_nil]

/-- Erasing a name leaves what is found under the others alone. -/
theorem get?_erase_of_ne {name other : String} (hne : other ≠ name) (h : Headers) :
    (h.erase name).get? other = h.get? other := by
  rw [get?_eq_head?, values_erase_of_ne hne, get?_eq_head?]

/-- Erasing a name leaves what is read under the others alone. -/
theorem read?_erase_of_ne {name other : String} (hne : other ≠ name) (h : Headers) :
    (h.erase name).read? other = h.read? other := by
  rw [read?, read?, get?_erase_of_ne hne]

/-- The value that was set is found. -/
@[simp]
theorem get?_set_self (name value : String) (h : Headers) :
    (h.set name value).get? name = some value := by
  rw [get?_eq_head?, values_set_self, List.head?_cons]

/-- Setting a name leaves what is found under the others alone. -/
theorem get?_set_of_ne {name other : String} (hne : other ≠ name) (value : String) (h : Headers) :
    (h.set name value).get? other = h.get? other := by
  rw [get?_eq_head?, values_set_of_ne hne, get?_eq_head?]

/-- Setting a name leaves what is read under the others alone. -/
theorem read?_set_of_ne {name other : String} (hne : other ≠ name) (value : String) (h : Headers) :
    (h.set name value).read? other = h.read? other := by
  rw [read?, read?, get?_set_of_ne hne]

/-- What is read is what is found, if it can be read and has no blanks at its ends. -/
theorem read?_eq_some {name value : String} {h : Headers} (hget : h.get? name = some value)
    (hread : value.toList.all isReadable = true) (htrim : trim value.toList = value.toList)
    (hne : value ≠ "") : h.read? name = some value := by
  have hleft : value.toList.isEmpty = false := by simpa using hne
  simp only [read?, hget, Option.bind_eq_bind, Option.bind_some, hread, htrim, hleft, Bool.not_false,
    Bool.and_true, if_true, String.ofList_toList]

/-- Nothing is read where nothing is found. -/
theorem read?_eq_none {name : String} {h : Headers} (hget : h.get? name = none) :
    h.read? name = none := by
  simp [read?, hget]

/-! ## Several fields -/

/-- The fields with a list of fields set one after the other. -/
def write (fields : List (String × String)) (h : Headers) : Headers :=
  fields.foldl (fun h f => h.set f.1 f.2) h

/-- Of the fields that are written under a name the last one is found. -/
theorem get?_write (name : String) (fields : List (String × String)) (h : Headers) :
    (h.write fields).get? name = ((values name ⟨fields⟩).getLast?).or (h.get? name) := by
  induction fields generalizing h with
  | nil => rfl
  | cons f fields ih =>
    have hstep : h.write (f :: fields) = (h.set f.1 f.2).write fields := rfl
    rw [hstep, ih]
    by_cases hf : f.1 = name
    · have hvalues : values name ⟨f :: fields⟩ = f.2 :: values name ⟨fields⟩ := by
        simp [values, hf]
      rw [hvalues, ← hf, get?_set_self, List.getLast?_cons]
      cases (values f.1 ⟨fields⟩).getLast? <;> rfl
    · have hvalues : values name ⟨f :: fields⟩ = values name ⟨fields⟩ := by
        simp [values, hf]
      rw [hvalues, get?_set_of_ne (Ne.symm hf)]

/-- Writing fields leaves the values of the other names alone. -/
theorem values_write_of_not_mem {name : String} {fields : List (String × String)}
    (hname : name ∉ fields.map (·.1)) (h : Headers) :
    (h.write fields).values name = h.values name := by
  induction fields generalizing h with
  | nil => rfl
  | cons f fields ih =>
    rw [List.map_cons, List.mem_cons, not_or] at hname
    have hstep : h.write (f :: fields) = (h.set f.1 f.2).write fields := rfl
    rw [hstep, ih hname.2, values_set_of_ne hname.1]

/-- Of fields with distinct names that are written each one is the only one of its name. -/
theorem values_write_of_mem {name value : String} {fields : List (String × String)}
    (hnodup : (fields.map (·.1)).Nodup) (hmem : (name, value) ∈ fields) (h : Headers) :
    (h.write fields).values name = [value] := by
  induction fields generalizing h with
  | nil => exact absurd hmem List.not_mem_nil
  | cons f fields ih =>
    rw [List.map_cons, List.nodup_cons] at hnodup
    have hstep : h.write (f :: fields) = (h.set f.1 f.2).write fields := rfl
    rw [hstep]
    rcases List.mem_cons.mp hmem with rfl | hrest
    · rw [values_write_of_not_mem hnodup.1, values_set_self]
    · exact ih hnodup.2 hrest _

/-- Writing fields leaves what is found under the other names alone. -/
theorem get?_write_of_not_mem {name : String} {fields : List (String × String)}
    (hname : name ∉ fields.map (·.1)) (h : Headers) : (h.write fields).get? name = h.get? name := by
  rw [get?_eq_head?, values_write_of_not_mem hname, get?_eq_head?]

/-- Of fields with distinct names that are written each one is found. -/
theorem get?_write_of_mem {name value : String} {fields : List (String × String)}
    (hnodup : (fields.map (·.1)).Nodup) (hmem : (name, value) ∈ fields) (h : Headers) :
    (h.write fields).get? name = some value := by
  rw [get?_eq_head?, values_write_of_mem hnodup hmem, List.head?_cons]

/-- A value that is found belongs to a field. -/
theorem mem_of_get? {name value : String} {h : Headers} (hget : h.get? name = some value) :
    (name, value) ∈ h.fields := by
  obtain ⟨f, hf, rfl⟩ := Option.map_eq_some_iff.mp hget
  have hname := List.find?_some hf
  rw [beq_iff_eq] at hname
  rw [← hname]
  exact List.mem_of_find?_eq_some hf

/-- Something is found under the name of every field. -/
theorem get?_ne_none {f : String × String} {h : Headers} (hf : f ∈ h.fields) :
    h.get? f.1 ≠ none := by
  intro hnone
  rw [get?, Option.map_eq_none_iff, List.find?_eq_none] at hnone
  exact hnone f hf (by simp)

/-- Fields with distinct names that are written stand behind what is left of the others. -/
theorem fields_write {fields : List (String × String)} (hnodup : (fields.map (·.1)).Nodup)
    (h : Headers) :
    (h.write fields).fields = h.fields.filter (·.1 ∉ fields.map (·.1)) ++ fields := by
  induction fields generalizing h with
  | nil =>
    rw [List.append_nil]
    exact (List.filter_eq_self.mpr (by simp)).symm
  | cons f fields ih =>
    rw [List.map_cons, List.nodup_cons] at hnodup
    have hstep : h.write (f :: fields) = (h.set f.1 f.2).write fields := rfl
    rw [hstep, ih hnodup.2]
    -- The new field is kept, and of the others those of another name.
    have hset : (h.set f.1 f.2).fields = h.fields.filter (·.1 != f.1) ++ [f] := rfl
    have hkeep : [f].filter (·.1 ∉ fields.map (·.1)) = [f] :=
      List.filter_eq_self.mpr (by simpa using hnodup.1)
    rw [hset, List.filter_append, hkeep, List.append_assoc, List.singleton_append,
      List.filter_filter]
    congr 2
    funext g
    simp only [List.map_cons, List.mem_cons, not_or, bne]
    by_cases hg : g.1 = f.1 <;> simp [hg]

/-- Writing fields with distinct names twice is writing them once. -/
theorem write_write {fields : List (String × String)} (hnodup : (fields.map (·.1)).Nodup)
    (h : Headers) : (h.write fields).write fields = h.write fields := by
  -- The names that the second writing takes out are those that the first one put in.
  have hrest : ((h.write fields).fields.filter (·.1 ∉ fields.map (·.1))) =
      h.fields.filter (·.1 ∉ fields.map (·.1)) := by
    have hgone : fields.filter (·.1 ∉ fields.map (·.1)) = [] :=
      List.filter_eq_nil_iff.mpr fun f hf => by simpa using ⟨f.2, hf⟩
    rw [fields_write hnodup, List.filter_append, hgone, List.append_nil, List.filter_filter]
    simp
  have hfields : ((h.write fields).write fields).fields = (h.write fields).fields := by
    rw [fields_write hnodup, hrest, fields_write hnodup]
  exact congrArg Headers.mk hfields

end Crossing.Http.Headers
