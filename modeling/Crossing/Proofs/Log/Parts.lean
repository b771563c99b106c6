import Crossing.Proofs.Log.Resolve
import Mathlib.Data.List.Basic

/-!
# A list is logged as its parts are

A server that gets a list of paths in the path field makes out of each part what it would make out
of it alone: the log of a list is that of its parts, one after the other (`entries_join`). So what a
part says of its call, however damaged it is, stays with that call, and a part that names no
procedure drops out by itself. This holds of the field too, as long as the reader takes each part as
it is (`fieldLog_intercalate`).
-/

namespace Crossing.Log

open Text Http Wire

variable {settings : Settings} {d : Defaults}

/-- The words that name nothing give no entry. -/
theorem entryOf?_of_namesNothing {part : List Char} (h : namesNothing part = true) :
    entryOf? settings d part = none := by
  -- None of the words has a query, blanks at its ends, or anything that is coded.
  have hplain : part = [] ∨ part = noPath ∨ part = routerName := by
    by_contra hnone
    rw [not_or, not_or] at hnone
    rw [namesNothing_eq_false.mpr hnone] at h
    exact Bool.false_ne_true h
  have hcut : cut? '?' part = none := by
    rcases hplain with rfl | rfl | rfl <;> decide
  have hdecode : Percent.decode (trim part) = part := by
    rcases hplain with rfl | rfl | rfl <;> decide +kernel
  simp only [entryOf?, hcut, hdecode, h, if_true]

/-- The procedure of an entry is a name. -/
theorem namesNothing_procedure {part : List Char} {e : Entry}
    (h : entryOf? settings d part = some e) : namesNothing e.procedure.toList = false := by
  simp only [entryOf?, Option.ite_none_left_eq_some] at h
  obtain ⟨hname, hentry⟩ := h
  rw [← Option.some.inj hentry, String.toList_ofList]
  exact Bool.eq_false_iff.mpr hname

/-- The procedure of an entry is none of the words that name nothing. -/
theorem procedure_ne {part : List Char} {e : Entry} (h : entryOf? settings d part = some e) :
    e.procedure ≠ "" ∧ e.procedure ≠ "NONE" ∧ e.procedure ≠ "trpc" := by
  have hname := namesNothing_eq_false.mp (namesNothing_procedure h)
  refine ⟨?_, ?_, ?_⟩ <;> intro heq <;> rw [heq] at hname
  · exact hname.1 rfl
  · exact hname.2.1 rfl
  · exact hname.2.2 rfl

/-- A part alone gives its own entry. -/
theorem entries_of_not_mem {part : List Char} (h : ',' ∉ part) :
    entries settings d part = (entryOf? settings d part).toList := by
  rw [entries]
  split
  · next hnothing =>
    rw [entryOf?_of_namesNothing hnothing, Option.toList_none]
  · rw [List.splitOn_eq_singleton h, List.filterMap_eq_flatMap_toList, List.flatMap_singleton]

/-- A list gives the entries of its parts, one after the other. -/
theorem entries_join {parts : List (List Char)} (hne : parts ≠ [])
    (h : ∀ part ∈ parts, ',' ∉ part) :
    entries settings d (join [','] parts) = parts.flatMap (entries settings d) := by
  cases parts with
  | nil => exact absurd rfl hne
  | cons part parts =>
    cases parts with
    | nil => rw [join, List.flatMap_singleton]
    | cons other parts =>
      -- A list of several parts is none of the words that name nothing.
      have hnamed : namesNothing (join [','] (part :: other :: parts)) = false :=
        namesNothing_of_mem (mem_join ',' part other parts) (by decide)
      rw [entries, hnamed, splitOn_join hne h, List.filterMap_eq_flatMap_toList]
      exact List.flatMap_congr fun p hp => (entries_of_not_mem (h p hp)).symm

/-- A text that can be a part of the list in the path field: it is not empty, and it holds only
signs that a reader takes, visible ASCII with blanks and tabs, but no comma, and no blanks at its
ends. -/
structure ListedPart (part : List Char) : Prop where
  ne_nil : part ≠ []
  readable : part.all isReadable = true
  no_comma : ',' ∉ part
  trimmed : trim part = part

instance (part : List Char) : Decidable (ListedPart part) :=
  decidable_of_iff (part ≠ [] ∧ part.all isReadable = true ∧ ',' ∉ part ∧ trim part = part)
    ⟨fun ⟨a, b, c, e⟩ => ⟨a, b, c, e⟩, fun ⟨a, b, c, e⟩ => ⟨a, b, c, e⟩⟩

/-- The log of a request with a list in its path field and no target to look at. -/
def fieldLog (settings : Settings) (headers : Headers) (method : Option String) (list : List Char) :
    List Entry :=
  resolve settings (headers.set Field.path (.ofList list)) none method

/-- A list that the reader of the path field takes as it is is logged. -/
theorem fieldLog_eq {list : List Char} (hne : list ≠ []) (hread : list.all isReadable = true)
    (htrim : trim list = list) (headers : Headers) (method : Option String) :
    fieldLog settings headers method list =
      entries settings (defaults settings headers method) list := by
  have hvalue : (headers.set Field.path (.ofList list)).read? Field.path = some (.ofList list) := by
    refine Headers.read?_eq_some (Headers.get?_set_self _ _ _) ?_ ?_ ?_
    · rwa [String.toList_ofList]
    · rwa [String.toList_ofList]
    · simpa using hne
  have hdefaults : defaults settings (headers.set Field.path (.ofList list)) method =
      defaults settings headers method :=
    defaults_congr (fun _ hname => Headers.read?_set_of_ne hname _ headers) method
  rw [fieldLog, resolve, list?, hvalue, hdefaults, entries]
  simp only [String.toList_ofList]
  by_cases hnone : list = noPath
  · -- The word for no path sends the reader to the target, and there is none.
    rw [if_pos hnone, hnone, if_pos (by decide)]
    rfl
  · rw [if_neg hnone]

/-- A list of parts that the reader of the path field takes as they are is taken as it is. -/
theorem listed_join {parts : List (List Char)} (hne : parts ≠ [])
    (hparts : ∀ part ∈ parts, ListedPart part) :
    join [','] parts ≠ [] ∧ (join [','] parts).all isReadable = true ∧
      trim (join [','] parts) = join [','] parts := by
  refine ⟨?_, ?_, trim_join fun part hpart =>
    ⟨(hparts part hpart).ne_nil, (hparts part hpart).trimmed⟩⟩
  · obtain ⟨part, rest, rfl⟩ := List.exists_cons_of_ne_nil hne
    have hpart := (hparts part List.mem_cons_self).ne_nil
    intro hnil
    rw [← List.head?_eq_none_iff, head?_join [','] hpart, List.head?_eq_none_iff] at hnil
    exact hpart hnil
  · rw [List.all_eq_true]
    intro c hc
    by_cases hcomma : c = ','
    · rw [hcomma]
      decide
    · obtain ⟨part, hpart, hmem⟩ := (mem_join_iff hcomma).mp hc
      exact List.all_eq_true.mp (hparts part hpart).readable c hmem

/-- A part alone gives at most one entry, which is made of this part and of what the other fields
say. -/
theorem fieldLog_part {part : List Char} (h : ListedPart part) (headers : Headers)
    (method : Option String) : fieldLog settings headers method part =
      (entryOf? settings (defaults settings headers method) part).toList := by
  rw [fieldLog_eq h.ne_nil h.readable h.trimmed, entries_of_not_mem h.no_comma]

/-- The log of a list is the logs of its parts. -/
theorem fieldLog_join {parts : List (List Char)} (hne : parts ≠ [])
    (hparts : ∀ part ∈ parts, ListedPart part) (headers : Headers) (method : Option String) :
    fieldLog settings headers method (join [','] parts) =
      parts.flatMap (fieldLog settings headers method) := by
  obtain ⟨hnil, hread, htrim⟩ := listed_join hne hparts
  rw [fieldLog_eq hnil hread htrim, entries_join hne fun part hmem => (hparts part hmem).no_comma]
  refine List.flatMap_congr fun part hmem => ?_
  rw [fieldLog_part (hparts part hmem), entries_of_not_mem (hparts part hmem).no_comma]

/-- The log of a list of parts is the logs of the parts alone, one after the other. A part alone
gives at most one entry, which is made of this part and of what the other fields say, and no entry
has a procedure that is none. -/
theorem fieldLog_intercalate {parts : List (List Char)} (hne : parts ≠ [])
    (hparts : ∀ part ∈ parts, ListedPart part) (headers : Headers) (method : Option String) :
    fieldLog settings headers method ([','].intercalate parts) =
        parts.flatMap (fieldLog settings headers method) ∧
      (∀ part ∈ parts, fieldLog settings headers method part =
        (entryOf? settings (defaults settings headers method) part).toList) ∧
      ∀ entry ∈ fieldLog settings headers method ([','].intercalate parts),
        entry.procedure ≠ "" ∧ entry.procedure ≠ "NONE" ∧ entry.procedure ≠ "trpc" := by
  have hpart : ∀ part ∈ parts, fieldLog settings headers method part =
      (entryOf? settings (defaults settings headers method) part).toList :=
    fun part hmem => fieldLog_part (hparts part hmem) headers method
  have hlist : fieldLog settings headers method ([','].intercalate parts) =
      parts.flatMap (fieldLog settings headers method) := by
    rw [← join_eq_intercalate, fieldLog_join hne hparts]
  refine ⟨hlist, hpart, fun entry hmem => ?_⟩
  -- An entry of the list is the one of some part.
  rw [hlist, List.mem_flatMap] at hmem
  obtain ⟨part, hmem, hof⟩ := hmem
  rw [hpart part hmem, Option.mem_toList] at hof
  exact procedure_ne hof

/-- Parts with damaged, empty and repeated tokens, with separators of queries where none are due,
and two that name nothing, one of them coded. -/
def damaged : List (List Char) :=
  ["a?__b=%ZZ:nope:sideways".toList, "NONE".toList,
    "b c?x=?&__b&__b=.%2Fx.ts%3A7%3Aclient&__b=y".toList, "%74rpc?__b=z".toList,
    "d??&=&__b=:9:".toList, "e%zz".toList]

/-- Fields that say something about all calls, some of it damaged, and two lists of paths. -/
def shownFields : Headers :=
  ⟨[(Field.kind, "mutation"), (Field.path, "old"), (Field.path, "older"), (Field.file, "./r.ts"),
    (Field.side, "up"), (Field.line, "12")]⟩

/-- Of the damaged parts four are logged, each with what its own token gives and with what the
fields say where it gives nothing. -/
theorem fieldLog_intercalate_damaged :
    fieldLog {} shownFields (some "GET") ([','].intercalate damaged) =
        damaged.flatMap (fieldLog {} shownFields (some "GET")) ∧
      fieldLog {} shownFields (some "GET") ([','].intercalate damaged) =
        [⟨.node, .server, "mutation", "a", some "%ZZ", some 12⟩,
          ⟨.node, .client, "mutation", "b c", some "./x.ts", some 7⟩,
          ⟨.node, .server, "mutation", "d", some "./r.ts", some 9⟩,
          ⟨.node, .server, "mutation", "e%zz", some "./r.ts", some 12⟩] := by
  have hparts : ∀ part ∈ damaged, ListedPart part := by decide +kernel
  have hne : damaged ≠ [] := List.cons_ne_nil _ _
  obtain ⟨hlist, -, -⟩ := fieldLog_intercalate hne hparts shownFields (some "GET")
  exact ⟨hlist, hlist.trans (by decide +kernel)⟩

end Crossing.Log
