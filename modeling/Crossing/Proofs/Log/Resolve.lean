import Crossing.Log
import Crossing.Proofs.Wire.Batch

/-!
# What a server makes out of a list of paths

The list of paths is found in the path field or, where the field is gone or cannot be read, in the
target (`list?_eq`), and what it names is made out (`resolve_eq`). Each path of the list gives one
entry (`entryOf?_sent`), so a server that gets the list of a batch makes out one entry for each
operation, in order (`resolve_sent`). What the fields of the request say stands in an entry only
where the token says nothing.
-/

namespace Crossing.Log

open Text Http Boundary Wire

/-- What the fields of a request say about all of its calls does not depend on its path field. -/
theorem defaults_congr {settings : Settings} {headers headers' : Headers}
    (h : ∀ name, name ≠ Field.path → headers.read? name = headers'.read? name)
    (method : Option String) : defaults settings headers method = defaults settings headers' method := by
  rw [defaults, defaults, h Field.kind (by decide), h Field.side (by decide),
    h Field.source (by decide), h Field.file (by decide), h Field.line (by decide)]

/-- What the target of a request names below the endpoint, coded: a list of paths, or nothing. -/
theorem listOfUri?_eq {settings : Settings} {uri : Uri} {list : List Char}
    (huri : uri.path.toList =
      trimEndBy (· == '/') settings.endpoint.toList ++ '/' :: Percent.encode list) :
    listOfUri? settings uri = if list = [] then none else some list := by
  have hafter : afterFirst? (trimEndBy (· == '/') settings.endpoint.toList ++ ['/'])
      uri.path.toList = some (Percent.encode list) := by
    have h := afterFirst?_append (trimEndBy (· == '/') settings.endpoint.toList ++ ['/'])
      (Percent.encode list)
    rwa [List.append_assoc, List.singleton_append, ← huri] at h
  simp only [listOfUri?, hafter, Option.bind_eq_bind, Option.bind_some, List.isEmpty_iff,
    Percent.encode_eq_nil, Percent.decode_encode]

/-- The list of a request whose target names it, and whose path field names it too if it is there. -/
theorem list?_eq {settings : Settings} {headers : Headers} {uri : Uri} {list : List Char}
    (htrim : trim list = list)
    (hfield : headers.get? Field.path = none ∨ headers.get? Field.path = some (.ofList list))
    (huri : uri.path.toList =
      trimEndBy (· == '/') settings.endpoint.toList ++ '/' :: Percent.encode list) :
    list? settings headers (some uri) = if list = [] then none else some list := by
  -- The target always names the list, so the path field matters only where it is read.
  have hroute := listOfUri?_eq huri
  rw [list?]
  rcases hfield with hnone | hsome
  · simp [Headers.read?_eq_none hnone, hroute]
  · by_cases hread : list.all isReadable ∧ list ≠ []
    · have hvalue : headers.read? Field.path = some (.ofList list) := by
        refine Headers.read?_eq_some hsome ?_ ?_ ?_
        · rw [String.toList_ofList]
          exact hread.1
        · rw [String.toList_ofList, htrim]
        · simpa using hread.2
      -- The word for no path sends the reader to the target, which names that word.
      simp only [hvalue, String.toList_ofList, Option.bind_eq_bind, Option.bind_some, hroute,
        if_neg hread.2, ite_self]
    · -- A value that cannot be read, or that is empty, is passed over.
      have hvalue : headers.read? Field.path = none := by
        rw [not_and_or, not_not] at hread
        rcases hread with hread | rfl
        · simp only [Headers.read?, hsome, Option.bind_eq_bind, Option.bind_some,
            String.toList_ofList, hread, Bool.false_and, Bool.false_eq_true, if_false]
        · simp only [Headers.read?, hsome, Option.bind_eq_bind, Option.bind_some,
            String.toList_ofList, htrim, List.isEmpty_nil, Bool.not_true, Bool.and_false,
            Bool.false_eq_true, if_false]
      simp [hvalue, hroute]

/-- The entries of a list of paths. -/
def entries (settings : Settings) (d : Defaults) (list : List Char) : List Entry :=
  if namesNothing list then [] else (list.splitOn ',').filterMap (entryOf? settings d)

/-- A server makes out the entries of the list that the target names, as long as the path field
names it too or is gone. -/
theorem resolve_eq {settings : Settings} {headers : Headers} {uri : Uri} {list : List Char}
    (htrim : trim list = list)
    (hfield : headers.get? Field.path = none ∨ headers.get? Field.path = some (.ofList list))
    (huri : uri.path.toList =
      trimEndBy (· == '/') settings.endpoint.toList ++ '/' :: Percent.encode list)
    (method : Option String) : resolve settings headers (some uri) method =
      entries settings (defaults settings headers method) list := by
  rw [resolve, list?_eq htrim hfield huri, entries]
  by_cases hnil : list = []
  · simp [hnil, namesNothing]
  · rw [if_neg hnil]

/-- The token is found in its query. -/
theorem token?_eq (r : Record) : token? (tokenKey ++ '=' :: r.token.toList) =
    some r.token.toList := by
  -- The coded text of a token holds none of the signs that part a query.
  have hamp : '&' ∉ tokenKey ++ '=' :: r.token.toList := by
    rw [List.mem_append, List.mem_cons, not_or, not_or, Record.toList_token]
    exact ⟨by decide, by decide, Percent.not_mem_encode (by decide) (by decide) _⟩
  have hkey : '=' ∉ tokenKey := by decide
  simp [token?, List.splitOn_eq_singleton hamp, cut?_append hkey]

/-- What the token of an invocation says, if it has one. -/
def given (i : Invocation) : Partial :=
  match i.boundary with
  | some r => Partial.ofToken r.token
  | none => ⟨none, none, none⟩

/-- The entry of an invocation where the fields of the request say no more than `d`. -/
def entry (settings : Settings) (d : Defaults) (i : Invocation) : Entry where
  runtime := settings.runtime
  side := (given i).side.getD d.side
  kind := d.kind
  procedure := i.path
  file := (given i).file.or d.file
  line := (given i).line.or d.line

/-- The path of an operation gives the entry of its invocation. -/
theorem entryOf?_sent (settings : Settings) (d : Defaults) (s : Session) {i : Invocation}
    (h : PlainPath i.path) :
    entryOf? settings d (i.sent s).path.toList = some (entry settings d i) := by
  have hname : namesNothing i.path.toList = false := h.namesNothing
  have hdecode : Percent.decode (trim i.path.toList) = i.path.toList := by
    rw [h.trimmed, Percent.decode_of_not_mem h.no_percent]
  rw [Invocation.path_sent s h.no_question]
  cases hb : i.boundary with
  | none =>
    simp [entryOf?, cut?_eq_none_iff.mpr h.no_question, hdecode, hname, entry, given, hb]
  | some r =>
    simp only [String.toList_append, Operation.toList_tokenQuery]
    simp [entryOf?, cut?_append h.no_question, hdecode, hname, token?_eq, entry, given, hb]

/-- The paths of several operations give the entries of their invocations. -/
theorem filterMap_entryOf?_sent (settings : Settings) (d : Defaults) (s : Session)
    {invs : List Invocation} (h : ∀ i ∈ invs, PlainPath i.path) :
    (invs.map fun i => (i.sent s).path.toList).filterMap (entryOf? settings d) =
      invs.map (entry settings d) := by
  induction invs with
  | nil => rfl
  | cons i invs ih =>
    rw [List.map_cons, List.map_cons,
      List.filterMap_cons_some (entryOf?_sent settings d s (h i List.mem_cons_self)),
      ih fun j hj => h j (List.mem_cons_of_mem _ hj)]

/-- The list of the paths that are sent names something, has no blanks at its ends, and falls into
these paths. -/
theorem paths_sent (s : Session) {invs : List Invocation} (hne : invs ≠ [])
    (h : ∀ i ∈ invs, PlainPath i.path) :
    namesNothing (Batch.paths (invs.map (·.sent s))) = false ∧
      trim (Batch.paths (invs.map (·.sent s))) = Batch.paths (invs.map (·.sent s)) ∧
      (Batch.paths (invs.map (·.sent s))).splitOn ',' =
        invs.map fun i => (i.sent s).path.toList := by
  have hpaths : Batch.paths (invs.map (·.sent s)) =
      join [','] (invs.map fun i => (i.sent s).path.toList) := by
    rw [Batch.paths, List.map_map]
    rfl
  have hparts : ∀ part ∈ invs.map fun i => (i.sent s).path.toList,
      ',' ∉ part ∧ namesNothing part = false ∧ trim part = part := by
    intro part hpart
    obtain ⟨i, hi, rfl⟩ := List.mem_map.mp hpart
    exact Invocation.listed_sent s (h i hi)
  rw [hpaths]
  refine ⟨?_, ?_, ?_⟩
  · cases invs with
    | nil => exact absurd rfl hne
    | cons i invs =>
      cases invs with
      | nil => exact (hparts _ List.mem_cons_self).2.1
      | cons j invs =>
        exact namesNothing_of_mem (mem_join ',' _ _ _) (by decide)
  · exact trim_join fun part hpart =>
      ⟨(namesNothing_eq_false.mp (hparts part hpart).2.1).1, (hparts part hpart).2.2⟩
  · exact splitOn_join (by simpa using hne) fun part hpart => (hparts part hpart).1

/-- A server makes out one entry for each operation of a batch, in order, as long as the target
names the list of their paths, and the path field names it too or is gone. -/
theorem resolve_sent {settings : Settings} {headers : Headers} {uri : Uri} {s : Session}
    {invs : List Invocation} (hne : invs ≠ []) (h : ∀ i ∈ invs, PlainPath i.path)
    (hfield : headers.get? Field.path = none ∨
      headers.get? Field.path = some (.ofList (Batch.paths (invs.map (·.sent s)))))
    (huri : uri.path.toList = trimEndBy (· == '/') settings.endpoint.toList ++
      '/' :: Percent.encode (Batch.paths (invs.map (·.sent s)))) (method : Option String) :
    resolve settings headers (some uri) method =
      invs.map (entry settings (defaults settings headers method)) := by
  -- The list that was joined is the list that is found, so it falls into the same paths.
  obtain ⟨hnamed, htrim, hsplit⟩ := paths_sent s hne h
  rw [resolve_eq htrim hfield huri, entries]
  simp only [hnamed, Bool.false_eq_true, if_false, hsplit]
  exact filterMap_entryOf?_sent settings _ s h

end Crossing.Log
