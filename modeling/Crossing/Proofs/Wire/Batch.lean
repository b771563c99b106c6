import Crossing.Proofs.Http.Target
import Crossing.Proofs.Wire.Issue
import Crossing.Proofs.Text.Percent
import Crossing.Wire.Batch

/-!
# The request of a batch

Of the fields of the first operation a batch keeps those that all others carry with the same value:
a field that all of them agree on is found in the batch (`get?_common_of_forall`), and one that any
of them lacks is not (`get?_common_eq_none`). The list of the paths stands in the path field, if it
can be a value, and coded in the target below the endpoint (`request_spec`). Coded, every list may
stand in a target, so only the length of the target can keep a batch from being sent
(`request_defaultEndpoint`).
-/

namespace Crossing.Wire.Batch

open Text Http

/-- The common fields are those of the first operation that all others agree on. -/
theorem common_eq_write (first : Operation) (others : List Operation) :
    common first others = Headers.empty.write
      (first.headers.fields.filter fun f => others.all (·.headers.get? f.1 == some f.2)) := by
  rw [common, Headers.write, List.foldl_filter]

/-- A field that all operations carry with one value is found in the batch. -/
theorem get?_common_of_forall {first : Operation} {others : List Operation} {name value : String}
    (hnodup : (first.headers.fields.map (·.1)).Nodup)
    (h : ∀ op ∈ first :: others, op.headers.get? name = some value) :
    (common first others).get? name = some value := by
  rw [common_eq_write]
  refine Headers.get?_write_of_mem (hnodup.sublist (List.filter_sublist.map _)) ?_ _
  rw [List.mem_filter, List.all_eq_true]
  refine ⟨Headers.mem_of_get? (h first List.mem_cons_self), fun op hop => ?_⟩
  exact beq_iff_eq.mpr (h op (List.mem_cons_of_mem _ hop))

/-- A field that some operation lacks is not found in the batch. -/
theorem get?_common_eq_none {first op : Operation} {others : List Operation} {name : String}
    (hop : op ∈ first :: others) (h : op.headers.get? name = none) :
    (common first others).get? name = none := by
  rw [common_eq_write, Headers.get?_write_of_not_mem, Headers.get?_empty]
  intro hmem
  obtain ⟨f, hf, rfl⟩ := List.mem_map.mp hmem
  obtain ⟨hfirst, hothers⟩ := List.mem_filter.mp hf
  rcases List.mem_cons.mp hop with rfl | hop
  -- The operation that lacks the field is the first one, or one that does not agree with it.
  · exact Headers.get?_ne_none hfirst h
  · have hagree := List.all_eq_true.mp hothers op hop
    rw [h] at hagree
    exact absurd hagree (by simp)

/-- The path field of a batch is the list of its paths, if this can be a value. -/
theorem values_headers_path (first : Operation) (others : List Operation) :
    (headers first others).values Field.path =
      (headerValue? (.ofList (paths (first :: others)))).toList := by
  rw [headers]
  cases headerValue? (.ofList (paths (first :: others))) with
  | none => simp only [Headers.values_erase_self, Option.toList_none]
  | some value => simp only [Headers.values_set_self, Option.toList_some]

/-- Under the path name of a batch the list of its paths is found, if it can be a value. -/
theorem get?_headers_path (first : Operation) (others : List Operation) :
    (headers first others).get? Field.path =
      headerValue? (.ofList (paths (first :: others))) := by
  rw [Headers.get?_eq_head?, values_headers_path, Option.head?_toList]

/-- Under the path name of a batch the list of its paths is found or nothing at all. -/
theorem get?_headers_path_or (first : Operation) (others : List Operation) :
    (headers first others).get? Field.path = none ∨
      (headers first others).get? Field.path = some (.ofList (paths (first :: others))) := by
  rw [get?_headers_path, headerValue?_eq]
  split
  · exact .inr rfl
  · exact .inl rfl

/-- Under any other name the common value is found. -/
theorem get?_headers_of_ne {name : String} (hne : name ≠ Field.path) (first : Operation)
    (others : List Operation) :
    (headers first others).get? name = (common first others).get? name := by
  rw [headers]
  cases headerValue? (.ofList (paths (first :: others))) with
  | none => exact Headers.get?_erase_of_ne hne _
  | some value => exact Headers.get?_set_of_ne hne value _

/-! ## The target -/

/-- An endpoint that a batch can be sent to: it is empty or starts with a slash, and has neither a
query nor a fragment. -/
structure PlainEndpoint (endpoint : String) : Prop where
  empty_or_slash : endpoint = "" ∨ endpoint.toList.head? = some '/'
  no_question : '?' ∉ endpoint.toList
  no_fragment : '#' ∉ endpoint.toList

/-- The slash that follows an endpoint without its last slashes makes it start with one. -/
theorem PlainEndpoint.exists_cons {endpoint : String} (h : PlainEndpoint endpoint)
    (rest : List Char) : ∃ tail, trimEndBy (· == '/') endpoint.toList ++ '/' :: rest = '/' :: tail ∧
      ∀ c ∈ tail, c ∈ endpoint.toList ∨ c = '/' ∨ c ∈ rest := by
  have hstart : trimEndBy (· == '/') endpoint.toList <+: endpoint.toList := by
    rw [trimEndBy, ← List.reverse_suffix, List.reverse_reverse]
    exact List.dropWhile_suffix _
  -- What is left of an endpoint starts as the endpoint does, and it may be empty.
  cases htrim : trimEndBy (· == '/') endpoint.toList with
  | nil => exact ⟨rest, rfl, fun c hc => .inr (.inr hc)⟩
  | cons c tail =>
    rw [htrim] at hstart
    have hhead : endpoint.toList.head? = some c := by
      obtain ⟨t, ht⟩ := hstart
      rw [← ht]
      rfl
    obtain rfl : c = '/' := by
      rcases h.empty_or_slash with rfl | hslash
      · cases hhead
      · exact Option.some.inj (hhead.symm.trans hslash)
    refine ⟨tail ++ '/' :: rest, rfl, fun d hd => ?_⟩
    rcases List.mem_append.mp hd with hd | hd
    · exact .inl (hstart.subset (List.mem_cons_of_mem _ hd))
    · exact .inr (List.mem_cons.mp hd)

/-- The path of a batch's target is the coded list of paths below the endpoint. -/
theorem path_target {endpoint : String} (h : PlainEndpoint endpoint) {ops : List Operation}
    {uri : Uri} (huri : Uri.parse (target endpoint ops) = .ok uri) :
    uri.path.toList =
      trimEndBy (· == '/') endpoint.toList ++ '/' :: Percent.encode (paths ops) := by
  -- Neither the endpoint nor the coded list holds a sign that would end the path.
  obtain ⟨tail, htail, hmem⟩ := h.exists_cons (Percent.encode (paths ops))
  have htarget : (target endpoint ops).toList = '/' :: tail ++ '?' :: "batch=1".toList := by
    rw [target, String.toList_append, String.toList_ofList, htail]
    rfl
  have hnot (c : Char) (hc : c = '?' ∨ c = '#') : c ∉ tail := by
    intro hct
    rcases hmem c hct with hm | rfl | hm
    · rcases hc with rfl | rfl
      · exact h.no_question hm
      · exact h.no_fragment hm
    · exact absurd hc (by decide)
    · rcases hc with rfl | rfl <;> exact Percent.not_mem_encode (by decide) (by decide) _ hm
  rw [htail]
  exact Uri.path_parse htarget (hnot _ (.inl rfl)) (hnot _ (.inr rfl)) huri

/-- A batch that can be sent has a first operation, its target names the coded list of paths below
the endpoint, and its fields are those of the batch. -/
theorem request_spec {endpoint : String} (h : PlainEndpoint endpoint) {ops : List Operation}
    {req : Request} (hreq : request endpoint ops = .ok req) :
    ∃ first others, ops = first :: others ∧ req.headers = headers first others ∧
      req.uri.path.toList =
        trimEndBy (· == '/') endpoint.toList ++ '/' :: Percent.encode (paths ops) := by
  cases ops with
  | nil =>
    rw [request] at hreq
    cases hreq
  | cons first others =>
    simp only [request] at hreq
    split at hreq
    · next uri huri =>
      cases hreq
      exact ⟨first, others, rfl, rfl, path_target h huri⟩
    · cases hreq

/-! ## Batches that can be sent -/

/-- A coded text may stand in a path. -/
theorem isPathChar_of_mem_encode {s : List Char} {c : Char} (h : c ∈ Percent.encode s) :
    Uri.isPathChar c = true := by
  rcases Percent.plain_of_mem_encode h with hplain | rfl
  · rcases Percent.cases_of_isPlain hplain with hletter | hdigit | hsign
    · simp only [Uri.isPathChar, Bool.or_eq_true, Bool.and_eq_true, decide_eq_true_eq, beq_iff_eq]
      omega
    · simp only [Uri.isPathChar, Bool.or_eq_true, Bool.and_eq_true, decide_eq_true_eq, beq_iff_eq]
      omega
    · have hsigns : "-_.!~*'()".toList.all Uri.isPathChar = true := by decide
      exact List.all_eq_true.mp hsigns c hsign
  · decide

/-- Below an endpoint of characters that may stand in a path every list of paths makes a target,
unless it is too long. -/
theorem parse_target {endpoint : String} (h : PlainEndpoint endpoint)
    (hchars : ∀ c ∈ endpoint.toList, Uri.isPathChar c = true) (ops : List Operation) :
    Uri.parse (target endpoint ops) =
      if Uri.maxLength < Utf8.width (target endpoint ops).toList then .error .tooLong
      else .ok
        { scheme := none
          authority := none
          path := .ofList
            (trimEndBy (· == '/') endpoint.toList ++ '/' :: Percent.encode (paths ops))
          query := some "batch=1" } := by
  obtain ⟨tail, htail, hmem⟩ := h.exists_cons (Percent.encode (paths ops))
  have htarget : (target endpoint ops).toList = '/' :: tail ++ '?' :: "batch=1".toList := by
    rw [target, String.toList_append, String.toList_ofList, htail]
    rfl
  have hpath : ∀ c ∈ tail, Uri.isPathChar c = true := by
    intro c hc
    rcases hmem c hc with hc | rfl | hc
    · exact hchars c hc
    · decide
    · exact isPathChar_of_mem_encode hc
  have hquery : "batch=1".toList.all Uri.isQueryChar = true := by decide
  rw [Uri.parse_eq htarget hpath (List.all_eq_true.mp hquery), htail]
  rfl

/-- A batch at such an endpoint is sent unless its target is too long. -/
theorem request_cons {endpoint : String} (h : PlainEndpoint endpoint)
    (hchars : ∀ c ∈ endpoint.toList, Uri.isPathChar c = true) (first : Operation)
    (others : List Operation) :
    request endpoint (first :: others) =
      if Uri.maxLength < Utf8.width (target endpoint (first :: others)).toList then
        .error (.invalidUri (target endpoint (first :: others)) .tooLong)
      else .ok
        { method := method (first :: others)
          uri :=
            { scheme := none
              authority := none
              path := .ofList (trimEndBy (· == '/') endpoint.toList ++
                '/' :: Percent.encode (paths (first :: others)))
              query := some "batch=1" }
          headers := headers first others } := by
  simp only [request, parse_target h hchars]
  by_cases hlong : Uri.maxLength < Utf8.width (target endpoint (first :: others)).toList
  · simp only [if_pos hlong]
  · simp only [if_neg hlong]

/-- The list of the paths is the library's. -/
theorem paths_eq (ops : List Operation) :
    paths ops = [','].intercalate (ops.map (·.path.toList)) := by
  rw [paths, join_eq_intercalate]

/-- At the default endpoint a batch fails exactly if it has no operations or its target is longer
than 65534 bytes, whatever the paths are. If it does not fail, what follows the endpoint in the path
of its target is decoded to the list of the paths, its query marks a batch, its method is `POST`
exactly if all operations are mutations, and its path field is the list of the paths if this can be
a value, and missing if not. -/
theorem request_defaultEndpoint (ops : List Operation) :
    ((∃ e, request defaultEndpoint ops = .error e) ↔
        ops = [] ∨ 65534 < Utf8.width (target defaultEndpoint ops).toList) ∧
      ∀ req, request defaultEndpoint ops = .ok req →
        (∃ segment, req.uri.path.toList = "/api/trpc/".toList ++ segment ∧
          Percent.decode segment = [','].intercalate (ops.map (·.path.toList))) ∧
        req.uri.query = some "batch=1" ∧
        req.method = (if ∀ op ∈ ops, op.kind = .mutation then "POST" else "GET") ∧
        req.headers.values Field.path =
          if ([','].intercalate (ops.map (·.path.toList))).all isValueChar then
            [.ofList ([','].intercalate (ops.map (·.path.toList)))]
          else [] := by
  have hendpoint : PlainEndpoint defaultEndpoint := ⟨.inr rfl, by decide, by decide⟩
  have hchars : ∀ c ∈ defaultEndpoint.toList, Uri.isPathChar c = true :=
    List.all_eq_true.mp (by decide)
  have hroute : trimEndBy (· == '/') defaultEndpoint.toList = "/api/trpc".toList := by decide
  cases ops with
  | nil =>
    refine ⟨⟨fun _ => .inl rfl, fun _ => ⟨.empty, rfl⟩⟩, fun req hreq => ?_⟩
    cases hreq
  | cons first others =>
    rw [request_cons hendpoint hchars first others, hroute, ← paths_eq]
    by_cases hlong : Uri.maxLength < Utf8.width (target defaultEndpoint (first :: others)).toList
    · rw [if_pos hlong]
      exact ⟨⟨fun _ => .inr hlong, fun _ => ⟨_, rfl⟩⟩, fun req hreq => by cases hreq⟩
    · rw [if_neg hlong]
      refine ⟨⟨?_, fun h => ?_⟩, fun req hreq => ?_⟩
      · rintro ⟨e, ⟨⟩⟩
      · exact absurd (h.resolve_left (List.cons_ne_nil _ _)) hlong
      · cases hreq
        refine ⟨⟨Percent.encode (paths (first :: others)), ?_, Percent.decode_encode _⟩, rfl, ?_,
          ?_⟩
        · rw [String.toList_ofList]
          rfl
        · simp only [method, List.all_eq_true, decide_eq_true_eq]
        · rw [values_headers_path, headerValue?_eq, String.toList_ofList]
          split <;> rfl

/-- Operations with an empty path and with all that could harm a target: its separators, a control
character, characters above ASCII, and what looks coded. -/
def awkward : List Operation :=
  [⟨1, .mutation, "", none, Headers.empty⟩, ⟨1, .mutation, "a,b?c#d%2C", none, Headers.empty⟩,
    ⟨2, .mutation, "日 \n&", none, ⟨[(Field.path, "old")]⟩⟩]

/-- The request of these operations, without a path field. -/
def awkwardRequest : Request where
  method := "POST"
  uri :=
    { scheme := none
      authority := none
      path := "/api/trpc/%2Ca%2Cb%3Fc%23d%252C%2C%E6%97%A5%20%0A%26"
      query := some "batch=1" }
  headers := ⟨[]⟩

/-- The awkward batch is sent, its target is decoded to the three paths, and its list of paths is
not fit for a field. -/
theorem request_defaultEndpoint_awkward :
    request defaultEndpoint awkward = .ok awkwardRequest ∧
      (∃ segment, awkwardRequest.uri.path.toList = "/api/trpc/".toList ++ segment ∧
        Percent.decode segment = ",a,b?c#d%2C,日 \n&".toList) ∧
      awkwardRequest.headers.values Field.path = [] := by
  have hreq : request defaultEndpoint awkward = .ok awkwardRequest := by decide +kernel
  obtain ⟨hsegment, -, -, hfield⟩ := (request_defaultEndpoint awkward).2 _ hreq
  exact ⟨hreq, hsegment, hfield.trans (by decide +kernel)⟩

end Crossing.Wire.Batch
