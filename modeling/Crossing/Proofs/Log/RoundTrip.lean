import Crossing.Proofs.Log.Resolve
import Mathlib.Data.List.Forall2

/-!
# Calls are logged as they were made

A batch tells the server of every call what the client knew of it. With its header fields intact
the log has the kind that all calls share, and of each call its path and its boundary record
(`resolve_request`); a call without a record gets neither file nor line, since a field that some
operation lacks is no field of the batch. Without any of the fields the log still has the path and
the record of each call, which its token carries (`resolve_request_erased`).
-/

namespace Crossing.Log

open Text Http Boundary Wire

/-- What a log of a request with all of its fields says of an invocation. -/
def faithful (settings : Settings) (s : Session) (i : Invocation) : Entry where
  runtime := settings.runtime
  side := match i.boundary with
    | some r => r.side
    | none => if s.source = settings.clientSource then .client else .server
  kind := i.kind.name
  procedure := i.path
  file := i.boundary.map (·.file)
  line := i.boundary.map (·.line)

/-- The token of a record with a file name that is not empty and holds no colon says everything. -/
theorem given_of_boundary {i : Invocation} {r : Record} (h : i.boundary = some r)
    (hne : r.file ≠ "") (hcolon : ':' ∉ r.file.toList) :
    given i = ⟨some r.file, some r.line, some r.side⟩ := by
  simp only [given, h]
  exact Record.ofToken_token hne hcolon

/-- Without a record nothing is given. -/
theorem given_of_none {i : Invocation} (h : i.boundary = none) : given i = ⟨none, none, none⟩ := by
  simp only [given, h]

/-- A batch whose list of paths cannot be read from the path field, since it is no ASCII. One call
has a record, and one has none and was made later. -/
def mixed : List Invocation :=
  [⟨1, .query, "日記.list", some ⟨"./ä b.ts", 12, .server⟩, 1⟩,
    ⟨4, .query, "post hello.NONE", none, 0⟩]

/-- The request of the batch. -/
def mixedRequest : Request where
  method := "GET"
  uri :=
    { scheme := none
      authority := none
      path := "/api/trpc/%E6%97%A5%E8%A8%98.list%3F__b%3D.%252F%25C3%25A4%2520b.ts%253A12" ++
        "%253Aserver%2Cpost%20hello.NONE"
      query := some "batch=1" }
  headers := ⟨[("x-trpc-source", "nextjs-react"), ("x-trpc-boundary-type", "query"),
    ("x-trpc-boundary-path", "日記.list?__b=.%2F%C3%A4%20b.ts%3A12%3Aserver,post hello.NONE")]⟩

/-- An endpoint with two slashes at its end leads to that request. -/
theorem request_mixed :
    Batch.request "/api/trpc//" (mixed.map (·.sent Session.browser)) = .ok mixedRequest := by
  decide +kernel

section Batch

variable {settings : Settings} {endpoint : String} {s : Session} {invs : List Invocation}
  {req : Request}

/-- What a server with the endpoint of a batch gets: at least one operation, the fields of the
batch, and a target below its own endpoint. -/
theorem received (hendpoint : Batch.PlainEndpoint endpoint)
    (hsame : trimEndBy (· == '/') settings.endpoint.toList =
      trimEndBy (· == '/') endpoint.toList)
    (hreq : Batch.request endpoint (invs.map (·.sent s)) = .ok req) :
    ∃ i rest, invs = i :: rest ∧
      req.headers = Batch.headers (i.sent s) (rest.map (·.sent s)) ∧
      req.uri.path.toList = trimEndBy (· == '/') settings.endpoint.toList ++
        '/' :: Percent.encode (Batch.paths (invs.map (·.sent s))) := by
  obtain ⟨first, others, hops, hheaders, huri⟩ := Batch.request_spec hendpoint hreq
  obtain ⟨i, rest, rfl, rfl, rfl⟩ := List.map_eq_cons_iff.mp hops
  exact ⟨i, rest, rfl, hheaders, hsame ▸ huri⟩

/-- Under the path name of a batch its list of paths is found or nothing at all. -/
theorem pathField (i : Invocation) (rest : List Invocation) :
    (Batch.headers (i.sent s) (rest.map (·.sent s))).get? Field.path = none ∨
      (Batch.headers (i.sent s) (rest.map (·.sent s))).get? Field.path =
        some (.ofList (Batch.paths ((i :: rest).map (·.sent s)))) :=
  Batch.get?_headers_path_or _ _

/-- A batch with an operation that has no record says nothing about the parts of a record. -/
theorem recordField {i : Invocation} {rest : List Invocation} {j : Invocation}
    (hj : j ∈ i :: rest) (hnone : j.boundary = none) {name : String}
    (hname : name = Field.file ∨ name = Field.line ∨ name = Field.side) :
    (Batch.headers (i.sent s) (rest.map (·.sent s))).get? name = none := by
  have hne : name ≠ Field.path := by
    rcases hname with rfl | rfl | rfl <;>
      simp [Field.file, Field.line, Field.side, Field.path]
  rw [Batch.get?_headers_of_ne hne]
  have hmem : j.sent s ∈ (i :: rest).map (·.sent s) := List.mem_map_of_mem hj
  exact Batch.get?_common_eq_none hmem (Invocation.recordField_sent s hnone hname)

/-- A field that all operations of a batch carry with one value is read. -/
theorem read?_shared {i : Invocation} {rest : List Invocation} {name value : String}
    (hname : name ≠ Field.path)
    (hshared : ∀ j ∈ i :: rest, (j.sent s).headers.get? name = some value)
    (hread : value.toList.all isReadable = true) (htrim : trim value.toList = value.toList)
    (hne : value ≠ "") :
    (Batch.headers (i.sent s) (rest.map (·.sent s))).read? name = some value := by
  refine Headers.read?_eq_some ?_ hread htrim hne
  rw [Batch.get?_headers_of_ne hname]
  -- The path field is set last; every other field of the batch is one of the common ones.
  refine Batch.get?_common_of_forall (Invocation.nodup_sent s i) fun op hop => ?_
  have hop : op ∈ (i :: rest).map (·.sent s) := hop
  obtain ⟨j, hj, rfl⟩ := List.mem_map.mp hop
  exact hshared j hj

/-- The name of a kind can be read and has no blanks at its ends. -/
theorem readable_kind (k : Kind) : k.name.toList.all isReadable = true ∧
    trim k.name.toList = k.name.toList ∧ k.name ≠ "" := by
  cases k <;> decide

/-- A session whose source a server can read. -/
structure ReadableSource (s : Session) : Prop where
  readable : s.source.toList.all isReadable = true
  trimmed : trim s.source.toList = s.source.toList
  ne_empty : s.source ≠ ""

/-- The log of a batch whose operations are of one kind, and whose records have a file name that is
not empty and holds no colon, says of each operation what the session knew of it. -/
theorem resolve_request {kind : Kind} (hsource : ReadableSource s)
    (hpaths : ∀ i ∈ invs, PlainPath i.path) (hkind : ∀ i ∈ invs, i.kind = kind)
    (hfiles : ∀ i ∈ invs, ∀ r, i.boundary = some r → r.file ≠ "" ∧ ':' ∉ r.file.toList)
    (hendpoint : Batch.PlainEndpoint endpoint)
    (hsame : trimEndBy (· == '/') settings.endpoint.toList =
      trimEndBy (· == '/') endpoint.toList)
    (hreq : Batch.request endpoint (invs.map (·.sent s)) = .ok req) :
    resolve settings req.headers (some req.uri) (some req.method) =
      invs.map (faithful settings s) := by
  obtain ⟨i, rest, rfl, hheaders, huri⟩ := received hendpoint hsame hreq
  rw [resolve_sent (List.cons_ne_nil _ _) hpaths (hheaders ▸ pathField i rest) huri, hheaders]
  -- All operations carry the kind and the source, so the batch does.
  have hkindField : (Batch.headers (i.sent s) (rest.map (·.sent s))).read? Field.kind =
      some kind.name := by
    obtain ⟨hread, htrim, hne⟩ := readable_kind kind
    refine read?_shared (by decide) (fun j hj => ?_) hread htrim hne
    rw [Invocation.kindField_sent, hkind j hj]
  have hsourceField : (Batch.headers (i.sent s) (rest.map (·.sent s))).read? Field.source =
      some s.source :=
    read?_shared (by decide) (fun j _ => Invocation.source_sent s j) hsource.readable
      hsource.trimmed hsource.ne_empty
  refine List.map_congr_left fun j hj => ?_
  cases hb : j.boundary with
  | some r =>
    obtain ⟨hne, hcolon⟩ := hfiles j hj r hb
    simp [entry, faithful, given_of_boundary hb hne hcolon, hb, defaults, hkindField, hkind j hj]
  | none =>
    -- Since this operation has no record, no field of the batch stands for one.
    have hrecord (name : String)
        (hname : name = Field.file ∨ name = Field.line ∨ name = Field.side) :=
      Headers.read?_eq_none (recordField (s := s) hj hb hname)
    simp [entry, faithful, given_of_none hb, hb, defaults, hkindField, hkind j hj, hsourceField,
      hrecord Field.file, hrecord Field.line, hrecord Field.side]

/-- The log of the mixed batch has the record of the first call and none for the second. -/
theorem resolve_mixed :
    resolve {} mixedRequest.headers (some mixedRequest.uri) (some mixedRequest.method) =
      [⟨.node, .server, "query", "日記.list", some "./ä b.ts", some 12⟩,
        ⟨.node, .client, "query", "post hello.NONE", none, none⟩] := by
  have hlog : resolve {} mixedRequest.headers (some mixedRequest.uri) (some mixedRequest.method) =
      mixed.map (faithful {} Session.browser) :=
    resolve_request ⟨by decide, by decide, by decide⟩ (by decide +kernel)
      (by decide : ∀ i ∈ mixed, i.kind = .query) (by decide) ⟨.inr rfl, by decide, by decide⟩
      (by decide) request_mixed
  exact hlog

/-- What the log says of an invocation at least, whichever fields the request has lost. -/
structure Named (i : Invocation) (e : Entry) : Prop where
  procedure : e.procedure = i.path
  stamped : ∀ r, i.boundary = some r → r.file ≠ "" → ':' ∉ r.file.toList →
    e.file = some r.file ∧ e.line = some r.line ∧ e.side = r.side
  unstamped : i.boundary = none → e.file = none ∧ e.line = none

/-- Erasing names leaves of a value nothing or all of it. -/
theorem get?_foldl_erase (names : List String) (name : String) (h : Headers) :
    (names.foldl (fun h n => h.erase n) h).get? name = none ∨
      (names.foldl (fun h n => h.erase n) h).get? name = h.get? name := by
  induction names generalizing h with
  | nil => exact .inr rfl
  | cons n names ih =>
    -- A value that a later erasure leaves was left by this one too, or was erased by it.
    rcases ih (h.erase n) with hnone | hkept
    · exact .inl hnone
    · rw [List.foldl_cons, hkept]
      by_cases hn : name = n
      · exact .inl (hn ▸ Headers.get?_erase_self n h)
      · exact .inr (Headers.get?_erase_of_ne hn h)

/-- Whichever fields a request loses on its way, the log has one entry for each operation, in
order, with its path, with all of its record if the token can carry it, and with neither file nor
line if it has no record. -/
theorem resolve_request_erased (names : List String)
    (hpaths : ∀ i ∈ invs, PlainPath i.path) (hendpoint : Batch.PlainEndpoint endpoint)
    (hsame : trimEndBy (· == '/') settings.endpoint.toList =
      trimEndBy (· == '/') endpoint.toList)
    (hreq : Batch.request endpoint (invs.map (·.sent s)) = .ok req) :
    List.Forall₂ Named invs
      (resolve settings (names.foldl (fun h name => h.erase name) req.headers) (some req.uri)
        (some req.method)) := by
  obtain ⟨i, rest, rfl, hheaders, huri⟩ := received hendpoint hsame hreq
  -- Of each field the server finds what was sent or nothing.
  have hfield (name : String) := get?_foldl_erase names name req.headers
  rw [resolve_sent (List.cons_ne_nil _ _) hpaths ?_ huri]
  · rw [List.forall₂_map_right_iff, List.forall₂_same]
    intro j hj
    refine ⟨rfl, fun r hb hne hcolon => ?_, fun hb => ?_⟩
    · simp [entry, given_of_boundary hb hne hcolon]
    · -- The batch has no field that stands for a record, so none is left of it.
      have hrecord (name : String) (hname : name = Field.file ∨ name = Field.line) :
          (names.foldl (fun h n => h.erase n) req.headers).read? name = none := by
        refine Headers.read?_eq_none ?_
        rcases hfield name with hnone | hkept
        · exact hnone
        · rw [hkept, hheaders]
          exact recordField hj hb (hname.imp_right .inl)
      simp [entry, given_of_none hb, defaults, hrecord Field.file, hrecord Field.line]
  · rcases hfield Field.path with hnone | hkept
    · exact .inl hnone
    · rw [hkept, hheaders]
      exact pathField i rest

/-- The mixed batch that loses its path and its source on the way is still logged call by call. -/
theorem resolve_mixed_erased :
    List.Forall₂ Named mixed
      (resolve {} ((mixedRequest.headers.erase Field.path).erase Field.source)
        (some mixedRequest.uri) (some mixedRequest.method)) :=
  resolve_request_erased [Field.path, Field.source]
    (by decide +kernel : ∀ i ∈ mixed, PlainPath i.path) ⟨.inr rfl, by decide, by decide⟩
    (by decide) request_mixed

end Batch

end Crossing.Log
