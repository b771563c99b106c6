import Crossing.Proofs.Wire.Batch
import Mathlib.Control.Monad.Basic

/-!
# Which fields a batch carries

A batch means to carry a field exactly if all of its operations agree on it, which is a matter of
what is found in each of them, the first value of a name. But the first operation is gone through
field by field, so that each of its values counts, and of those that the others agree on the last
one is carried (`get?_request`). Hence the rule holds for a name unless a later value of the first
operation takes the place of its first one (`carries_agreed_iff`), and where no operation carries a
name twice it holds, and the order of the operations does not matter (`get?_request_perm`).
-/

namespace Crossing.Wire.Batch

open Text Http

variable {endpoint : String} {first : Operation} {others : List Operation} {req : Request}
  {name value : String}

/-- Whether a value is what is found under a name in every operation. -/
def Agreed (name value : String) (ops : List Operation) : Prop :=
  ∀ op ∈ ops, op.headers.get? name = some value

/-- The values that the first operation carries under a name and the others agree on. -/
def shared (name : String) (first : Operation) (others : List Operation) : List String :=
  (first.headers.values name).filter fun value => others.all (·.headers.get? name == some value)

/-- A shared value is one of the first operation that is found in all others. -/
theorem mem_shared : value ∈ shared name first others ↔
    value ∈ first.headers.values name ∧ Agreed name value others := by
  simp [shared, Agreed, List.mem_filter]

/-- All operations agree on a shared value if it is the first one of the first operation. -/
theorem agreed_cons : Agreed name value (first :: others) ↔
    first.headers.get? name = some value ∧ value ∈ shared name first others := by
  rw [mem_shared]
  constructor
  · intro h
    have hfirst := h first List.mem_cons_self
    have hmem : value ∈ first.headers.values name :=
      List.mem_of_mem_head? (Headers.get?_eq_head? name first.headers ▸ hfirst)
    exact ⟨hfirst, hmem, fun op hop => h op (List.mem_cons_of_mem _ hop)⟩
  · rintro ⟨hfirst, -, hothers⟩
    exact List.forall_mem_cons.mpr ⟨hfirst, hothers⟩

/-- Of the shared values the last one is common. -/
theorem get?_common : (common first others).get? name = (shared name first others).getLast? := by
  rw [common_eq_write, Headers.get?_write, Headers.get?_empty, Option.or_none]
  congr 1
  -- The fields that are written under the name are picked by their values alone.
  unfold Headers.values shared Headers.values
  rw [List.filter_map, List.filter_filter, List.filter_filter]
  congr 1
  refine List.filter_congr fun f _ => ?_
  by_cases hf : f.1 = name
  · subst hf
    simp
  · have hother : (f.1 == name) = false := beq_false_of_ne hf
    simp [hother]

/-- A batch carries the fields of its operations. -/
theorem headers_of_request (hreq : request endpoint (first :: others) = .ok req) :
    req.headers = headers first others := by
  simp only [request] at hreq
  split at hreq
  · cases hreq
    rfl
  · cases hreq

/-- Under every name but that of the path, a batch carries the last shared value. -/
theorem get?_request (hreq : request endpoint (first :: others) = .ok req)
    (hname : name ≠ Field.path) :
    req.headers.get? name = (shared name first others).getLast? := by
  rw [headers_of_request hreq, get?_headers_of_ne hname, get?_common]

/-! ## The rule -/

/-- Whether the value that a batch carries under a name is not the one that is found in the first
operation. -/
def Overruled (name : String) (first : Operation) (others : List Operation) : Prop :=
  ∃ value, (shared name first others).getLast? = some value ∧
    first.headers.get? name ≠ some value

/-- If no value is overruled, the last shared value is the one that all operations agree on. -/
theorem getLast?_shared_iff (hkept : ¬ Overruled name first others) :
    (shared name first others).getLast? = some value ↔ Agreed name value (first :: others) := by
  have hfound (value : String) (hlast : (shared name first others).getLast? = some value) :
      first.headers.get? name = some value :=
    not_not.mp fun hfirst => hkept ⟨value, hlast, hfirst⟩
  rw [agreed_cons]
  constructor
  · intro hlast
    exact ⟨hfound value hlast, List.mem_of_getLast? hlast⟩
  · rintro ⟨hfirst, hmem⟩
    -- There is a last shared value, and it is the first one of the first operation too.
    obtain ⟨last, hlast⟩ := Option.isSome_iff_exists.mp
      (List.getLast?_isSome.mpr (List.ne_nil_of_mem hmem))
    rwa [Option.some.inj (hfirst.symm.trans (hfound last hlast))]

/-- A value that stands alone is not overruled. -/
theorem not_overruled_of_single (hsingle : (first.headers.values name).length ≤ 1) :
    ¬ Overruled name first others := by
  rintro ⟨value, hlast, hfirst⟩
  obtain ⟨hmem, -⟩ := mem_shared.mp (List.mem_of_getLast? hlast)
  rw [Headers.get?_eq_head?] at hfirst
  match hvalues : first.headers.values name with
  | [] => simp [hvalues] at hmem
  | [v] => simp [hvalues] at hmem hfirst; exact hfirst hmem.symm
  | _ :: _ :: _ => simp [hvalues] at hsingle

/-- Operations that carry a name at most once can be sent in any order: the batch carries the same
under this name. -/
theorem get?_request_perm {endpoint' : String} {first' : Operation} {others' : List Operation}
    {req' : Request} (hreq : request endpoint (first :: others) = .ok req)
    (hreq' : request endpoint' (first' :: others') = .ok req')
    (hperm : (first :: others).Perm (first' :: others')) (hname : name ≠ Field.path)
    (hsingle : ∀ op ∈ first :: others, (op.headers.values name).length ≤ 1) :
    req'.headers.get? name = req.headers.get? name := by
  have hkept : ¬ Overruled name first others :=
    not_overruled_of_single (hsingle first List.mem_cons_self)
  have hkept' : ¬ Overruled name first' others' :=
    not_overruled_of_single (hsingle first' (hperm.mem_iff.mpr List.mem_cons_self))
  refine Option.ext fun value => ?_
  rw [get?_request hreq hname, get?_request hreq' hname, getLast?_shared_iff hkept,
    getLast?_shared_iff hkept']
  exact forall_congr' fun op => by rw [hperm.mem_iff]

/-- Under every name but that of the path a batch carries the last of the values of the first
operation that are found in all others. So it carries exactly what all operations agree on, unless
this value is overruled: the first operation has another one in front of it. -/
theorem carries_agreed_iff (hreq : request endpoint (first :: others) = .ok req)
    (hname : name ≠ Field.path) :
    req.headers.get? name = (shared name first others).getLast? ∧
      ((∀ value, req.headers.get? name = some value ↔ Agreed name value (first :: others)) ↔
        ¬ Overruled name first others) := by
  refine ⟨get?_request hreq hname, ?_⟩
  rw [get?_request hreq hname]
  constructor
  · rintro hrule ⟨value, hlast, hfirst⟩
    exact hfirst ((hrule value).mp hlast first List.mem_cons_self)
  · intro hkept value
    exact getLast?_shared_iff hkept

/-- An operation with two values of a name. -/
def twofold : Operation := ⟨1, .query, "a", none, ⟨[("x-tag", "1"), ("x-tag", "2")]⟩⟩

/-- An operation with the second of them. -/
def onefold : Operation := ⟨2, .query, "b", none, ⟨[("x-tag", "2")]⟩⟩

/-- The request of operations with given paths and headers. -/
def sentAs (path : String) (fields : List (String × String)) : Request where
  method := "GET"
  uri := { scheme := none, authority := none, path, query := some "batch=1" }
  headers := ⟨fields⟩

/-- The two operations agree on no value of the name, but their batch carries the second one. In the
other order it carries none. -/
theorem carries_twofold :
    let ahead := sentAs "/api/trpc/a%2Cb" [("x-tag", "2"), (Field.path, "a,b")]
    let behind := sentAs "/api/trpc/b%2Ca" [(Field.path, "b,a")]
    request defaultEndpoint [twofold, onefold] = .ok ahead ∧
      request defaultEndpoint [onefold, twofold] = .ok behind ∧
      ahead.headers.get? "x-tag" = some "2" ∧ behind.headers.get? "x-tag" = none ∧
      ¬ ∀ value, ahead.headers.get? "x-tag" = some value ↔
        Agreed "x-tag" value [twofold, onefold] := by
  intro ahead behind
  have hname : "x-tag" ≠ Field.path := by decide
  have hahead : request defaultEndpoint [twofold, onefold] = .ok ahead := by decide +kernel
  have hbehind : request defaultEndpoint [onefold, twofold] = .ok behind := by decide +kernel
  obtain ⟨hcarried, hrule⟩ := carries_agreed_iff hahead hname
  obtain ⟨hnothing, -⟩ := carries_agreed_iff hbehind hname
  refine ⟨hahead, hbehind, hcarried.trans (by decide), hnothing.trans (by decide), ?_⟩
  rw [hrule, not_not]
  exact ⟨"2", by decide, by decide⟩

end Crossing.Wire.Batch
