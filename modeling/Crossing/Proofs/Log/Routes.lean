import Crossing.Proofs.Log.Resolve
import Mathlib.Control.Monad.Basic

/-!
# Both routes lead to the same calls

A batch names its calls twice: in the path field, if the list of the paths can be a header value, and
coded once more in the target. A server takes the field where it can read it and the target
otherwise. Whatever the paths are, a server that has lost the field makes out the same calls
(`resolve_erase_path`): commas and percent signs of a path are read alike on both routes, since the
target gives back the very list that the field holds. Only blanks at the ends of the list are told
apart, for they are dropped from the field alone.
-/

namespace Crossing.Log

open Text Http Boundary Wire

/-- The fields of a request say the same without its list of paths. -/
theorem defaults_erase_path (settings : Settings) (headers : Headers) (method : Option String) :
    defaults settings (headers.erase Field.path) method = defaults settings headers method :=
  defaults_congr (fun _ hne => Headers.read?_erase_of_ne hne headers) method

/-- A batch that loses its path field on the way is logged as if it had kept it, and in both cases
the log has what the list of its paths names. -/
theorem resolve_erase_path {settings : Settings} {endpoint : String} {ops : List Operation}
    {req : Request} (htrim : trim (Batch.paths ops) = Batch.paths ops)
    (hendpoint : Batch.PlainEndpoint endpoint)
    (hsame : trimEndBy (· == '/') settings.endpoint.toList =
      trimEndBy (· == '/') endpoint.toList)
    (hreq : Batch.request endpoint ops = .ok req) (method : Option String) :
    resolve settings (req.headers.erase Field.path) (some req.uri) method =
        resolve settings req.headers (some req.uri) method ∧
      resolve settings req.headers (some req.uri) method =
        entries settings (defaults settings req.headers method) (Batch.paths ops) := by
  obtain ⟨first, others, rfl, hheaders, huri⟩ := Batch.request_spec hendpoint hreq
  rw [← hsame] at huri
  have hkept := resolve_eq htrim (hheaders ▸ Batch.get?_headers_path_or first others) huri method
  have hlost := resolve_eq htrim (.inl (Headers.get?_erase_self Field.path req.headers)) huri method
  rw [defaults_erase_path] at hlost
  exact ⟨hlost.trans hkept.symm, hkept⟩

/-- Operations whose paths hold the separators of the wire, the endpoint, and a damaged token. The
first one brings two values of the path field along. -/
def hostile : List Operation :=
  [⟨1, .mutation, "a%2Cb,/api/trpc/c?__b=%zz", none,
      ⟨[(Field.path, "x"), (Field.path, "y"), (Field.kind, "mutation")]⟩⟩,
    ⟨1, .query, "NONE", some ⟨"", 0, .client⟩, ⟨[(Field.kind, "mutation")]⟩⟩,
    ⟨2, .subscription, "#d&e", none, ⟨[(Field.kind, "mutation"), (Field.side, "client")]⟩⟩]

/-- The request of the operations. -/
def hostileRequest : Request where
  method := "GET"
  uri :=
    { scheme := none
      authority := none
      path := "/api/trpc/a%252Cb%2C%2Fapi%2Ftrpc%2Fc%3F__b%3D%25zz%2CNONE%2C%23d%26e"
      query := some "batch=1" }
  headers := ⟨[(Field.kind, "mutation"),
    (Field.path, "a%2Cb,/api/trpc/c?__b=%zz,NONE,#d&e")]⟩

/-- The hostile batch without its path field is logged as it is with the field: the coded comma is
one of a name, the damaged token counts as a file, and the word for no path names nothing. -/
theorem resolve_erase_path_hostile :
    resolve {} (hostileRequest.headers.erase Field.path) (some hostileRequest.uri) (some "GET") =
        resolve {} hostileRequest.headers (some hostileRequest.uri) (some "GET") ∧
      resolve {} hostileRequest.headers (some hostileRequest.uri) (some "GET") =
        [⟨.node, .server, "mutation", "a,b", none, none⟩,
          ⟨.node, .server, "mutation", "/api/trpc/c", some "%zz", none⟩,
          ⟨.node, .server, "mutation", "#d&e", none, none⟩] := by
  have hreq : Batch.request "/api/trpc/" hostile = .ok hostileRequest := by decide +kernel
  have htrim : trim (Batch.paths hostile) = Batch.paths hostile := by decide +kernel
  have hendpoint : trimEndBy (· == '/') ({} : Settings).endpoint.toList =
      trimEndBy (· == '/') "/api/trpc/".toList := by
    decide
  obtain ⟨hsame, hentries⟩ := resolve_erase_path htrim ⟨.inr rfl, by decide, by decide⟩ hendpoint
    hreq (some "GET")
  exact ⟨hsame, hentries.trans (by decide +kernel)⟩

end Crossing.Log
