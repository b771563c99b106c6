import Crossing.Proofs.Script.Legible
import Crossing.Proofs.Script.Located
import Crossing.Proofs.Stamp.Candidate
import Crossing.Scan.Analysis

/-!
# What is recorded is what is stamped

A scan and a stamper go over the same calls of a module, and each takes those that it knows for
calls of remote procedures: the scan by the text of the callee, the stamper by its tree. Where the
callee starts at a client and is legible, the two agree on the call (`recorded_of_legible`). Where
it is not, the scan may pass over a call that the stamper takes, since the client is then no segment
by itself (`unrecorded_element`).
-/

namespace Crossing

open Script Script.Tree

namespace Script

/-- The segments of a legible callee start at a client and end with the method, and none is empty. -/
theorem Legible.ofCallee? {base dot : Tree} {before between : List Char} {method : String}
    (hlegible : Legible (.node .member (base :: (gapOf before ++ [dot] ++
      (gapOf between ++ [.leaf .property method.toList])))))
    (hdot : IsDot dot) (hmethod : method ∈ terminalMethods) (hlayout : base.Every evenTails)
    (hspelled : ∀ l ∈ base.tokens, l.Spelled) :
    ∃ client ∈ clientNames, ∃ middle, (∀ segment ∈ middle, segment.isEmpty = false) ∧
      Chain.ofCallee? (.ofList (text (.node .member (base :: (gapOf before ++ [dot] ++
        (gapOf between ++ [.leaf .property method.toList])))))) =
        some (client :: (middle ++ [method])) := by
  have hmethods : ∀ method ∈ terminalMethods, Chain.visible method.toList = method.toList := by
    decide
  have hdotTrivia : dot.isTrivia = false := by
    rcases hdot with rfl | rfl <;> rfl
  obtain ⟨-, hclient, hbefore, hbetween⟩ := hlegible
  rw [List.append_assoc, List.singleton_append, splitTrivia_gapOf before hdotTrivia]
    at hbefore hbetween
  rw [List.tail_cons, splitTrivia_gapOf between rfl] at hbetween
  refine Chain.ofCallee?_of_legible hmethod ?_
  have hstems := (hclient.stems hlayout hspelled).append hbefore
  have hquestion : Chain.Smooth ['?'] := ⟨rfl, fun _ h => absurd h List.not_mem_nil⟩
  simp only [text, textOf, textOf_append, Chain.visible_append, hbetween, List.append_nil,
    List.nil_append, hmethods method hmethod]
  rw [List.append_assoc, ← List.append_assoc (Chain.visible base.text)]
  rcases hdot with rfl | rfl
  · exact hstems.legible hmethod
  · -- The question mark is the end of the segment in front of the dot.
    have hlegible := (hstems.append hquestion).legible hmethod
    rw [List.append_assoc] at hlegible
    exact hlegible

/-- The receiver of the method of a call of a script stands in the script. -/
theorem receiver_of_mem_calls {read : Reader} (hread : read.Lexes) {d : Dialect} {s : List Char}
    {script : Tree} (hscript : read d s = some script) {spot : Spot} {ts : List Tree}
    (hcall : (spot, .node .call ts) ∈ calls script) {kind : Kind} {receiver : Tree} {tail : List Tree}
    (hcallee : callee? (.node .call ts) = some (.node kind (receiver :: tail))) :
    receiver.Every evenTails ∧ ∀ l ∈ receiver.tokens, l.Spelled := by
  have hmem : .node kind (receiver :: tail) ∈ ts :=
    (List.mem_filter.mp (List.mem_of_head? hcallee)).1
  obtain ⟨before, after, rfl⟩ := List.append_of_mem hmem
  obtain ⟨-, -, hevery⟩ := call_of_mem_callsAt (L := evenTails) hcall
  obtain ⟨-, htokens⟩ := exists_of_mem_callsAt hcall
  refine ⟨(everyOf_append.mp (hevery (hread.evenTails hscript)).2).2.1.2.1, fun l hl => ?_⟩
  refine hread.spelled hscript l (htokens ?_)
  simp only [tokens, tokensOf, tokensOf_append, List.mem_append]
  exact .inr (.inl (.inl hl))

/-- A call of a method on a member of something is one of a remote procedure if the method ends
one. -/
theorem isRemoteCall_of_method? {call : Tree} {method : String}
    (hmethod : method? call = some (method, true)) (hterminal : isTerminal method = true) :
    isRemoteCall call = true := by
  rw [isRemoteCall, hmethod]
  exact hterminal

/-- What a call of a remote procedure calls: a receiver, a dot, and the name of its method. -/
theorem exists_callee {ts : List Tree} {callee : Tree} {method : String}
    (hlayout : (Tree.node .call ts).Every layout)
    (hmethod : method? (.node .call ts) = some (method, true)) (hterminal : isTerminal method = true)
    (hcallee : callee? (.node .call ts) = some callee) :
    ∃ receiver before dot between, callee = .node .member (receiver :: (gapOf before ++ [dot] ++
      (gapOf between ++ [.leaf .property method.toList]))) ∧ IsDot dot := by
  have hremote := isRemoteCall_of_method? hmethod hterminal
  obtain ⟨receiver, before, dot, between, name, behind, part, more, rfl, hdot, hisDot, -, hpart,
    hcallPart, -⟩ := Stamp.remoteCall_cases hlayout hremote
  obtain ⟨callee', _, _, s, hcallee', hmember, hparts, rfl⟩ := Stamp.method?_eq_some hmethod
  cases hcallee.symm.trans hcallee'
  obtain rfl := Stamp.eq_callee hpart hcallPart hcallee hmember
  have hname := Stamp.eq_name hdot rfl hparts
  exact ⟨receiver, before, dot, between, by rw [hname, String.toList_ofList], hisDot⟩

/-- The chain of a call of a member is that of its callee. -/
theorem chain?_member {call : Tree} {ts : List Tree} (h : callee? call = some (.node .member ts)) :
    chain? call = Chain.ofCallee? (.ofList (text (.node .member ts))) := by
  rw [chain?, h]
  rfl

end Script

namespace Scan

/-- What a scan records of a call. -/
def recorded? (label : Label) (file : String) (call : Spot × Tree) : Option Call :=
  (chain? call.2).bind fun chain => Call.ofSite? label ⟨chain, file, call.1.lineNumber⟩

variable {read : Script.Reader}

/-- A scan goes over the calls of a module. -/
theorem callsOf_eq {file source : String} {script : Tree}
    (hscript : read (.ofFile file) source.toList = some script) (inner : Path) :
    callsOf read inner file source =
      .ok ((calls script).filterMap (recorded? (.ofModule source inner) file)) := by
  rw [callsOf, hscript]
  simp only [sites, List.filterMap_filterMap]
  congr 2
  funext call
  rw [recorded?, Option.bind_map]
  rfl

/-- A scan records of a module that it can read what it records of its calls. -/
theorem module_eq {disk : Disk} {readText : Path → Except String String} {root path : Path}
    {source : String} {script : Tree} (hsource : readText path = .ok source)
    (hscript : read (.ofFile (Path.display root path)) source.toList = some script) :
    (Scan.module read disk readText root path).1 = (calls script).filterMap
      (recorded? (.ofModule source (Project.innerPath disk path)) (Path.display root path)) := by
  have hcalls : readText path >>=
      callsOf read (Project.innerPath disk path) (Path.display root path) =
      .ok ((calls script).filterMap
        (recorded? (.ofModule source (Project.innerPath disk path)) (Path.display root path))) := by
    rw [hsource]
    exact callsOf_eq hscript _
  rw [Scan.module, hcalls]

/-- A chain from a client is that of a call of a procedure. -/
theorem ofSite?_client {client method : String} {middle : List String}
    (hclient : client ∈ clientNames) (hmiddle : ∀ segment ∈ middle, segment.isEmpty = false)
    (hmethod : method.isEmpty = false) (label : Label) (file : String) (line : UInt32) :
    Call.ofSite? label ⟨client :: (middle ++ [method]), file, line⟩ =
      some ⟨⟨Procedure.pathOf middle, method⟩, .ofMethod method, file, line, label⟩ := by
  have hknown : clientNames.contains client = true := List.contains_iff_mem.mpr hclient
  have hempty : (middle ++ [method]).any String.isEmpty = false := by
    simpa [hmethod] using hmiddle
  simp only [Call.ofSite?, Procedure.ofChain?, hknown, if_true, List.getLast?_append_of_ne_nil _
    (List.cons_ne_nil method []), List.getLast?_singleton, hempty, Bool.false_eq_true, if_false,
    List.dropLast_concat, Option.map_some]

end Scan

namespace Stamp

/-- The stamp of a call, if it is one of a remote procedure. -/
def stampOf? (record : UInt32 → String) (call : Spot × Tree) : Option Stamp :=
  if isRemoteCall call.2 then
    (edits? call.1 call.2 (record call.1.lineNumber)).map fun edits => ⟨call.1.lineNumber, edits⟩
  else none

/-- A stamper goes over the calls of a module. -/
theorem plan?_eq {read : Script.Reader} {file source : String} {script : Tree}
    (hscript : read (.ofFile file) source.toList = some script) :
    Stamper.plan? read file source = .ok ((calls script).filterMap
      (stampOf? (recordLiteral file (Label.ofModule source ⟨file⟩).side))) := by
  rw [Stamper.plan?, hscript]
  rfl

end Stamp

namespace Scan

open Stamp

variable {read : Script.Reader}

/-- A call of a remote procedure with a legible callee is recorded by a scan, with the method that
it is stamped for and the line that its stamp tells of; and with the file too, if the root of the
scan is that of the stamper. -/
theorem recorded_of_legible (hread : read.Lexes) (disk : Disk)
    (readText : Path → Except String String) (s : Stamper) {root path : Path} {source : String}
    {script : Tree} {spot : Spot} {call callee : Tree} {method : String}
    (hsource : readText path = .ok source)
    (hscan : read (.ofFile (Path.display root path)) source.toList = some script)
    (hstamp : read (.ofFile (Path.display s.root path)) source.toList = some script)
    (hcall : (spot, call) ∈ calls script) (hmethod : method? call = some (method, true))
    (hterminal : isTerminal method = true) (hcallee : callee? call = some callee)
    (hlegible : Legible callee) :
    ∃ recorded,
      recorded? (.ofModule source (Project.innerPath disk path)) (Path.display root path)
        (spot, call) = some recorded ∧
      (Scan.module read disk readText root path).1 = (calls script).filterMap
        (recorded? (.ofModule source (Project.innerPath disk path)) (Path.display root path)) ∧
      recorded.procedure.method = method ∧ recorded.communication = .ofMethod method ∧
      recorded.line = spot.lineNumber ∧
      ∃ side, Stamper.plan? read (Path.display s.root path) source = .ok ((calls script).filterMap
          (stampOf? (recordLiteral (Path.display s.root path) side))) ∧
        stampOf? (recordLiteral (Path.display s.root path) side) (spot, call) =
          (edits? spot call (recordLiteral (Path.display s.root path) side recorded.line)).map
            (⟨recorded.line, ·⟩) ∧
        (root = s.root → recorded.file = Path.display s.root path) := by
  obtain ⟨ts, hts, hlayout, -⟩ := call_of_mem_calls hread.toSpec hscan hcall
  dsimp only at hts hlayout
  subst hts
  have hremote := isRemoteCall_of_method? hmethod hterminal
  obtain ⟨receiver, before, dot, between, rfl, hdot⟩ :=
    exists_callee hlayout hmethod hterminal hcallee
  obtain ⟨heven, hspelled⟩ := receiver_of_mem_calls hread hscan hcall hcallee
  have hmem : method ∈ terminalMethods := List.contains_iff_mem.mp hterminal
  have hempty : ∀ method ∈ terminalMethods, method.isEmpty = false := by decide
  obtain ⟨client, hclient, middle, hmiddle, hchain⟩ :=
    hlegible.ofCallee? hdot hmem heven hspelled
  have hrecorded (label : Label) : recorded? label (Path.display root path) (spot, .node .call ts) =
      some ⟨⟨Procedure.pathOf middle, method⟩, .ofMethod method, Path.display root path,
        spot.lineNumber, label⟩ := by
    rw [recorded?, chain?_member hcallee, hchain]
    exact ofSite?_client hclient hmiddle (hempty method hmem) label _ _
  refine ⟨_, hrecorded _, module_eq hsource hscan, rfl, rfl, rfl, _, plan?_eq hstamp, ?_, ?_⟩
  · rw [stampOf?, if_pos hremote]
  · rintro rfl
    rfl

/-- A module with a call that is made of all sorts of links. -/
def linkedModule : String := "api\n  .user[\"a.b\"]!\n  .byId(\x7b n: 1.5 \x7d)?.all.query(2);"

/-- Elements, markers and calls between the client and the method are legible. -/
theorem recorded_links : ∃ script call callee,
    parse? .plain linkedModule.toList = some script ∧ (Spot.start, call) ∈ calls script ∧
    method? call = some ("query", true) ∧ callee? call = some callee ∧ Legible callee ∧
    ∃ recorded ∈ (Scan.module parse? default (fun _ => .ok linkedModule) ⟨"/repo"⟩ ⟨"/repo/a.ts"⟩).1,
      recorded.procedure.method = "query" ∧ recorded.file = "./a.ts" ∧ recorded.line = 1 := by
  have hcheck : (parse? .plain linkedModule.toList).any fun script => (calls script).any fun p =>
      (callee? p.2).any fun callee =>
        decide (p.1 = .start ∧ method? p.2 = some ("query", true) ∧ Legible callee) := by
    decide +kernel
  obtain ⟨script, hscript, hcalls⟩ := Option.any_eq_true .. |>.mp hcheck
  obtain ⟨⟨spot, call⟩, hcall, hany⟩ := List.any_eq_true.mp hcalls
  obtain ⟨callee, hcallee, hall⟩ := Option.any_eq_true .. |>.mp hany
  obtain ⟨rfl, hmethod, hlegible⟩ := of_decide_eq_true hall
  have hfile : Path.display ⟨"/repo"⟩ ⟨"/repo/a.ts"⟩ = "./a.ts" := by decide +kernel
  have hscan : parse? (.ofFile (Path.display ⟨"/repo"⟩ ⟨"/repo/a.ts"⟩)) linkedModule.toList =
      some script := by
    rw [hfile]
    exact hscript
  obtain ⟨recorded, hrecorded, hmodule, hquery, -, hline, -, -, -, hsame⟩ :=
    recorded_of_legible lexes_parse? default (fun _ => .ok linkedModule) ⟨⟨"/repo"⟩, false⟩ rfl hscan
      hscan hcall hmethod (by decide) hcallee hlegible
  refine ⟨script, call, callee, hscript, hcall, hmethod, hcallee, hlegible, recorded, ?_, hquery,
    (hsame rfl).trans hfile, hline⟩
  rw [hmodule]
  exact List.mem_filterMap.mpr ⟨_, hcall, hrecorded⟩

/-- A call of an element of the client is stamped but not recorded: the element stays in the segment
of the client, which is then no client. -/
theorem unrecorded_element : ∃ script call callee,
    parse? .plain "api[\"user\"].query();".toList = some script ∧ (Spot.start, call) ∈ calls script ∧
    method? call = some ("query", true) ∧ isTerminal "query" = true ∧
    callee? call = some callee ∧ callee.tokens.head? = some (.word, "api".toList) ∧
    (Scan.module parse? default (fun _ => .ok "api[\"user\"].query();") ⟨"/repo"⟩
      ⟨"/repo/a.ts"⟩).1 = [] := by
  have hcheck : (parse? .plain "api[\"user\"].query();".toList).any fun script =>
      (calls script).any fun p => (callee? p.2).any fun callee =>
        decide (p.1 = .start ∧ method? p.2 = some ("query", true) ∧
          callee.tokens.head? = some (.word, "api".toList)) := by
    decide +kernel
  obtain ⟨script, hscript, hcalls⟩ := Option.any_eq_true .. |>.mp hcheck
  obtain ⟨⟨spot, call⟩, hcall, hany⟩ := List.any_eq_true.mp hcalls
  obtain ⟨callee, hcallee, hall⟩ := Option.any_eq_true .. |>.mp hany
  obtain ⟨rfl, hmethod, hfirst⟩ := of_decide_eq_true hall
  exact ⟨script, call, callee, hscript, hcall, hmethod, by decide, hcallee, hfirst, by
    decide +kernel⟩

end Scan

end Crossing
