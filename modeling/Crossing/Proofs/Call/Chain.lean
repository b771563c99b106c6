import Crossing.Call.Basic
import Crossing.Call.Chain

/-!
# How a callee is split

The splitter goes over the text of a callee once, and knows of brackets and strings only what it
counted. So a text may be split piece by piece (`splitFrom_append`), and a piece that closes what it
opens can be judged by itself (`Smooth`). The markers `?` and `!` in front of a dot change no
bracket and no string: without them, every segment but the last loses those that it ends with
(`splitFrom_replacePair`).
-/

namespace Crossing.Chain

open Text

/-- What the splitter knows behind a text. -/
def Scan.after (state : Scan) (s : List Char) : Scan :=
  s.foldl (fun state c => state.step c) state

/-- Behind an empty text the scanner is where it was. -/
@[simp]
theorem after_nil (state : Scan) : state.after [] = state := rfl

/-- Behind a text the scanner is where its rest leads from the first character on. -/
@[simp]
theorem after_cons (state : Scan) (c : Char) (s : List Char) :
    state.after (c :: s) = (state.step c).after s := rfl

/-- Behind two texts the scanner is where the second one leads from behind the first one. -/
theorem after_append (state : Scan) (s t : List Char) :
    state.after (s ++ t) = (state.after s).after t :=
  List.foldl_append

/-! ## Pieces -/

/-- A dot outside of brackets and strings ends a segment. -/
theorem splitFrom_dot (s : List Char) :
    splitFrom (.code 0) ('.' :: s) = [] :: splitFrom (.code 0) s := rfl

/-- Every other character goes on with one. -/
theorem splitFrom_cons {state : Scan} {c : Char} (h : c = '.' → state ≠ .code 0) (s : List Char) :
    splitFrom state (c :: s) = extend c (splitFrom (state.step c) s) := by
  rw [splitFrom, if_neg fun hdot => h hdot.1 hdot.2]

/-- There is always a segment. -/
theorem splitFrom_ne_nil (state : Scan) (s : List Char) : splitFrom state s ≠ [] := by
  cases s with
  | nil => exact List.cons_ne_nil _ _
  | cons c s =>
    rw [splitFrom]
    split
    · exact List.cons_ne_nil _ _
    · cases splitFrom (state.step c) s <;> exact List.cons_ne_nil _ _

/-- The segments of a text end with one that goes on when the text does. -/
theorem exists_splitFrom_eq (state : Scan) (s : List Char) :
    ∃ front last, splitFrom state s = front ++ [last] := by
  obtain ⟨front, last, h⟩ := (List.eq_nil_or_concat (splitFrom state s)).resolve_left
    (splitFrom_ne_nil state s)
  exact ⟨front, last, by rw [h, List.concat_eq_append]⟩

/-- A character in front of segments is one in front of the first of them. -/
theorem extend_append (c : Char) (front : List (List Char)) (last : List Char)
    (rest : List (List Char)) : ∃ front' last', extend c (front ++ [last]) = front' ++ [last'] ∧
      ∀ head, extend c (front ++ (last ++ head) :: rest) = front' ++ (last' ++ head) :: rest := by
  cases front with
  | nil => exact ⟨[], c :: last, rfl, fun _ => rfl⟩
  | cons segment front => exact ⟨(c :: segment) :: front, last, rfl, fun _ => rfl⟩

/-- The last segment of a text goes on with the first segment of what follows. -/
theorem splitFrom_append (front : List (List Char)) {state : Scan} {s t : List Char}
    {last head : List Char} {rest : List (List Char)} (hs : splitFrom state s = front ++ [last])
    (ht : splitFrom (state.after s) t = head :: rest) :
    splitFrom state (s ++ t) = front ++ (last ++ head) :: rest := by
  induction s generalizing state front last with
  | nil =>
    obtain ⟨rfl, rfl⟩ : front = [] ∧ last = [] := by
      cases front with
      | nil => exact ⟨rfl, (List.cons.inj hs).1.symm⟩
      | cons segment front => exact absurd (List.cons.inj hs).2.symm (by simp)
    exact ht
  | cons c s ih =>
    rw [List.cons_append, splitFrom]
    rw [splitFrom] at hs
    split at hs
    · next hdot =>
      obtain ⟨front', last', hsegments⟩ := exists_splitFrom_eq state s
      have hstep : state.step c = state := by
        obtain ⟨rfl, rfl⟩ := hdot
        rfl
      rw [hsegments, ← List.cons_append] at hs
      obtain ⟨rfl, hlast⟩ := List.append_inj' hs rfl
      cases hlast
      rw [after_cons, hstep] at ht
      rw [if_pos hdot, ih _ hsegments ht]
      rfl
    · next hdot =>
      obtain ⟨front', last', hsegments⟩ := exists_splitFrom_eq (state.step c) s
      obtain ⟨front'', last'', hextend, hwith⟩ := extend_append c front' last' rest
      rw [hsegments, hextend] at hs
      obtain ⟨rfl, hlast⟩ := List.append_inj' hs rfl
      cases hlast
      rw [if_neg hdot, ih _ hsegments ht, hwith]

/-- Behind a piece in which no segment starts, all that start do so in the rest. -/
theorem tail_splitFrom_append {state : Scan} {s : List Char} (hs : splitFrom state s = [s])
    (t : List Char) :
    (splitFrom state (s ++ t)).tail = (splitFrom (state.after s) t).tail := by
  cases ht : splitFrom (state.after s) t with
  | nil => exact absurd ht (splitFrom_ne_nil _ _)
  | cons head rest => rw [splitFrom_append [] hs ht]; rfl

/-! ## Pieces that leave the splitter where it was -/

section Pieces

variable {s body : List Char} {quote : Char}

/-- A text without quotes and brackets changes nothing that the splitter knows. -/
theorem code_after (h : ∀ c ∈ s, c ∉ quotes ++ openers ++ closers) (depth : Nat) :
    (Scan.code depth).after s = .code depth := by
  induction s with
  | nil => rfl
  | cons c s ih =>
    have hc := h c List.mem_cons_self
    simp only [List.mem_append, not_or] at hc
    rw [after_cons, Scan.step, if_neg hc.1.1, if_neg hc.1.2, if_neg hc.2,
      ih fun d hd => h d (List.mem_cons_of_mem c hd)]

/-- No segment starts in such a text, unless a dot stands in it outside of brackets. -/
theorem splitFrom_code (h : ∀ c ∈ s, c ∉ quotes ++ openers ++ closers) {depth : Nat}
    (hdot : '.' ∈ s → depth ≠ 0) : splitFrom (.code depth) s = [s] := by
  induction s with
  | nil => rfl
  | cons c s ih =>
    have hc := h c List.mem_cons_self
    simp only [List.mem_append, not_or] at hc
    have hdepth (heq : c = '.') : Scan.code depth ≠ .code 0 := by
      intro hcode
      exact hdot (heq ▸ List.mem_cons_self) (Scan.code.inj hcode)
    rw [splitFrom_cons hdepth, Scan.step, if_neg hc.1.1, if_neg hc.1.2, if_neg hc.2,
      ih (fun d hd => h d (List.mem_cons_of_mem c hd)) fun hd => hdot (List.mem_cons_of_mem c hd)]
    rfl

/-- What stands in a string changes nothing that the splitter knows. -/
theorem string_after (hquote : quote ∉ body) (hescape : '\\' ∉ body) (depth : Nat) :
    (Scan.string depth quote false).after body = .string depth quote false := by
  induction body with
  | nil => rfl
  | cons c body ih =>
    rw [List.mem_cons, not_or] at hquote hescape
    rw [after_cons, Scan.step, if_neg Bool.false_ne_true, if_neg (Ne.symm hescape.1),
      if_neg (Ne.symm hquote.1), ih hquote.2 hescape.2]

/-- No segment starts in a string. -/
theorem splitFrom_string (hquote : quote ∉ body) (hescape : '\\' ∉ body) (depth : Nat) :
    splitFrom (.string depth quote false) body = [body] := by
  induction body with
  | nil => rfl
  | cons c body ih =>
    rw [List.mem_cons, not_or] at hquote hescape
    rw [splitFrom_cons fun _ => by exact Scan.noConfusion, Scan.step, if_neg Bool.false_ne_true,
      if_neg (Ne.symm hescape.1), if_neg (Ne.symm hquote.1), ih hquote.2 hescape.2]
    rfl

/-- A string changes nothing that the splitter knows, and no segment starts in it. -/
theorem whole_string (hmem : quote ∈ quotes) (hquote : quote ∉ body) (hescape : '\\' ∉ body)
    (depth : Nat) : (Scan.code depth).after (quote :: (body ++ [quote])) = .code depth ∧
      splitFrom (.code depth) (quote :: (body ++ [quote])) = [quote :: (body ++ [quote])] := by
  have hquotes : (quotes.all fun q => q != '.' && q != '\\') = true := by decide
  have hother := List.all_eq_true.mp hquotes quote hmem
  rw [Bool.and_eq_true, bne_iff_ne, bne_iff_ne] at hother
  have hopen : (Scan.code depth).step quote = .string depth quote false := by
    rw [Scan.step, if_pos hmem]
  have hclose : (Scan.string depth quote false).step quote = .code depth := by
    rw [Scan.step, if_neg Bool.false_ne_true, if_neg hother.2, if_pos rfl]
  refine ⟨?_, ?_⟩
  · rw [after_cons, hopen, after_append, string_after hquote hescape, after_cons, hclose]
    rfl
  · have hlast : splitFrom (.string depth quote false) [quote] = [[quote]] := by
      rw [splitFrom_cons (absurd · hother.1)]
      rfl
    rw [splitFrom_cons (absurd · hother.1), hopen, splitFrom_append [] (splitFrom_string hquote
      hescape depth) (by rw [string_after hquote hescape, hlast])]
    rfl

end Pieces

/-! ## Smooth pieces -/

/-- The text without blanks. -/
def visible (s : List Char) : List Char :=
  s.filter (!isBlank ·)

/-- The visible characters of two texts are those of the first one and then those of the second. -/
theorem visible_append (s t : List Char) : visible (s ++ t) = visible s ++ visible t :=
  List.filter_append s t

/-- Blanks are not visible. -/
theorem visible_eq_nil {s : List Char} : visible s = [] ↔ ∀ c ∈ s, isBlank c = true := by
  simp [visible]

/-- Whether a segment starts with a character that is no marker. -/
def Shows (segment : List Char) : Prop :=
  ∃ c rest, segment = c :: rest ∧ c ≠ '?' ∧ c ≠ '!'

instance : DecidablePred Shows
  | [] => isFalse fun ⟨_, _, h, _⟩ => List.cons_ne_nil _ _ h.symm
  | c :: rest => decidable_of_iff (c ≠ '?' ∧ c ≠ '!')
    ⟨fun hc => ⟨c, rest, rfl, hc⟩, fun ⟨_, _, h, hc⟩ => (List.cons.inj h).1 ▸ hc⟩

/-- Whether a text closes what it opens, and all segments that start in it show. -/
structure Smooth (s : List Char) : Prop where
  closes : (Scan.code 0).after s = .code 0
  shows : ∀ segment ∈ (splitFrom (.code 0) s).tail, Shows segment

instance : DecidablePred Smooth := fun s =>
  decidable_of_iff ((Scan.code 0).after s = .code 0 ∧
    ∀ segment ∈ (splitFrom (.code 0) s).tail, Shows segment)
    ⟨fun h => ⟨h.1, h.2⟩, fun h => ⟨h.closes, h.shows⟩⟩

/-- A segment that shows goes on to show. -/
theorem Shows.append {s : List Char} (h : Shows s) (t : List Char) : Shows (s ++ t) := by
  obtain ⟨c, rest, rfl, hc⟩ := h
  exact ⟨c, rest ++ t, rfl, hc⟩

/-! ## Markers -/

/-- Whether a character is a marker in front of a dot. -/
def IsMarker (c : Char) : Prop :=
  c = '?' ∨ c = '!'

/-- A segment without the marker that it ends with. -/
def unmark (marker : Char) (s : List Char) : List Char :=
  if s.getLast? = some marker then s.dropLast else s

/-- Segments that lose a marker in front of dots, inside of them and at their ends. -/
def unmarked (marker : Char) : List (List Char) → List (List Char)
  | [] => []
  | [s] => [replacePair marker '.' '.' s]
  | s :: rest => unmark marker (replacePair marker '.' '.' s) :: unmarked marker rest

variable {marker : Char}

/-- Whether a string that the splitter knows of stands in quotes. -/
def Scan.Quoted : Scan → Prop
  | .code _ => True
  | .string _ quote _ => quote ∈ quotes

/-- Strings that the splitter finds stand in quotes. -/
theorem Scan.Quoted.step {state : Scan} (h : state.Quoted) (c : Char) : (state.step c).Quoted := by
  cases state with
  | code depth =>
    rw [Scan.step]
    split
    · next hquote => exact hquote
    · split
      · trivial
      · split <;> trivial
  | string depth quote escaped =>
    cases escaped with
    | true => exact h
    | false =>
      simp only [Scan.step, Bool.false_eq_true, if_false]
      split
      · exact h
      · split
        · trivial
        · exact h

/-- What the splitter knows behind a character that neither opens nor closes anything: what a
backslash escapes ends there. -/
def Scan.idle : Scan → Scan
  | .code depth => .code depth
  | .string depth quote _ => .string depth quote false

/-- A character that neither opens nor closes anything. -/
theorem step_of_notMem {state : Scan} (h : state.Quoted) {c : Char}
    (hc : c ∉ '\\' :: (quotes ++ openers ++ closers)) : state.step c = state.idle := by
  simp only [List.mem_cons, List.mem_append, not_or] at hc
  obtain ⟨hescape, ⟨hquotes, hopeners⟩, hclosers⟩ := hc
  cases state with
  | code depth => rw [Scan.step, if_neg hquotes, if_neg hopeners, if_neg hclosers, Scan.idle]
  | string depth quote escaped =>
    have hquote : c ≠ quote := fun heq => hquotes (heq ▸ h)
    cases escaped with
    | true => rfl
    | false =>
      simp only [Scan.step, Bool.false_eq_true, if_false]
      rw [if_neg hescape, if_neg hquote, Scan.idle]

/-- A marker changes nothing that the splitter knows, when a dot follows. -/
theorem step_marker (hmarker : IsMarker marker) {state : Scan} (h : state.Quoted) :
    (state.step marker).step '.' = state.step '.' := by
  have hnone : marker ∉ '\\' :: (quotes ++ openers ++ closers) := by
    rcases hmarker with rfl | rfl <;> decide
  have hdot : '.' ∉ '\\' :: (quotes ++ openers ++ closers) := by decide
  rw [step_of_notMem (h.step marker) hdot, step_of_notMem h hdot, step_of_notMem h hnone]
  cases state <;> rfl

/-- Outside of brackets and strings, a marker leaves the splitter there. -/
theorem step_marker_code (hmarker : IsMarker marker) {state : Scan} (h : state.Quoted) :
    state.step marker = .code 0 ↔ state = .code 0 := by
  have hnone : marker ∉ '\\' :: (quotes ++ openers ++ closers) := by
    rcases hmarker with rfl | rfl <;> decide
  rw [step_of_notMem h hnone]
  cases state <;> simp [Scan.idle]

/-- A character stands in front of a text without markers, unless it is a marker in front of a dot. -/
theorem replacePair_cons {c : Char} {s : List Char} (h : ∀ rest, s = '.' :: rest → c ≠ marker) :
    replacePair marker '.' '.' (c :: s) = c :: replacePair marker '.' '.' s := by
  cases s with
  | nil => rfl
  | cons d rest =>
    rw [replacePair, if_neg]
    rintro ⟨hc, rfl⟩
    exact h rest rfl hc

/-- A text without markers is empty only if the text is. -/
theorem replacePair_ne_nil {s : List Char} (h : s ≠ []) : replacePair marker '.' '.' s ≠ [] := by
  fun_cases replacePair marker '.' '.' s with
  | case1 => exact List.cons_ne_nil _ _
  | case2 => exact List.cons_ne_nil _ _
  | case3 => exact h

/-- A character in front of other ones is not the marker that they end with. -/
theorem unmark_cons (c : Char) {s : List Char} (h : s ≠ []) :
    unmark marker (c :: s) = c :: unmark marker s := by
  cases s with
  | nil => exact absurd rfl h
  | cons d s =>
    unfold unmark
    rw [List.getLast?_cons_cons]
    split <;> rfl

/-- A character stands in front of segments without markers, unless it is a marker in front of a
dot. -/
theorem unmarked_extend {c : Char} {segments : List (List Char)}
    (hend : ∀ rest, segments = [] :: rest → rest ≠ [] → c ≠ marker)
    (hdot : ∀ s rest, segments = ('.' :: s) :: rest → c ≠ marker) :
    unmarked marker (extend c segments) = extend c (unmarked marker segments) := by
  match segments with
  | [] => rfl
  | [s] =>
    rw [extend, unmarked, unmarked, extend, replacePair_cons]
    rintro rest rfl
    exact hdot rest [] rfl
  | s :: t :: rest =>
    have hkeeps : replacePair marker '.' '.' (c :: s) = c :: replacePair marker '.' '.' s := by
      refine replacePair_cons ?_
      rintro rest' rfl
      exact hdot rest' _ rfl
    show unmark marker (replacePair marker '.' '.' (c :: s)) :: unmarked marker (t :: rest) =
      (c :: unmark marker (replacePair marker '.' '.' s)) :: unmarked marker (t :: rest)
    rw [hkeeps]
    congr 1
    by_cases hs : s = []
    · subst hs
      have hc := hend (t :: rest) rfl (List.cons_ne_nil _ _)
      simp [replacePair, unmark, hc]
    · exact unmark_cons c (replacePair_ne_nil hs)

/-- An empty segment in front of others stays. -/
theorem unmarked_nil_cons {segments : List (List Char)} (h : segments ≠ []) :
    unmarked marker ([] :: segments) = [] :: unmarked marker segments := by
  cases segments with
  | nil => exact absurd rfl h
  | cons s rest => rfl

/-- A text that starts with no dot starts with a segment of its first character. -/
theorem exists_of_splitFrom_cons {state : Scan} {c : Char} {s segment : List Char}
    {rest : List (List Char)} (hc : c ≠ '.') (h : splitFrom state (c :: s) = segment :: rest) :
    ∃ segment', segment = c :: segment' := by
  rw [splitFrom_cons (absurd · hc)] at h
  cases hsegments : splitFrom (state.step c) s with
  | nil => exact absurd hsegments (splitFrom_ne_nil _ _)
  | cons segment' rest' =>
    rw [hsegments, extend] at h
    exact ⟨segment', (List.cons.inj h).1.symm⟩

/-- A marker in front of a dot is lost. -/
theorem unmarked_marker (hmarker : IsMarker marker) {segments : List (List Char)}
    (h : segments ≠ []) : unmarked marker (extend marker (extend '.' segments)) =
      extend '.' (unmarked marker segments) := by
  have hdot : '.' ≠ marker := by rcases hmarker with rfl | rfl <;> decide
  rw [← unmarked_extend (fun _ _ _ => hdot) fun _ _ _ => hdot]
  cases segments with
  | nil => exact absurd rfl h
  | cons s rest =>
    have hlost : replacePair marker '.' '.' (marker :: '.' :: s) =
        replacePair marker '.' '.' ('.' :: s) := by
      rw [replacePair, if_pos ⟨rfl, rfl⟩, replacePair_cons fun _ _ => hdot]
    cases rest with
    | nil => simp only [extend, unmarked, hlost]
    | cons t rest => simp only [extend, unmarked, hlost]

/-- Without markers in front of dots, a text has the segments that it had without them. -/
theorem splitFrom_replacePair (hmarker : IsMarker marker) {state : Scan} (h : state.Quoted)
    (s : List Char) : splitFrom state (replacePair marker '.' '.' s) =
      unmarked marker (splitFrom state s) := by
  have hdot : marker ≠ '.' := by rcases hmarker with rfl | rfl <;> decide
  fun_induction replacePair marker '.' '.' s generalizing state with
  | case1 x y rest heq ih =>
    obtain ⟨rfl, rfl⟩ := heq
    rw [splitFrom_cons (absurd · hdot)]
    by_cases hcode : state = .code 0
    · -- The marker was all of the segment.
      subst hcode
      have hstep : (Scan.code 0).step x = .code 0 := (step_marker_code hmarker h).mpr rfl
      rw [hstep, splitFrom_dot, splitFrom_dot, ih h]
      have hne := splitFrom_ne_nil (.code 0) rest
      cases hrest : splitFrom (.code 0) rest with
      | nil => exact absurd hrest hne
      | cons segment more => simp [extend, unmarked, replacePair, unmark]
    · have hstep : state.step x ≠ .code 0 := mt (step_marker_code hmarker h).mp hcode
      rw [splitFrom_cons fun _ => hcode, splitFrom_cons fun _ => hstep, ih (h.step '.'),
        step_marker hmarker h, unmarked_marker hmarker (splitFrom_ne_nil _ _)]
  | case2 x y rest heq ih =>
    rw [splitFrom, splitFrom]
    split
    · next hsplit => rw [ih h, unmarked_nil_cons (splitFrom_ne_nil _ _)]
    · have hother (hx : x = marker) : y ≠ '.' := fun hy => heq ⟨hx, hy⟩
      rw [ih (h.step x), unmarked_extend]
      · rintro more hsegments - hx
        obtain ⟨_, hfirst⟩ := exists_of_splitFrom_cons (hother hx) hsegments
        contradiction
      · rintro segment more hsegments hx
        obtain ⟨_, hfirst⟩ := exists_of_splitFrom_cons (hother hx) hsegments
        exact hother hx (List.cons.inj hfirst).1.symm
  | case3 s hshort =>
    match s with
    | [] => rfl
    | [c] =>
      rw [splitFrom]
      split <;> rfl
    | c :: d :: rest => exact absurd rfl (hshort c d rest)

/-- Of segments without a marker all but the last one lose those that they end with. -/
theorem unmarked_concat (front : List (List Char)) (last : List Char) :
    unmarked marker (front ++ [last]) =
      front.map (fun s => unmark marker (replacePair marker '.' '.' s)) ++
        [replacePair marker '.' '.' last] := by
  induction front with
  | nil => rfl
  | cons s front ih =>
    rw [List.cons_append, List.map_cons, List.cons_append, ← ih]
    cases front <;> rfl

/-- A segment that shows does so without a marker. -/
theorem Shows.unmark {s : List Char} (h : Shows s) (hmarker : IsMarker marker) :
    Shows (unmark marker (replacePair marker '.' '.' s)) := by
  obtain ⟨c, rest, rfl, hc⟩ := h
  have hother : c ≠ marker := by
    rcases hmarker with rfl | rfl
    · exact hc.1
    · exact hc.2
  rw [replacePair_cons fun _ _ => hother]
  by_cases hrest : rest = []
  · subst hrest
    exact ⟨c, [], by simp [replacePair, Chain.unmark, hother], hc⟩
  · exact ⟨c, _, unmark_cons c (replacePair_ne_nil hrest), hc⟩

/-! ## Chains of a client -/

/-- The markers that may stand behind the client in front of the first dot. -/
def clientMarkers : List (List Char) := [[], ['!'], ['?'], ['!', '?']]

/-- Whether a text without blanks comes apart into the client, segments that show, and a method. -/
def Legible (s : List Char) (method : String) : Prop :=
  ∃ client ∈ clientNames, ∃ markers ∈ clientMarkers, ∃ middle, (∀ segment ∈ middle, Shows segment) ∧
    splitFrom (.code 0) s = (client.toList ++ markers) :: (middle ++ [method.toList])

/-- The segments of a text without markers in front of dots. -/
theorem splitFrom_compact (callee : List Char) : splitFrom (.code 0) (compact callee) =
    unmarked '!' (unmarked '?' (splitFrom (.code 0) (visible callee))) := by
  have hquoted : (Scan.code 0).Quoted := trivial
  rw [compact, splitFrom_replacePair (.inr rfl) hquoted, splitFrom_replacePair (.inl rfl) hquoted,
    visible]

/-- A legible callee has a chain from the client to the method, without empty segments. -/
theorem ofCallee?_of_legible {callee : List Char} {method : String}
    (hmethod : method ∈ terminalMethods) (h : Legible (visible callee) method) :
    ∃ client ∈ clientNames, ∃ middle, (∀ segment ∈ middle, segment.isEmpty = false) ∧
      ofCallee? (.ofList callee) = some (client :: (middle ++ [method])) := by
  obtain ⟨client, hclient, markers, hmarkers, middle, hshow, hsegments⟩ := h
  have hfirst : ∀ client ∈ clientNames, ∀ markers ∈ clientMarkers,
      unmark '!' (replacePair '!' '.' '.' (unmark '?' (replacePair '?' '.' '.'
        (client.toList ++ markers)))) = client.toList := by decide
  have hlast : ∀ method ∈ terminalMethods,
      replacePair '!' '.' '.' (replacePair '?' '.' '.' method.toList) = method.toList := by decide
  have hsplit := splitFrom_compact callee
  rw [hsegments, ← List.cons_append, unmarked_concat, unmarked_concat, List.map_cons, List.map_cons,
    List.cons_append, hfirst client hclient markers hmarkers, hlast method hmethod] at hsplit
  generalize hmiddle : (middle.map _).map _ = middle' at hsplit
  have hshow' : ∀ segment ∈ middle', Shows segment := by
    subst hmiddle
    intro segment hsegment
    obtain ⟨_, hinner, rfl⟩ := List.mem_map.mp hsegment
    obtain ⟨s, hs, rfl⟩ := List.mem_map.mp hinner
    exact ((hshow s hs).unmark (.inl rfl)).unmark (.inr rfl)
  have hnonempty : ∀ client ∈ clientNames, client.toList.isEmpty = false := by decide
  have hmethods : ∀ method ∈ terminalMethods, method.toList.isEmpty = false := by decide
  have hempty : (client.toList :: (middle' ++ [method.toList])).any List.isEmpty = false := by
    simp only [List.any_cons, List.any_append, List.any_nil, Bool.or_false, Bool.or_eq_false_iff,
      List.any_eq_false]
    refine ⟨hnonempty client hclient, fun s hs => ?_, hmethods method hmethod⟩
    obtain ⟨c, rest, rfl, -⟩ := hshow' s hs
    exact Bool.false_ne_true
  refine ⟨client, hclient, middle'.map .ofList, fun segment hsegment => ?_, ?_⟩
  · obtain ⟨s, hs, rfl⟩ := List.mem_map.mp hsegment
    obtain ⟨c, rest, rfl, -⟩ := hshow' s hs
    simp
  · unfold ofCallee?
    simp only [String.toList_ofList, hsplit, hempty]
    simp

/-! ## A chain piece by piece -/

/-- Whether a text is the client, with at most one marker. -/
def IsClient (s : List Char) : Prop :=
  ∃ client ∈ clientNames, s = client.toList ∨ s = client.toList ++ ['!']

instance : DecidablePred IsClient := fun s =>
  inferInstanceAs (Decidable (∃ client ∈ clientNames, s = client.toList ∨ s = client.toList ++ ['!']))

/-- Whether a text starts with a dot, or with the marker that makes it an optional one. -/
def StartsDotted (s : List Char) : Prop :=
  ['.'] <+: s ∨ ['?', '.'] <+: s

instance : DecidablePred StartsDotted := fun s =>
  inferInstanceAs (Decidable (['.'] <+: s ∨ ['?', '.'] <+: s))

/-- Whether a text leads from the client into a segment that shows. -/
structure Stems (s : List Char) : Prop where
  closes : (Scan.code 0).after s = .code 0
  segments : ∃ client ∈ clientNames, ∃ markers ∈ clientMarkers, ∃ middle, middle ≠ [] ∧
    (∀ segment ∈ middle, Shows segment) ∧
      splitFrom (.code 0) s = (client.toList ++ markers) :: middle

variable {s t : List Char}

/-- Behind the client there is a dot. -/
theorem stems_of_isClient (hs : IsClient s) (ht : Smooth t) (hdot : StartsDotted t) :
    Stems (s ++ t) := by
  have hclients : ∀ client ∈ clientNames, ∀ markers ∈ [[], ['!']],
      (Scan.code 0).after (client.toList ++ markers) = .code 0 ∧
        splitFrom (.code 0) (client.toList ++ markers) = [client.toList ++ markers] := by decide
  have hmarkers : ∀ markers ∈ [[], ['!']], ∀ more ∈ [[], ['?']],
      markers ++ more ∈ clientMarkers := by decide
  obtain ⟨client, hclient, markers, hmarker, rfl⟩ : ∃ client ∈ clientNames,
      ∃ markers ∈ [[], ['!']], s = client.toList ++ markers := by
    obtain ⟨client, hclient, rfl | rfl⟩ := hs
    · exact ⟨client, hclient, [], by simp, by simp⟩
    · exact ⟨client, hclient, ['!'], by simp, rfl⟩
  obtain ⟨more, hmore, u, hsplit⟩ : ∃ more ∈ [[], ['?']], ∃ u,
      splitFrom (.code 0) t = more :: splitFrom (.code 0) u := by
    rcases hdot with ⟨u, rfl⟩ | ⟨u, rfl⟩
    · exact ⟨[], by simp, u, rfl⟩
    · exact ⟨['?'], by simp, u, rfl⟩
  obtain ⟨hcloses, hsegments⟩ := hclients client hclient markers hmarker
  have hshows := ht.shows
  rw [hsplit, List.tail_cons] at hshows
  refine ⟨by rw [after_append, hcloses, ht.closes], client, hclient, markers ++ more,
    hmarkers markers hmarker more hmore, _, splitFrom_ne_nil (.code 0) u, hshows, ?_⟩
  rw [splitFrom_append [] hsegments (by rw [hcloses, hsplit]), List.append_assoc]
  rfl

/-- A smooth piece leads on. -/
theorem Stems.append (hs : Stems s) (ht : Smooth t) : Stems (s ++ t) := by
  obtain ⟨hcloses, client, hclient, markers, hmarkers, middle, hmiddle, hshows, hsegments⟩ := hs
  obtain ⟨front, last, rfl⟩ := (List.eq_nil_or_concat middle).resolve_left hmiddle
  rw [List.concat_eq_append] at hshows hsegments
  cases hsplit : splitFrom (.code 0) t with
  | nil => exact absurd hsplit (splitFrom_ne_nil _ _)
  | cons head rest =>
    have hrest := ht.shows
    rw [hsplit, List.tail_cons] at hrest
    have hjoined := splitFrom_append ((client.toList ++ markers) :: front) hsegments
      (by rw [hcloses, hsplit])
    refine ⟨by rw [after_append, hcloses, ht.closes], client, hclient, markers, hmarkers, _,
      by simp, ?_, hjoined⟩
    intro segment hsegment
    rcases List.mem_append.mp hsegment with hfront | hsegment
    · exact hshows segment (List.mem_append_left _ hfront)
    · rcases List.mem_cons.mp hsegment with rfl | hsegment
      · exact (hshows last (by simp)).append head
      · exact hrest segment hsegment

/-- A method behind a dot ends a callee. -/
theorem Stems.legible (hs : Stems s) {method : String} (hmethod : method ∈ terminalMethods) :
    Legible (s ++ '.' :: method.toList) method := by
  have hmethods : ∀ method ∈ terminalMethods,
      splitFrom (.code 0) ('.' :: method.toList) = [[], method.toList] := by decide
  obtain ⟨hcloses, client, hclient, markers, hmarkers, middle, hmiddle, hshows, hsegments⟩ := hs
  obtain ⟨front, last, rfl⟩ := (List.eq_nil_or_concat middle).resolve_left hmiddle
  rw [List.concat_eq_append] at hshows hsegments
  have hjoined := splitFrom_append ((client.toList ++ markers) :: front) hsegments
    (by rw [hcloses, hmethods method hmethod])
  exact ⟨client, hclient, markers, hmarkers, front ++ [last], hshows, by simpa using hjoined⟩

end Crossing.Chain
