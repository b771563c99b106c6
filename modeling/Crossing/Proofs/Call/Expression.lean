import Crossing.Proofs.Call.Chain
import Crossing.Proofs.Text.Segments

/-!
# The expression of a call is what was written

The splitter takes dots away and nothing else, so the segments of a callee with dots between them
are its compact text (`join_splitFrom`), even where brackets or strings are left open. A chain
with a client in front and a method behind it names a procedure (`ofChain?_eq_some_iff`), and the
expression that calls the procedure is the text of the callee, with one name for all clients
(`expression_ofCallee?`). A callee whose middle reads like the path of a call on the client itself
is the one exception.
-/

namespace Crossing

open Text

namespace Chain

/-- A character in front of segments is one in front of their text. -/
theorem join_extend (c : Char) {segments : List (List Char)} (h : segments ≠ []) :
    join ['.'] (extend c segments) = c :: join ['.'] segments := by
  obtain ⟨s, rest, rfl⟩ := List.exists_cons_of_ne_nil h
  cases rest <;> rfl

/-- The segments of a text, with dots between them, are the text. -/
theorem join_splitFrom (state : Scan) (s : List Char) : join ['.'] (splitFrom state s) = s := by
  induction s generalizing state with
  | nil => rfl
  | cons c s ih =>
    have hne := splitFrom_ne_nil
    rw [splitFrom]
    split
    · next hdot =>
      -- A segment ends at this dot, and the dot is what stands between it and the next one.
      have hjoin := join_append (c := '.') (List.cons_ne_nil [] []) (hne state s)
      rw [List.singleton_append] at hjoin
      rw [hjoin, ih, hdot.1]
      rfl
    · rw [join_extend c (hne _ s), ih]

/-- The chain of a callee has its compact text, and no segment of it is empty. -/
theorem join_ofCallee? {callee : String} {chain : List String} (h : ofCallee? callee = some chain) :
    join ['.'] (chain.map String.toList) = compact callee.toList ∧
      chain.any String.isEmpty = false := by
  simp only [ofCallee?] at h
  split at h
  · contradiction
  · next hempty =>
    obtain rfl := Option.some.inj h
    have hlists : ((splitFrom (.code 0) (compact callee.toList)).map String.ofList).map
        String.toList = splitFrom (.code 0) (compact callee.toList) := by simp
    rw [hlists, join_splitFrom]
    refine ⟨rfl, ?_⟩
    rw [List.any_map, ← Bool.not_eq_true]
    simpa [Function.comp_def] using hempty

end Chain

namespace Procedure

/-- A chain without empty segments names a procedure exactly if it leads from a client to a
method. -/
theorem ofChain?_eq_some_iff {chain : List String} (hempty : chain.any String.isEmpty = false)
    {p : Procedure} : ofChain? chain = some p ↔ ∃ client ∈ clientNames, ∃ middle,
      chain = client :: (middle ++ [p.method]) ∧ p.path = pathOf middle := by
  obtain ⟨path, method⟩ := p
  cases chain with
  | nil => simp [ofChain?]
  | cons client rest =>
    have hrest : rest.any String.isEmpty = false := by
      rw [List.any_cons, Bool.or_eq_false_iff] at hempty
      exact hempty.2
    rcases List.eq_nil_or_concat rest with rfl | ⟨middle, last, rfl⟩
    · simp [ofChain?]
    · rw [List.concat_eq_append] at hrest ⊢
      have hread : ofChain? (client :: (middle ++ [last])) =
          if client ∈ clientNames then some ⟨pathOf middle, last⟩ else none := by
        simp only [ofChain?, List.contains_iff_mem, List.getLast?_concat, hrest,
          Bool.false_eq_true, if_false, List.dropLast_concat]
      rw [hread, Option.ite_none_right_eq_some]
      constructor
      · rintro ⟨hclient, hp⟩
        obtain ⟨rfl, rfl⟩ := Procedure.mk.inj (Option.some.inj hp)
        exact ⟨client, hclient, middle, rfl, rfl⟩
      · rintro ⟨client', hclient, middle', hchain, rfl⟩
        obtain ⟨rfl, hrest⟩ := List.cons.inj hchain
        obtain ⟨rfl, hlast⟩ := List.append_inj' hrest rfl
        obtain rfl := List.singleton_inj.mp hlast
        exact ⟨hclient, rfl⟩

/-- A chain without empty segments names a procedure exactly if it starts at a client and has more
segments. -/
theorem isSome_ofChain?_iff {chain : List String} (hempty : chain.any String.isEmpty = false) :
    (ofChain? chain).isSome = true ↔
      (∃ client ∈ clientNames, chain.head? = some client) ∧ 2 ≤ chain.length := by
  rw [Option.isSome_iff_exists]
  constructor
  · rintro ⟨p, hp⟩
    obtain ⟨client, hclient, middle, rfl, -⟩ := (ofChain?_eq_some_iff hempty).mp hp
    exact ⟨⟨client, hclient, rfl⟩, by simp⟩
  · rintro ⟨⟨client, hclient, hhead⟩, hlength⟩
    obtain ⟨rest, rfl⟩ := List.head?_eq_some_iff.mp hhead
    have hne : rest ≠ [] := by
      rintro rfl
      exact absurd hlength (Nat.not_succ_le_self 1)
    obtain ⟨middle, method, rfl⟩ := (List.eq_nil_or_concat rest).resolve_left hne
    refine ⟨⟨pathOf middle, method⟩, (ofChain?_eq_some_iff hempty).mpr
      ⟨client, hclient, middle, ?_, rfl⟩⟩
    rw [List.concat_eq_append]

/-- The expression of a procedure is the client and the segments behind it, unless those before the
method read like the path of a call on the client itself. -/
theorem expression_eq_iff (middle : List String) (method : String) :
    (expression ⟨pathOf middle, method⟩).toList =
        "trpc".toList ++ '.' :: join ['.'] ((middle ++ [method]).map String.toList) ↔
      join ['.'] (middle.map String.toList) ≠ rootPath.toList := by
  have hshort : ("trpc." ++ method).toList = "trpc".toList ++ '.' :: method.toList := by simp
  by_cases hmiddle : middle = []
  · subst hmiddle
    have hexpression : expression ⟨pathOf [], method⟩ = "trpc." ++ method := rfl
    rw [hexpression, hshort]
    exact iff_of_true rfl (by decide)
  · have hpath : pathOf middle = .ofList (join ['.'] (middle.map String.toList)) := by
      rw [pathOf, if_neg (by simpa using hmiddle)]
    have hjoin : join ['.'] ((middle ++ [method]).map String.toList) =
        join ['.'] (middle.map String.toList) ++ '.' :: method.toList := by
      rw [List.map_append, join_append (by simpa using hmiddle) (by simp)]
      rfl
    rw [hjoin]
    by_cases hroot : join ['.'] (middle.map String.toList) = rootPath.toList
    · -- The expression is that of a call on the client, which is shorter than what was written.
      have hexpression : expression ⟨pathOf middle, method⟩ = "trpc." ++ method := by
        rw [expression, if_pos (by rw [hpath, hroot, String.ofList_toList])]
      rw [hexpression, hshort, hroot]
      refine iff_of_false (fun heq => ?_) fun hne => hne rfl
      have hlength := congrArg List.length heq
      simp [rootPath] at hlength
    · have hother : pathOf middle ≠ rootPath := by
        rw [hpath]
        exact fun heq => hroot (by rw [← heq, String.toList_ofList])
      rw [expression, if_neg hother, hpath]
      exact iff_of_true (by simp) hroot

/-- A callee names a procedure exactly if it starts at a client and has more segments, and then the
expression of the procedure is what was written, with its first segment replaced by the name of the
client. -/
theorem expression_ofCallee? {callee : String} {chain : List String}
    (h : Chain.ofCallee? callee = some chain) :
    ((ofChain? chain).isSome = true ↔
        (∃ client ∈ clientNames, chain.head? = some client) ∧ 2 ≤ chain.length) ∧
      ∀ p, ofChain? chain = some p → ∃ client middle behind,
        chain = client :: (middle ++ [p.method]) ∧
        Chain.compact callee.toList = client.toList ++ behind ∧
        (p.expression.toList = "trpc".toList ++ behind ↔
          join ['.'] (middle.map String.toList) ≠ rootPath.toList) := by
  obtain ⟨hjoin, hempty⟩ := Chain.join_ofCallee? h
  refine ⟨isSome_ofChain?_iff hempty, fun p hp => ?_⟩
  obtain ⟨client, -, middle, rfl, hpath⟩ := (ofChain?_eq_some_iff hempty).mp hp
  obtain ⟨path, method⟩ := p
  obtain rfl : path = pathOf middle := hpath
  refine ⟨client, middle, '.' :: join ['.'] ((middle ++ [method]).map String.toList), rfl, ?_,
    expression_eq_iff middle method⟩
  have hbehind := join_append (c := '.') (List.cons_ne_nil client.toList [])
    (show (middle ++ [method]).map String.toList ≠ [] by simp)
  rw [← hjoin]
  exact hbehind

/-- A callee with blanks and markers, with a dot in a string and with a bracket left open. -/
theorem expression_ofCallee?_open :
    let chain := ["api", "user", "at(\"x.y\")", "of[.query"]
    let p : Procedure := ⟨"user.at(\"x.y\")", "of[.query"⟩
    Chain.ofCallee? "api ?. user!\n  .at(\"x.y\").of[.query" = some chain ∧
      ofChain? chain = some p ∧ p.expression = "trpc.user.at(\"x.y\").of[.query" ∧
      ∃ client middle behind, chain = client :: (middle ++ [p.method]) ∧
        Chain.compact "api ?. user!\n  .at(\"x.y\").of[.query".toList = client.toList ++ behind ∧
        (p.expression.toList = "trpc".toList ++ behind ↔
          join ['.'] (middle.map String.toList) ≠ rootPath.toList) := by
  intro chain p
  have hchain : Chain.ofCallee? "api ?. user!\n  .at(\"x.y\").of[.query" = some chain := by
    decide +kernel
  have hp : ofChain? chain = some p := by decide +kernel
  exact ⟨hchain, hp, by decide +kernel, (expression_ofCallee? hchain).2 p hp⟩

end Procedure

end Crossing
