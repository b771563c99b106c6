import Crossing.Proofs.Script.Grammar
import Crossing.Proofs.Script.Spelling

/-!
# The brackets of scripts

Every rule of the grammar of scripts is even (`even_rules`): it closes the brackets that it opens.
-/

namespace Crossing.Script

open Grammar

/-! ## Rules, taken apart -/

section Simp

variable {σ : Type} {grammar : σ → Rule σ}

/-- A test opens nothing. -/
@[simp]
theorem even_test (p : Mode → List Char → Bool) : Even grammar (.test p) := .test p

/-- Looking ahead opens nothing. -/
@[simp]
theorem even_ahead (r : Rule σ) : Even grammar (.ahead r) := .ahead r

/-- Looking for what must not follow opens nothing. -/
@[simp]
theorem even_without (r : Rule σ) : Even grammar (.without r) := .without r

/-- A rule that is referred to is even if the grammar is, which is shown for its own rule. -/
@[simp]
theorem even_symbol (s : σ) : Even grammar (.symbol s) := .symbol s

/-- A sequence is even exactly if its rules, read one after the other, are. -/
@[simp]
theorem even_sequence {rules : List (Rule σ)} :
    Even grammar (.sequence rules) ↔ Runs (Even grammar) 0 rules :=
  ⟨fun h => by cases h; assumption, .sequence⟩

/-- A choice is even exactly if its rules are. -/
@[simp]
theorem even_either {rules : List (Rule σ)} :
    Even grammar (.either rules) ↔ ∀ r ∈ rules, Even grammar r :=
  ⟨fun h => by cases h; assumption, .either⟩

/-- A repetition is even exactly if its rule is. -/
@[simp]
theorem even_many {r : Rule σ} : Even grammar (.many r) ↔ Even grammar r :=
  ⟨fun h => by cases h; assumption, .many⟩

/-- A rule that may be left out is even exactly if it is by itself. -/
@[simp]
theorem even_optional {r : Rule σ} : Even grammar (.optional r) ↔ Even grammar r :=
  ⟨fun h => by cases h; assumption, .optional⟩

/-- A rule in another mode is even exactly if it is by itself. -/
@[simp]
theorem even_within {change : Mode → Mode} {r : Rule σ} :
    Even grammar (.within change r) ↔ Even grammar r :=
  ⟨fun h => by cases h; assumption, .within change⟩

/-- A node is even exactly if its rule is, and if it is of no kind that only chains make. -/
@[simp]
theorem even_node {shape : Shape} {r : Rule σ} : Even grammar (.node shape r) ↔
    Even grammar r ∧ ∀ k, shape = .kind k → k.follows = false :=
  ⟨fun h => by cases h; exact ⟨‹_›, ‹_›⟩, fun h => .node h.1 h.2⟩

/-- A chain is even exactly if its head and its tails are. -/
@[simp]
theorem even_chain {head : Rule σ} {tails : List (Shape × (Tree → Bool) × Rule σ)} :
    Even grammar (.chain head tails) ↔
      Even grammar head ∧ ∀ t ∈ tails, Even grammar t.2.2 :=
  ⟨fun h => by cases h; exact ⟨‹_›, ‹_›⟩, fun h => .chain h.1 h.2⟩

variable {p : Rule σ → Prop} {depth : Nat}

/-- Without more rules, nothing must be open. -/
@[simp]
theorem runs_nil : Runs p depth [] ↔ depth = 0 :=
  ⟨fun h => by cases h; rfl, fun h => h ▸ .nil⟩

/-- The first of several rules is even, or opens a bracket that the others close, or closes one. -/
theorem runs_cons {r : Rule σ} {rules : List (Rule σ)} : Runs p depth (r :: rules) ↔
    p r ∧ Runs p depth rules ∨ r.Reads (·.opens = true) ∧ Runs p (depth + 1) rules ∨
      r.Reads (·.closes = true) ∧ ∃ outer, depth = outer + 1 ∧ Runs p outer rules := by
  constructor
  · intro h
    cases h with
    | inner h hs => exact .inl ⟨h, hs⟩
    | opening h hs => exact .inr (.inl ⟨h, hs⟩)
    | closing h hs => exact .inr (.inr ⟨h, _, rfl, hs⟩)
  · rintro (⟨h, hs⟩ | ⟨h, hs⟩ | ⟨h, _, rfl, hs⟩)
    · exact .inner h hs
    · exact .opening h hs
    · exact .closing h hs

open Classical in
/-- The same with the first case tried first: only where it fails, the others are looked at. -/
@[simp]
theorem runs_cons_ite {r : Rule σ} {rules : List (Rule σ)} : Runs p depth (r :: rules) ↔
    if p r then
      if Runs p depth rules then True
      else r.Reads (·.opens = true) ∧ Runs p (depth + 1) rules ∨
        r.Reads (·.closes = true) ∧ ∃ outer, depth = outer + 1 ∧ Runs p outer rules
    else r.Reads (·.opens = true) ∧ Runs p (depth + 1) rules ∨
      r.Reads (·.closes = true) ∧ ∃ outer, depth = outer + 1 ∧ Runs p outer rules := by
  rw [runs_cons]
  split
  · next h =>
    split
    · next hs => simp [h, hs]
    · next hs => simp [hs]
  · next h => simp [h]

/-- A leaf that is no sign is no bracket. -/
theorem nested_of_ne {kind : Leaf} (h : kind ≠ .mark) (s : List Char) : Nested 0 [(kind, s)] := by
  cases kind with
  | mark => exact absurd rfl h
  | _ => rfl

/-- A sign that opens, closes and quotes nothing is no bracket. -/
theorem nested_of_isPlain {s : List Char} (h : ∀ c ∈ s, isPlain c = true) :
    Nested 0 [(.mark, s)] := by
  have hnone {signs : List String} (hsigns : ∀ sign ∈ signs, sign.toList.all isPlain = false) :
      ¬ signs.any (s == ·.toList) = true := by
    intro hany
    obtain ⟨sign, hsign, heq⟩ := List.any_eq_true.mp hany
    have hplain : sign.toList.all isPlain = true := List.all_eq_true.mpr (eq_of_beq heq ▸ h)
    rw [hsigns sign hsign] at hplain
    contradiction
  have hopens : ¬ Token.opens (.mark, s) = true := hnone (by decide)
  have hcloses : ¬ Token.closes (.mark, s) = true := hnone (by decide)
  rw [Nested, if_neg hopens, if_neg hcloses]
  rfl

/-- A lexeme that is no sign is even if it is spelled as its kind demands. -/
theorem even_lexeme {kind : Leaf} {l : Lexeme} (hkind : kind ≠ .mark) (h : Spells kind l) :
    Even grammar (.lexeme kind l) :=
  .lexeme h fun _ _ => nested_of_ne hkind _

/-- The same with nothing in front. -/
theorem even_glued {kind : Leaf} {l : Lexeme} (hkind : kind ≠ .mark) (h : Spells kind l) :
    Even grammar (.glued kind l) :=
  .glued h fun _ _ => nested_of_ne hkind _

/-- Signs that open, close and quote nothing are even. -/
@[simp]
theorem even_oneOf {wanted : List String} (h : wanted.all (·.toList.all isPlain) = true) :
    Even grammar (.lexeme .mark (oneOf wanted)) := by
  refine .lexeme (spells_oneOf h) fun s hs => ?_
  obtain ⟨w, hw, heq⟩ := take_oneOf hs
  rw [heq]
  exact nested_of_isPlain (List.all_eq_true.mp (List.all_eq_true.mp h w hw))

end Simp

section Vocabulary

variable {grammar : Symbol → Clause}

/-- A word opens nothing. -/
@[simp]
theorem even_word {w : String} (h : w.toList.all isPlain = true) : Even grammar (word w) :=
  even_lexeme (by decide) (spells_keyword h)

/-- A sign that is no bracket opens nothing. -/
@[simp]
theorem even_sign {w : String} (h : w.toList.all isPlain = true) : Even grammar (sign w) :=
  even_oneOf (by rwa [List.all_cons, List.all_nil, Bool.and_true])

/-- A sign that may be the start of a longer one opens nothing if it is no bracket. -/
@[simp]
theorem even_start {w : String} (h : w.toList.all isPlain = true) : Even grammar (start w) := by
  refine .lexeme (spells_exactly h) fun s hs => ?_
  rw [take_exactly hs]
  exact nested_of_isPlain (List.all_eq_true.mp h)

/-- A sign that is an opening bracket reads one. -/
@[simp]
theorem reads_opening {w : String} (h : Token.opens (.mark, w.toList) = true) :
    (sign w).Reads (·.opens = true) := by
  refine ⟨.mark, _, .inl rfl, fun s hs => ?_⟩
  obtain ⟨w', hw', heq⟩ := take_oneOf hs
  rwa [heq, List.mem_singleton.mp hw']

/-- A sign that is a closing bracket reads one. -/
@[simp]
theorem reads_closing {w : String} (h : Token.closes (.mark, w.toList) = true) :
    (sign w).Reads (·.closes = true) := by
  refine ⟨.mark, _, .inl rfl, fun s hs => ?_⟩
  obtain ⟨w', hw', heq⟩ := take_oneOf hs
  rwa [heq, List.mem_singleton.mp hw']

/-- The start of an expression in a template is an opening bracket. -/
@[simp]
theorem reads_hole : (Rule.glued .mark (exactly "$\x7b") : Clause).Reads (·.opens = true) := by
  refine ⟨.mark, _, .inr rfl, fun s hs => ?_⟩
  rw [take_exactly hs]
  decide

/-- A backquote is no bracket. -/
@[simp]
theorem even_backquote : Even grammar (.lexeme .mark (exactly "\x60")) ∧
    Even grammar (.glued .mark (exactly "\x60")) := by
  have hspells : Spells .mark (exactly "\x60") := fun s hs => by
    rw [take_exactly hs]
    exact .inr (.inr (.inl rfl))
  have hbracket (s : List Char) (hs : exactly "\x60" s ≠ 0) :
      Nested 0 [(.mark, s.take (exactly "\x60" s))] := by
    rw [take_exactly hs]
    rfl
  exact ⟨.lexeme hspells hbracket, .glued hspells hbracket⟩

/-- Any text may stand in a template or between tags. -/
@[simp]
theorem even_text (l : Lexeme) : Even grammar (.glued .text l) :=
  even_glued (by decide) fun _ _ => trivial

/-- Operators open nothing. -/
@[simp]
theorem even_operator : Even grammar (.lexeme .mark tightSign) ∧
    Even grammar (.lexeme .mark binarySign) ∧ Even grammar (.lexeme .mark assignSign) ∧
    Even grammar (.lexeme .mark questionSign) := by
  refine ⟨even_oneOf (by decide), even_oneOf (by decide), even_oneOf (by decide),
    .lexeme (fun s hs => ?_) fun s hs => ?_⟩
  · rw [take_questionSign hs]
    have hplain : "?".toList.all isPlain = true := by decide
    exact .inr (.inr (.inr (List.all_eq_true.mp hplain)))
  · rw [take_questionSign hs]
    rfl

/-- A name opens nothing. -/
@[simp]
theorem even_name : Even grammar name :=
  even_lexeme (by decide) (readsName_anyWord.spells rfl)

/-- A name that is not reserved opens nothing. -/
@[simp]
theorem even_nameExcept (words : List String) : Even grammar (nameExcept words) :=
  even_lexeme (by decide) ((readsName_wordExcept _).spells rfl)

/-- The name of a member opens nothing. -/
@[simp]
theorem even_property : Even grammar property :=
  even_lexeme (by decide) (readsName_anyWord.spells rfl)

/-- A private name opens nothing. -/
@[simp]
theorem even_privateName : Even grammar privateName :=
  even_lexeme (by decide) (readsName_hashWord.spells rfl)

/-- A number opens nothing. -/
@[simp]
theorem even_number : Even grammar number :=
  even_lexeme (by decide) spells_number

/-- A string opens nothing, whatever is between its quotes. -/
@[simp]
theorem even_string : Even grammar string :=
  even_lexeme (by decide) spells_stringLiteral

/-- A rule that is referred to by its name is even as a symbol is. -/
@[simp]
theorem even_ref (s : Symbol) : Even grammar (ref s) := .symbol s

/-- Rules that follow one another are even exactly if their brackets are. -/
@[simp]
theorem even_seq {rules : List Clause} : Even grammar (seq rules) ↔ Runs (Even grammar) 0 rules :=
  even_sequence

/-- The first of several rules is even exactly if each of them is. -/
@[simp]
theorem even_alt {rules : List Clause} : Even grammar (alt rules) ↔ ∀ r ∈ rules, Even grammar r :=
  even_either

/-- A rule that may be left out is even exactly if it is by itself. -/
@[simp]
theorem even_opt {r : Clause} : Even grammar (opt r) ↔ Even grammar r := even_optional

/-- A place without a line break opens nothing. -/
@[simp]
theorem even_unbroken (e : Ending) : Even grammar (unbroken e) := .test _

/-- What must follow opens nothing. -/
@[simp]
theorem even_next (p : List Char → Bool) : Even grammar (next p) := .test _

/-- In brackets a rule is even exactly if it is by itself. -/
@[simp]
theorem even_enclosed {r : Clause} : Even grammar (enclosed r) ↔ Even grammar r := even_within

/-- Where no statement can end a rule is even exactly if it is by itself. -/
@[simp]
theorem even_unended {r : Clause} : Even grammar (unended r) ↔ Even grammar r := even_within

/-- Where a statement may end a rule is even exactly if it is by itself. -/
@[simp]
theorem even_ended {r : Clause} : Even grammar (ended r) ↔ Even grammar r := even_within

/-- A node of no kind of its own is even exactly if the brackets of its rules are. -/
@[simp]
theorem even_other {rules : List Clause} :
    Even grammar (other rules) ↔ Runs (Even grammar) 0 rules := by
  rw [other, node, even_node, even_sequence]
  refine and_iff_left fun k hk => ?_
  cases hk
  rfl

/-- A semicolon, written or not, opens nothing. -/
@[simp]
theorem even_semicolon (e : Ending) : Even grammar (semicolon e) := by
  simp +decide [semicolon]

/-- What stands in brackets is even if the brackets are. -/
@[simp]
theorem even_between {opening closing : String} {r : Clause}
    (hopening : Token.opens (.mark, opening.toList) = true)
    (hclosing : Token.closes (.mark, closing.toList) = true) :
    Even grammar (between opening closing r) ↔ Even grammar r := by
  rw [between, even_seq, runs_cons]
  constructor
  · -- What stands between the brackets is no bracket.
    have hinner {depth : Nat} (h : Runs (Even grammar) depth [enclosed r, sign closing]) :
        Even grammar r := by
      rcases runs_cons.mp h with ⟨h, -⟩ | ⟨⟨_, _, h | h, -⟩, -⟩ | ⟨⟨_, _, h | h, -⟩, -⟩
      · exact even_enclosed.mp h
      all_goals cases h
    rintro (⟨-, h⟩ | ⟨-, h⟩ | ⟨-, outer, -, h⟩) <;> exact hinner h
  · intro h
    refine .inr (.inl ⟨reads_opening hopening, .inner (even_enclosed.mpr h) ?_⟩)
    exact .closing (reads_closing hclosing) .nil

/-- A list with commas is even if its items are. -/
@[simp]
theorem even_commaList {r : Clause} (h : Even grammar r) : Even grammar (commaList r) := by
  simp +decide [commaList, h]

/-- A list with holes is even if its items are. -/
@[simp]
theorem even_holeList {r : Clause} (h : Even grammar r) : Even grammar (holeList r) := by
  have hremark : Even grammar (.lexeme .remark remark) := even_lexeme (by decide) fun _ _ => trivial
  simp +decide [holeList, remarks, hremark, h]

/-- A modifier opens nothing. -/
@[simp]
theorem even_modifier {w : String} (h : w.toList.all isPlain = true) :
    Even grammar (modifier w) := by
  simp [modifier, h]

end Vocabulary

/-! ## The rules of scripts -/

section Rules

variable {grammar : Symbol → Clause}

/-- The rule of a key is even; a computed one stands in brackets. -/
@[simp]
theorem even_propertyName : Even grammar propertyName := by
  simp +decide [propertyName, node]

/-- The rule of expressions with commas is even. -/
@[simp]
theorem even_expressions : Even grammar expressions := by
  simp +decide [expressions, tail]

/-- The rule of a type behind a colon is even. -/
@[simp]
theorem even_typeAnnotation : Even grammar typeAnnotation := by
  simp +decide [ typeAnnotation]

/-- The rule of a first value is even. -/
@[simp]
theorem even_initializer : Even grammar initializer := by
  simp +decide [initializer]

/-- The rule of the type of a result is even. -/
@[simp]
theorem even_resultType : Even grammar resultType := by
  simp +decide [resultType]

/-- The rule of parameters and a result is even. -/
@[simp]
theorem even_signature : Even grammar signature := by
  simp +decide [signature]

/-- The rule of type arguments is even; angle brackets do not count. -/
theorem even_typeArguments : Even grammar typeArguments := by
  simp +decide [typeArguments, node]

/-- The rule of type parameters is even; angle brackets do not count. -/
theorem even_typeParameters : Even grammar typeParameters := by
  simp +decide [typeParameters]

/-- The rule of an index is even. -/
@[simp]
theorem even_indexSignature : Even grammar indexSignature := by
  simp +decide [indexSignature, indexKey]

/-- The rule of a type that is a template is even. -/
@[simp]
theorem even_templateType : Even grammar templateType := by
  simp +decide [templateType]

/-- The rule of a type without operators is even. -/
@[simp]
theorem even_typePrimary : Even grammar typePrimary := by
  simp +decide [typePrimary, tupleElement, typeQuery, tail]

/-- The rules of types that others refer to are even. -/
theorem even_types : Even grammar type ∧ Even grammar typeOperand ∧ Even grammar objectType := by
  simp +decide [type, typeOperand, objectType, functionType, typeMember, memberModifiers]

/-- The rule of what a part of a value is given to is even. -/
@[simp]
theorem even_targetElement : Even grammar targetElement := by
  simp +decide [targetElement, tail]

/-- The rule of a pattern for objects is even. -/
@[simp]
theorem even_objectPattern : Even grammar objectPattern := by
  simp +decide [objectPattern]

/-- The rule of a pattern for arrays is even. -/
@[simp]
theorem even_arrayPattern : Even grammar arrayPattern := by
  simp +decide [arrayPattern]

/-- The rule of a decorator is even. -/
@[simp]
theorem even_decorator : Even grammar decorator := by
  simp +decide [decorator, tail, node]

/-- The rule of a method up to its body is even. -/
@[simp]
theorem even_methodHead : Even grammar methodHead := by
  simp +decide [methodHead]

/-- The rule of a slot is even. -/
@[simp]
theorem even_slot : Even grammar slot := by
  have hshorthand : Even grammar (.lexeme .shorthand anyWord) :=
    even_lexeme (by decide) (readsName_anyWord.spells rfl)
  simp +decide [slot, node, hshorthand]

/-- The rule of an object literal is even. -/
@[simp]
theorem even_object : Even grammar object := by
  simp +decide [object, node]

/-- The rule of what a class extends is even. -/
@[simp]
theorem even_heritage : Even grammar heritage := by
  simp +decide [heritage]

/-- The rule of an expression in brackets is even. -/
@[simp]
theorem even_group : Even grammar group := by
  simp +decide [group, node]

/-- The rule of an instance is even. -/
@[simp]
theorem even_newExpression : Even grammar newExpression := by
  simp +decide [newExpression, tail]

/-- The rule of an arrow function is even. -/
@[simp]
theorem even_arrowFunction : Even grammar arrowFunction := by
  simp +decide [arrowFunction, arrowHead]

/-- The rule of arguments is even. -/
theorem even_arguments : Even grammar arguments := by
  simp +decide [arguments, node]

/-- The rule of a template is even; its expressions are in brackets. -/
theorem even_template : Even grammar template := by
  simp +decide [template, node]

/-- The rules of operators and of what calls and members are made of are even. -/
theorem even_operators : Even grammar expression ∧ (∀ d, Even grammar (operand d)) ∧
    Even grammar term ∧ Even grammar access := by
  refine ⟨?_, fun d => ?_, ?_, ?_⟩
  · simp +decide [expression, branches, tail]
  · cases d <;> simp +decide [operand, unarySign, operation, tail]
  · simp +decide [term, tail]
  · simp +decide [access, tail]

/-- The rule of a class from its keyword on is even. -/
@[simp]
theorem even_classRest : Even grammar classRest := by
  simp +decide [classRest]

/-- The rule of an array literal is even. -/
@[simp]
theorem even_array : Even grammar array := by
  simp +decide [array, node]

/-- The rule of a pattern that is assigned to is even. -/
@[simp]
theorem even_assignedPattern : Even grammar assignedPattern := by
  simp +decide [assignedPattern, node]

/-- The rule of what members and calls may follow is even. -/
theorem even_primary (d : Dialect) : Even grammar (primary d) := by
  have hpattern : Even grammar (.lexeme .pattern regularPattern) :=
    even_lexeme (by decide) fun _ _ => trivial
  have hundefined : Even grammar (.lexeme .undefined (keyword "undefined")) :=
    even_lexeme (by decide) spells_undefined
  have hnumber : Even grammar (.lexeme .number numeral) := even_number
  have hstring : Even grammar (.lexeme .string stringLiteral) := even_string
  cases d <;> simp +decide [primary, functionExpression, classExpression, hpattern, hundefined,
    hnumber, hstring]

/-- The rule of a parameter is even. -/
@[simp]
theorem even_parameter : Even grammar parameter := by
  simp +decide [parameter]

/-- The rules of names that are bound and of parameters are even. -/
theorem even_names : Even grammar binding ∧ Even grammar parameters := by
  simp +decide [binding, parameters, node]

/-- The rule of the body of a class is even. -/
theorem even_classBody : Even grammar classBody := by
  simp +decide [classBody, classMember, classModifiers]

/-- The rule of the name of a tag is even. -/
@[simp]
theorem even_tagNames : Even grammar tagNames := by
  have hname : Even grammar (.lexeme .word tagName) :=
    even_lexeme (by decide) (readsName_tagName.spells rfl)
  simp +decide [tagNames, hname]

/-- The rule of an expression inside of a tag is even. -/
@[simp]
theorem even_tagHole : Even grammar tagHole := by
  simp +decide [tagHole]

/-- The rule of an attribute of a tag is even. -/
@[simp]
theorem even_tagAttribute : Even grammar tagAttribute := by
  have hstring : Even grammar (.lexeme .string tagString) :=
    even_lexeme (by decide) spells_tagString
  simp +decide [tagAttribute, hstring]

/-- The rule of a tag is even; angle brackets do not count. -/
theorem even_tag : Even grammar tag := by
  simp +decide [tag]

/-! ### Statements -/

/-- The rule of names in braces is even. -/
@[simp]
theorem even_nameList : Even grammar nameList := by
  simp +decide [nameList, listedName, exportedName]

/-- The rule of all names of a module is even. -/
@[simp]
theorem even_allNames : Even grammar Grammar.allNames := by
  simp +decide [Grammar.allNames, exportedName]

/-- The rule of where names come from is even. -/
@[simp]
theorem even_fromModule : Even grammar fromModule := by
  simp +decide [fromModule]

/-- The rule of the word in front of declarators is even. -/
@[simp]
theorem even_declarationWord : Even grammar declarationWord := by
  simp +decide [declarationWord]

/-- The rule of an import is even. -/
@[simp]
theorem even_importStatement : Even grammar importStatement := by
  simp +decide [importStatement]

/-- The rule of an export is even. -/
@[simp]
theorem even_exportStatement : Even grammar exportStatement := by
  simp +decide [exportStatement]

/-- The rule of the head of a loop is even. -/
@[simp]
theorem even_loopHead : Even grammar loopHead := by
  simp +decide [loopHead, loopDeclarators]

/-- The rule of what follows an attempt is even. -/
@[simp]
theorem even_attemptEnd : Even grammar attemptEnd := by
  simp +decide [attemptEnd]

/-- The rule of a word that may go on with the name of a label is even. -/
@[simp]
theorem even_jump {w : String} (h : w.toList.all isPlain = true) : Even grammar (jump w) := by
  simp +decide [jump, h]

/-- The rule of a statement is even. -/
theorem even_statement : Even grammar statement := by
  simp +decide [statement, condition, switchCase, expressionStatement]

/-- The rule of a declared function is even. -/
@[simp]
theorem even_functionDeclaration : Even grammar functionDeclaration := by
  simp +decide [functionDeclaration]

/-- The rule of a declared class is even. -/
@[simp]
theorem even_classDeclaration : Even grammar classDeclaration := by
  simp +decide [classDeclaration]

/-- The rule of a declared type is even. -/
@[simp]
theorem even_typeDeclaration : Even grammar typeDeclaration := by
  simp +decide [typeDeclaration]

/-- The rule of a declared interface is even. -/
@[simp]
theorem even_interfaceDeclaration : Even grammar interfaceDeclaration := by
  simp +decide [interfaceDeclaration]

/-- The rule of a declared enumeration is even. -/
@[simp]
theorem even_enumDeclaration : Even grammar enumDeclaration := by
  simp +decide [enumDeclaration]

/-- The rule of a declared namespace is even. -/
@[simp]
theorem even_namespaceDeclaration : Even grammar namespaceDeclaration := by
  simp +decide [namespaceDeclaration]

/-- The rule of another name for a member of a namespace is even. -/
@[simp]
theorem even_importAlias : Even grammar importAlias := by
  simp +decide [importAlias, dottedName]

/-- The rules of blocks and declarations are even. -/
theorem even_declarations : Even grammar block ∧ Even grammar declarators ∧
    Even grammar declaration := by
  refine ⟨?_, ?_, ?_⟩
  · simp +decide [block]
  · simp +decide [declarators]
  · simp +decide [declaration]

end Rules

variable {d : Dialect}

/-- Every rule of the grammar is even. -/
theorem even_rules (d : Dialect) (s : Symbol) : Even (rules d) (rules d s) := by
  cases s with
  | statement => exact even_statement
  | block => exact even_declarations.1
  | declarators => exact even_declarations.2.1
  | declaration => exact even_declarations.2.2
  | expression => exact even_operators.1
  | operand => exact even_operators.2.1 d
  | term => exact even_operators.2.2.1
  | access => exact even_operators.2.2.2
  | primary => exact even_primary d
  | arguments => exact even_arguments
  | template => exact even_template
  | binding => exact even_names.1
  | parameters => exact even_names.2
  | signature => exact even_signature
  | classBody => exact even_classBody
  | propertyName => exact even_propertyName
  | tag => exact even_tag
  | type => exact even_types.1
  | typeOperand => exact even_types.2.1
  | typeArguments => exact even_typeArguments
  | typeParameters => exact even_typeParameters
  | objectType => exact even_types.2.2

/-- The grammar as a whole is even. -/
theorem even_script : Even (rules d) Grammar.script := by
  have hhashbang : Even (rules d) (.glued .trivia hashbang) :=
    even_glued (by decide) fun _ _ => trivial
  simp [Grammar.script, hhashbang]

/-- The leaves of a script close what they open, and are spelled as they should be. -/
theorem isEven_parse? {s : List Char} {script : Tree} (h : parse? d s = some script) :
    IsEven 0 script.tokens := by
  unfold parse? at h
  split at h
  · next ts rest hread =>
    split at h
    · cases h
      have hts := Rule.isEven_read (even_rules d) _ even_script _ _ _ _ hread
      rw [Tree.tokens, tokensOf_append]
      exact hts.append (Reading.isEven_triviaLeaf _ _)
    · contradiction
  · contradiction

/-- The nodes of a script close behind their first child whatever they open there. -/
theorem evenTails_parse? {s : List Char} {script : Tree} (h : parse? d s = some script) :
    script.Every evenTails := by
  unfold parse? at h
  split at h
  · next ts rest hread =>
    split at h
    · cases h
      have hsound := sound_of_even (even_rules d) (even_script (d := d))
      have hts := Rule.every_read open_evenTails (fun s => sound_of_even (even_rules d) (even_rules d s))
        _ hsound _ _ _ _ hread
      exact ⟨evenTails_of_not_follows rfl _,
        everyOf_append.mpr ⟨hts, Reading.every_triviaLeaf _ _⟩⟩
    · contradiction
  · contradiction

end Crossing.Script
