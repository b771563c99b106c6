import Crossing.Proofs.Script.Gives
import Crossing.Script.Reader

/-!
# The layout of scripts

What the grammar of scripts makes of calls, members and arguments: a call has its arguments, their
types, a template or the sign `?.` right behind what it calls, a member has a dot and a name, and
arguments stand in brackets. `every_parse?` says so of each script.
-/

namespace Crossing.Script

open Grammar

/-- What follows the callee of a call. -/
def IsCallPart (t : Tree) : Prop :=
  t.hasKind .arguments = true ∨ t.hasKind .typeArguments = true ∨ t.hasKind .template = true ∨
    t = .leaf .mark "?.".toList

/-- The sign in front of the name of a member. -/
def IsDot (t : Tree) : Prop :=
  t = .leaf .mark ".".toList ∨ t = .leaf .mark "?.".toList

/-- The name of a member. -/
def IsName (t : Tree) : Prop :=
  ∃ s, t = .leaf .property s ∨ t = .leaf .privateName s

/-- What follows the receiver of a member: a dot and a name. -/
def IsMemberTail (ts : List Tree) : Prop :=
  ∃ dots names, ts = dots ++ names ∧ Lone IsDot dots ∧ Lone IsName names

/-- The children of the nodes of a script, as far as questions about calls need them. -/
def layout : Layout
  | .call, _ :: rest => Leads IsCallPart rest
  | .member, _ :: rest => IsMemberTail rest
  | .call, [] | .member, [] => False
  | .arguments, ts => ∃ inner, ts = .leaf .mark "(".toList :: (inner ++ [.leaf .mark ")".toList])
  | .typeArguments, ts => ∃ inner, ts = .leaf .mark "<".toList :: inner
  | .template, ts => ∃ inner, ts = .leaf .mark "\x60".toList :: inner
  | _, _ => True

/-- Operations keep the layout. -/
theorem open_layout : layout.Open where
  other _ := trivial
  rebase := by
    intro k base rest hk h first
    cases k with
    | call => exact h
    | member => exact h
    | arguments => exact absurd hk (by decide)
    | typeArguments => exact absurd hk (by decide)
    | template => exact absurd hk (by decide)
    | _ => trivial

/-! ## Rules, taken apart -/

section Simp

variable {σ : Type} {L : Layout} {grammar : σ → Rule σ}

/-- A leaf has no children to lay out. -/
@[simp]
theorem sound_lexeme (leaf : Leaf) (l : Lexeme) : Sound L grammar (.lexeme leaf l) := .lexeme leaf l

/-- A leaf without a gap in front has no children to lay out. -/
@[simp]
theorem sound_glued (leaf : Leaf) (l : Lexeme) : Sound L grammar (.glued leaf l) := .glued leaf l

/-- A test gives no trees. -/
@[simp]
theorem sound_test (p : Mode → List Char → Bool) : Sound L grammar (.test p) := .test p

/-- Looking ahead gives no trees. -/
@[simp]
theorem sound_ahead (r : Rule σ) : Sound L grammar (.ahead r) := .ahead r

/-- Looking for what must not follow gives no trees. -/
@[simp]
theorem sound_without (r : Rule σ) : Sound L grammar (.without r) := .without r

/-- A rule that is referred to is sound if the grammar is, which is shown for its own rule. -/
@[simp]
theorem sound_symbol (s : σ) : Sound L grammar (.symbol s) := .symbol s

/-- A sequence is sound exactly if its rules are. -/
@[simp]
theorem sound_sequence {rules : List (Rule σ)} :
    Sound L grammar (.sequence rules) ↔ ∀ r ∈ rules, Sound L grammar r :=
  ⟨fun h => by cases h; assumption, .sequence⟩

/-- A choice is sound exactly if its rules are. -/
@[simp]
theorem sound_either {rules : List (Rule σ)} :
    Sound L grammar (.either rules) ↔ ∀ r ∈ rules, Sound L grammar r :=
  ⟨fun h => by cases h; assumption, .either⟩

/-- A repetition is sound exactly if its rule is. -/
@[simp]
theorem sound_many {r : Rule σ} : Sound L grammar (.many r) ↔ Sound L grammar r :=
  ⟨fun h => by cases h; assumption, .many⟩

/-- A rule that may be left out is sound exactly if it is by itself. -/
@[simp]
theorem sound_optional {r : Rule σ} : Sound L grammar (.optional r) ↔ Sound L grammar r :=
  ⟨fun h => by cases h; assumption, .optional⟩

/-- A rule in another mode is sound exactly if it is by itself. -/
@[simp]
theorem sound_within {change : Mode → Mode} {r : Rule σ} :
    Sound L grammar (.within change r) ↔ Sound L grammar r :=
  ⟨fun h => by cases h; assumption, .within change⟩

/-- A node is sound exactly if its rule is, and gives the children that its kind demands. -/
@[simp]
theorem sound_node {shape : Shape} {r : Rule σ} :
    Sound L grammar (.node shape r) ↔ Sound L grammar r ∧
      ∀ k, shape = .kind k → Gives grammar r fun ts => L k (Reading.splitTrivia ts).2 :=
  ⟨fun h => by cases h; exact ⟨‹_›, ‹_›⟩, fun h => .node h.1 h.2⟩

/-- A chain is sound exactly if its head and its tails are, and the tails give what the kinds of
their nodes demand behind the first child. -/
@[simp]
theorem sound_chain {head : Rule σ} {tails : List (Shape × (Tree → Bool) × Rule σ)} :
    Sound L grammar (.chain head tails) ↔ Sound L grammar head ∧
      (∀ t ∈ tails, Sound L grammar t.2.2) ∧ ∀ t ∈ tails, ∀ k, t.1 = .kind k →
        Gives grammar t.2.2 fun ts => ∀ base, L k (base :: ts) :=
  ⟨fun h => by cases h; exact ⟨‹_›, ‹_›, ‹_›⟩, fun h => .chain h.1 h.2.1 h.2.2⟩

/-- A rule gives something. -/
@[simp]
theorem gives_true (r : Rule σ) : Gives grammar r (fun _ => True) ↔ True :=
  iff_true_intro (gives_any r)

end Simp

section Vocabulary

variable {L : Layout} {grammar : Symbol → Clause}

/-- A rule that is referred to by its name is sound as a symbol is. -/
@[simp]
theorem sound_ref (s : Symbol) : Sound L grammar (ref s) := .symbol s

/-- Rules that follow one another are sound exactly if each of them is. -/
@[simp]
theorem sound_seq {rules : List Clause} :
    Sound L grammar (seq rules) ↔ ∀ r ∈ rules, Sound L grammar r :=
  sound_sequence

/-- The first of several rules is sound exactly if each of them is. -/
@[simp]
theorem sound_alt {rules : List Clause} :
    Sound L grammar (alt rules) ↔ ∀ r ∈ rules, Sound L grammar r :=
  sound_either

/-- A rule that may be left out is sound exactly if it is by itself. -/
@[simp]
theorem sound_opt {r : Clause} : Sound L grammar (opt r) ↔ Sound L grammar r := sound_optional

/-- A word has no children to lay out. -/
@[simp]
theorem sound_word (w : String) : Sound L grammar (word w) := .lexeme _ _

/-- A sign has no children to lay out. -/
@[simp]
theorem sound_sign (w : String) : Sound L grammar (sign w) := .lexeme _ _

/-- A sign that may be the start of a longer one has no children to lay out. -/
@[simp]
theorem sound_start (w : String) : Sound L grammar (start w) := .lexeme _ _

/-- A name has no children to lay out. -/
@[simp]
theorem sound_name : Sound L grammar name := .lexeme _ _

/-- A name that is not reserved has no children to lay out. -/
@[simp]
theorem sound_nameExcept (words : List String) : Sound L grammar (nameExcept words) := .lexeme _ _

/-- The name of a member has no children to lay out. -/
@[simp]
theorem sound_property : Sound L grammar property := .lexeme _ _

/-- A private name has no children to lay out. -/
@[simp]
theorem sound_privateName : Sound L grammar privateName := .lexeme _ _

/-- A number has no children to lay out. -/
@[simp]
theorem sound_number : Sound L grammar number := .lexeme _ _

/-- A string has no children to lay out. -/
@[simp]
theorem sound_string : Sound L grammar string := .lexeme _ _

/-- A place without a line break gives no trees. -/
@[simp]
theorem sound_unbroken (e : Ending) : Sound L grammar (unbroken e) := .test _

/-- What must follow gives no trees. -/
@[simp]
theorem sound_next (p : List Char → Bool) : Sound L grammar (next p) := .test _

/-- A semicolon, written or not, is sound. -/
@[simp]
theorem sound_semicolon (e : Ending) : Sound L grammar (semicolon e) := by simp [semicolon]

/-- In brackets a rule is sound exactly if it is by itself. -/
@[simp]
theorem sound_enclosed {r : Clause} : Sound L grammar (enclosed r) ↔ Sound L grammar r := sound_within

/-- Where no statement can end a rule is sound exactly if it is by itself. -/
@[simp]
theorem sound_unended {r : Clause} : Sound L grammar (unended r) ↔ Sound L grammar r := sound_within

/-- Where a statement may end a rule is sound exactly if it is by itself. -/
@[simp]
theorem sound_ended {r : Clause} : Sound L grammar (ended r) ↔ Sound L grammar r := sound_within

/-- A rule between two signs is sound exactly if it is by itself. -/
@[simp]
theorem sound_between {opening closing : String} {r : Clause} :
    Sound L grammar (between opening closing r) ↔ Sound L grammar r := by simp [between]

/-- A list with commas is sound exactly if the rule of its items is. -/
@[simp]
theorem sound_commaList {r : Clause} : Sound L grammar (commaList r) ↔ Sound L grammar r := by
  simp [commaList]

/-- A list with holes is sound exactly if the rule of its items is. -/
@[simp]
theorem sound_holeList {r : Clause} : Sound L grammar (holeList r) ↔ Sound L grammar r := by
  simp [holeList, remarks]

/-- A node of no kind of its own is sound exactly if its rules are. -/
@[simp]
theorem sound_other {rules : List Clause} (hL : L.Open) :
    Sound L grammar (other rules) ↔ ∀ r ∈ rules, Sound L grammar r := by
  refine ⟨fun h => sound_sequence.mp (sound_node.mp h).1, fun h => ?_⟩
  refine sound_node.mpr ⟨sound_sequence.mpr h, ?_⟩
  rintro k ⟨⟩
  exact (gives_any _).imp fun ts _ => hL.other _

/-- A modifier is sound. -/
@[simp]
theorem sound_modifier (w : String) : Sound L grammar (modifier w) := by simp [modifier]

end Vocabulary

/-! ## The rules of scripts -/

variable {d : Dialect}

/-- Arguments are a node that starts with its opening bracket and ends with its closing one. -/
theorem gives_between (opening closing : String) (r : Clause) :
    Gives (rules d) (between opening closing r) fun ts => ∃ s inner, ts = gapOf s ++
      .leaf .mark opening.toList :: (inner ++ [.leaf .mark closing.toList]) := by
  refine (gives_sequence_cons (gives_sign opening) (gives_sequence_cons (gives_any _)
    (gives_sequence_singleton (gives_sign closing)))).imp ?_
  rintro ts ⟨_, _, rfl, ⟨s, _, rfl, -, rfl⟩, inner, _, rfl, -, s', _, rfl, -, rfl⟩
  exact ⟨s, inner ++ gapOf s', by simp⟩

/-- Arguments are one node. -/
theorem gives_arguments :
    Gives (rules d) (.symbol .arguments) (Lone fun t => t.hasKind .arguments = true) :=
  gives_symbol (gives_node (gives_leads (gives_sign "(")))

/-- The types of a call are one node. -/
theorem gives_typeArguments :
    Gives (rules d) (.symbol .typeArguments) (Lone fun t => t.hasKind .typeArguments = true) :=
  gives_symbol (gives_node (gives_leads (gives_start "<")))

/-- A template is one node. -/
theorem gives_template :
    Gives (rules d) (.symbol .template) (Lone fun t => t.hasKind .template = true) :=
  gives_symbol (gives_node (gives_leads (gives_start "\x60")))

/-- Arguments make a call, whatever follows them. -/
@[simp]
theorem gives_call_arguments (rs : List Clause) :
    Gives (rules d) (seq (ref .arguments :: rs)) (Leads IsCallPart) :=
  gives_leads (gives_arguments.imp fun _ h => h.imp fun _ => .inl)

/-- Types in angle brackets make a call, whatever follows them. -/
@[simp]
theorem gives_call_typeArguments (rs : List Clause) :
    Gives (rules d) (seq (ref .typeArguments :: rs)) (Leads IsCallPart) :=
  gives_leads (gives_typeArguments.imp fun _ h => h.imp fun _ ht => .inr (.inl ht))

/-- A template makes a call. -/
@[simp]
theorem gives_call_template (rs : List Clause) :
    Gives (rules d) (seq (ref .template :: rs)) (Leads IsCallPart) :=
  gives_leads (gives_template.imp fun _ h => h.imp fun _ ht => .inr (.inr (.inl ht)))

/-- The sign that asks whether there is something to call makes a call. -/
@[simp]
theorem gives_call_sign (rs : List Clause) :
    Gives (rules d) (seq (sign "?." :: rs)) (Leads IsCallPart) :=
  gives_leads ((gives_sign "?.").imp fun _ h => h.imp fun _ ht => .inr (.inr (.inr ht)))

/-- Types in angle brackets may be left out. -/
@[simp]
theorem gives_call_optional :
    Gives (rules d) (seq [opt (ref .typeArguments), ref .arguments]) (Leads IsCallPart) :=
  gives_leads_optional (gives_typeArguments.imp fun _ h => h.imp fun _ ht => .inr (.inl ht))
    (gives_call_arguments [])

/-- Arguments alone make a call. -/
@[simp]
theorem gives_call_alone : Gives (rules d) (ref .arguments) (Leads IsCallPart) :=
  gives_arguments.imp fun ts h => by
    have hpart : Lone IsCallPart ts := h.imp fun _ => .inl
    have hleads := hpart.leads_append []
    rwa [List.append_nil] at hleads

/-- The name of a member is a name. -/
theorem gives_property : Gives (rules d) property (Lone IsName) :=
  gives_lexeme (by decide) fun _ _ => ⟨_, .inl rfl⟩

/-- A name with a hash is a name of a member too. -/
theorem gives_anyName : Gives (rules d) (alt [property, privateName]) (Lone IsName) := by
  refine gives_either fun r hr => ?_
  simp only [List.mem_cons, List.not_mem_nil, or_false] at hr
  rcases hr with rfl | rfl
  · exact gives_property
  · exact gives_lexeme (by decide) fun _ _ => ⟨_, .inr rfl⟩

/-- A dot is a dot. -/
theorem gives_dot : Gives (rules d) (sign ".") (Lone IsDot) :=
  (gives_sign ".").imp fun _ h => h.imp fun _ => .inl

/-- A dot may ask whether there is a value. -/
theorem gives_anyDot : Gives (rules d) (alt [sign ".", sign "?."]) (Lone IsDot) := by
  refine gives_either fun r hr => ?_
  simp only [List.mem_cons, List.not_mem_nil, or_false] at hr
  rcases hr with rfl | rfl
  · exact gives_dot
  · exact (gives_sign "?.").imp fun _ h => h.imp fun _ => .inr

/-- A dot and a name make a member. -/
theorem gives_memberTail {dot name : Clause} (hdot : Gives (rules d) dot (Lone IsDot))
    (hname : Gives (rules d) name (Lone IsName)) :
    Gives (rules d) (seq [dot, name]) IsMemberTail := by
  refine (gives_sequence_cons hdot (gives_sequence_singleton hname)).imp ?_
  rintro ts ⟨dots, names, rfl, hdots, hnames⟩
  exact ⟨dots, names, rfl, hdots, hnames⟩

/-- A dot and the name of a member are the tail of one. -/
@[simp]
theorem gives_member_property : Gives (rules d) (seq [sign ".", property]) IsMemberTail :=
  gives_memberTail gives_dot gives_property

/-- A dot and a name that may be private are the tail of a member. -/
@[simp]
theorem gives_member_anyName :
    Gives (rules d) (seq [sign ".", alt [property, privateName]]) IsMemberTail :=
  gives_memberTail gives_dot gives_anyName

/-- Either dot and a name that may be private are the tail of a member. -/
@[simp]
theorem gives_member_any :
    Gives (rules d) (seq [alt [sign ".", sign "?."], alt [property, privateName]]) IsMemberTail :=
  gives_memberTail gives_anyDot gives_anyName

/-- Arguments stand in their brackets. -/
@[simp]
theorem sound_arguments : Sound layout (rules d) arguments := by
  refine sound_node.mpr ⟨by simp [open_layout], ?_⟩
  rintro k ⟨⟩
  refine (gives_between "(" ")" _).imp ?_
  rintro ts ⟨s, inner, rfl⟩
  exact ⟨inner, by rw [splitTrivia_gapOf s rfl]⟩

/-- The rule of expressions with commas is sound. -/
@[simp]
theorem sound_expressions : Sound layout (rules d) expressions := by
  simp [expressions, tail, layout]

/-- A sequence that starts with a run of characters gives trees that start with its mark. -/
theorem gives_opening (opening : String) (rs : List Clause) :
    Gives (rules d) (seq (start opening :: rs)) fun ts =>
      ∃ inner, (Reading.splitTrivia ts).2 = .leaf .mark opening.toList :: inner := by
  refine (gives_sequence_cons (gives_start opening) (gives_any _)).imp ?_
  rintro ts ⟨_, rest, rfl, ⟨s, _, rfl, -, rfl⟩, -⟩
  exact ⟨rest, by rw [List.append_assoc, List.singleton_append, splitTrivia_gapOf s rfl]⟩

/-- The types of a call start with an angle bracket. -/
@[simp]
theorem sound_typeArguments : Sound layout (rules d) typeArguments := by
  refine sound_node.mpr ⟨by simp, ?_⟩
  rintro k ⟨⟩
  exact gives_opening "<" _

/-- A template starts with a backquote. -/
@[simp]
theorem sound_template : Sound layout (rules d) template := by
  refine sound_node.mpr ⟨by simp, ?_⟩
  rintro k ⟨⟩
  exact gives_opening "\x60" _

/-! ### Types -/

/-- The rule of the type of a result is sound. -/
@[simp]
theorem sound_resultType : Sound layout (rules d) resultType := by
  simp [resultType]

/-- The rule of parameters and a result is sound. -/
@[simp]
theorem sound_signature : Sound layout (rules d) signature := by
  simp [signature]

/-- The rule of a type behind a colon is sound. -/
@[simp]
theorem sound_typeAnnotation : Sound layout (rules d) typeAnnotation := by
  simp [ typeAnnotation]

/-- The rule of an index is sound. -/
@[simp]
theorem sound_indexSignature : Sound layout (rules d) indexSignature := by
  simp [indexSignature, indexKey]

/-- The rule of a type without operators is sound. -/
@[simp]
theorem sound_typePrimary : Sound layout (rules d) typePrimary := by
  simp [typePrimary, tupleElement, templateType, typeQuery, tail, layout]

/-- The rules of types that others refer to are sound. -/
theorem sound_types : Sound layout (rules d) type ∧ Sound layout (rules d) typeOperand ∧
    Sound layout (rules d) typeParameters ∧ Sound layout (rules d) objectType := by
  simp [type, typeOperand, typeParameters, objectType, functionType, typeMember, memberModifiers]

/-! ### Expressions -/

/-- The rule of what a part of a value is given to is sound. -/
@[simp]
theorem sound_targetElement : Sound layout (rules d) targetElement := by
  simp [targetElement, tail, layout]

/-- The rule of a first value is sound. -/
@[simp]
theorem sound_initializer : Sound layout (rules d) initializer := by
  simp [initializer]

/-- The rule of a pattern for objects is sound. -/
@[simp]
theorem sound_objectPattern : Sound layout (rules d) objectPattern := by
  simp [objectPattern]

/-- The rule of a pattern for arrays is sound. -/
@[simp]
theorem sound_arrayPattern : Sound layout (rules d) arrayPattern := by
  simp [arrayPattern]

/-- The rule of a decorator is sound; its calls and members are laid out as all are. -/
@[simp]
theorem sound_decorator : Sound layout (rules d) decorator := by
  simp [decorator, tail, layout, node]

/-- The rule of an object literal is sound. -/
@[simp]
theorem sound_object : Sound layout (rules d) object := by
  simp [object, slot, methodHead, layout, node, open_layout]

/-- The rule of what a class extends is sound. -/
@[simp]
theorem sound_heritage : Sound layout (rules d) heritage := by
  simp [heritage]

/-- The rule of an expression in brackets is sound. -/
@[simp]
theorem sound_group : Sound layout (rules d) group := by
  simp [group, layout, node]

/-- The rule of an instance is sound; the members in it are laid out as all are. -/
@[simp]
theorem sound_newExpression : Sound layout (rules d) newExpression := by
  simp [newExpression, tail, layout, open_layout]

/-- The rule of an arrow function is sound. -/
@[simp]
theorem sound_arrowFunction : Sound layout (rules d) arrowFunction := by
  simp [arrowFunction, arrowHead, open_layout]

/-- The rules of operators and of what calls and members are made of are sound. -/
theorem sound_operators : Sound layout (rules d) expression ∧ Sound layout (rules d) (operand d) ∧
    Sound layout (rules d) term ∧ Sound layout (rules d) access := by
  simp [expression, operand, term, access, branches, unarySign, operation, tail, layout, open_layout]

/-- The rule of what members and calls may follow is sound. -/
theorem sound_primary : Sound layout (rules d) (primary d) := by
  cases d <;> simp [primary, array, assignedPattern, functionExpression, classExpression,
    classRest, node, layout, open_layout]

/-- The rules of names that are bound, of parameters and of keys are sound. -/
theorem sound_names : Sound layout (rules d) binding ∧ Sound layout (rules d) parameters ∧
    Sound layout (rules d) propertyName := by
  simp [binding, parameters, parameter, propertyName, node, layout]

/-- The rule of the body of a class is sound. -/
theorem sound_classBody : Sound layout (rules d) classBody := by
  simp [classBody, classMember, classModifiers]

/-- The rule of a tag is sound. -/
theorem sound_tag : Sound layout (rules d) tag := by
  simp [tag, tagNames, tagHole, tagAttribute, open_layout]

/-! ### Statements -/

/-- The rule of names in braces is sound. -/
@[simp]
theorem sound_nameList : Sound layout (rules d) nameList := by
  simp [nameList, listedName, exportedName]

/-- The rule of all names of a module is sound. -/
@[simp]
theorem sound_allNames : Sound layout (rules d) Grammar.allNames := by
  simp [Grammar.allNames, exportedName]

/-- The rule of where names come from is sound. -/
@[simp]
theorem sound_fromModule : Sound layout (rules d) fromModule := by
  simp [fromModule]

/-- The rule of the word in front of declarators is sound. -/
@[simp]
theorem sound_declarationWord : Sound layout (rules d) declarationWord := by
  simp [declarationWord]

/-- The rule of a statement is sound. -/
theorem sound_statement : Sound layout (rules d) statement := by
  simp [statement, condition, importStatement, exportStatement, loopHead, loopDeclarators,
    switchCase, attemptEnd, jump, expressionStatement]

/-- The rules of blocks and declarations are sound. -/
theorem sound_declarations : Sound layout (rules d) block ∧ Sound layout (rules d) declarators ∧
    Sound layout (rules d) declaration := by
  simp [block, declarators, declaration, functionDeclaration, classDeclaration, typeDeclaration,
    interfaceDeclaration, enumDeclaration, namespaceDeclaration, importAlias, dottedName]

/-- Every rule of the grammar makes its nodes as the layout says. -/
theorem sound_rules (d : Dialect) (s : Symbol) : Sound layout (rules d) (rules d s) := by
  cases s with
  | statement => exact sound_statement
  | block => exact sound_declarations.1
  | declarators => exact sound_declarations.2.1
  | declaration => exact sound_declarations.2.2
  | expression => exact sound_operators.1
  | operand => exact sound_operators.2.1
  | term => exact sound_operators.2.2.1
  | access => exact sound_operators.2.2.2
  | primary => exact sound_primary
  | arguments => exact sound_arguments
  | template => exact sound_template
  | binding => exact sound_names.1
  | parameters => exact sound_names.2.1
  | signature => exact sound_signature
  | classBody => exact sound_classBody
  | propertyName => exact sound_names.2.2
  | tag => exact sound_tag
  | type => exact sound_types.1
  | typeOperand => exact sound_types.2.1
  | typeArguments => exact sound_typeArguments
  | typeParameters => exact sound_types.2.2.1
  | objectType => exact sound_types.2.2.2

/-- The nodes of a script have the layout throughout. -/
theorem every_parse? {s : List Char} {script : Tree} (h : parse? d s = some script) :
    script.Every layout := by
  unfold parse? at h
  split at h
  · next ts rest hread =>
    split at h
    · cases h
      have hscript : Sound layout (rules d) Grammar.script := by simp [Grammar.script]
      have hts := Rule.every_read open_layout (sound_rules d) _ hscript _ _ _ _ hread
      exact ⟨trivial, everyOf_append.mpr ⟨hts, Reading.every_triviaLeaf _ _⟩⟩
    · contradiction
  · contradiction

end Crossing.Script
