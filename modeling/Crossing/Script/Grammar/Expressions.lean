import Crossing.Script.Grammar.Types

/-!
# Expressions

The grammar of expressions. Each is one tree. Operators come after operands in any order, since
no question about calls depends on how they nest, but for those that type arguments can follow;
calls, members and elements nest to the left.
-/

namespace Crossing.Script.Grammar

/-- The words that stand for no value by themselves. -/
def reservedWords : List String :=
  ["function", "class", "new", "delete", "typeof", "void", "await", "yield", "this", "super",
    "null", "true", "false", "import"]

/-- Whether a value can be assigned to what a tree stands for. -/
def isAssignable (t : Tree) : Bool :=
  t.isLeaf .word || t.isLeaf .undefined ||
    [Kind.member, .element, .nonNull, .group, .object, .array, .target].any (t.hasKind ·)

/-- Arguments in their brackets; any of them may be missing. -/
def arguments : Clause :=
  node .arguments (between "(" ")" (holeList (alt [
    other [sign "...", ref .expression], ref .expression])))

/-- A template with expressions in it. -/
def template : Clause :=
  node .template (seq [.lexeme .mark (exactly "\x60"),
    .many (alt [.glued .text templateText, .glued .text escape,
      seq [.glued .mark (exactly "$\x7b"), enclosed expressions, sign "\x7d"]]),
    .glued .mark (exactly "\x60")])

/-! ## Objects, arrays and what they are taken apart by -/

/-- A method of an object or a class, from its modifiers on. -/
def methodHead : Clause :=
  seq [.many (alt (["public", "private", "protected", "static", "override", "readonly", "async",
    "get", "set"].map modifier)), opt (sign "*"), ref .propertyName, opt (sign "?"),
    ref .signature]

/-- A slot of an object literal. -/
def slot : Clause :=
  alt [
    other [sign "...", ref .expression],
    node .pair (seq [ref .propertyName, sign ":", ref .expression]),
    other [methodHead, ended (ref .block)],
    seq [.lexeme .shorthand anyWord, next fun s => s.head? == some ',' || s.head? == some '}']]

/-- An object literal. -/
def object : Clause := node .object (between "\x7b" "\x7d" (holeList slot))

/-- An array literal. -/
def array : Clause :=
  node .array (between "[" "]" (holeList (alt [
    other [sign "...", ref .expression], ref .expression])))

/-- What a part of a value is given to. -/
def targetElement : Clause :=
  let place := alt [ref .binding,
    .chain (alt [word "this", name]) [
      tail (.kind .member) [alt [sign ".", sign "?."], alt [property, privateName]],
      tail (.kind .element) [between "[" "]" expressions],
      tail (.kind .nonNull) [sign "!"]]]
  seq [opt (sign "..."), place]

/-- The pattern that takes an object apart. -/
def objectPattern : Clause :=
  between "\x7b" "\x7d" (holeList (alt [
    seq [sign "...", targetElement],
    seq [ref .propertyName, sign ":", targetElement, opt initializer],
    seq [name, opt initializer]]))

/-- The pattern that takes an array apart. -/
def arrayPattern : Clause :=
  between "[" "]" (holeList (seq [targetElement, opt initializer]))

/-- A name that is bound, or a pattern of names. -/
def binding : Clause :=
  alt [node .target objectPattern, node .target arrayPattern, name]

/-! ## Functions and classes -/

/-- A decorator. -/
def decorator : Clause :=
  let value := .chain name [
    tail (.kind .member) [sign ".", property],
    tail (.kind .call) [opt (ref .typeArguments), ref .arguments]]
  seq [start "@", alt [value, node .group (between "(" ")" value)]]

/-- A parameter of a function. -/
def parameter : Clause :=
  seq [.many decorator,
    .many (alt (["public", "private", "protected", "override", "readonly"].map fun w =>
      seq [word w, next startsBinding])),
    targetElement, opt (sign "?"), opt typeAnnotation, opt initializer]

/-- The parameters of a function in their brackets. -/
def parameters : Clause := between "(" ")" (opt (commaList parameter))

/-- A function that is an expression. -/
def functionExpression : Clause :=
  other [opt (word "async"), word "function", opt (sign "*"), opt name, ref .signature,
    ended (ref .block)]

/-- The parameters of an arrow function. Where a colon has another meaning, the type of its value
is not named. -/
def arrowHead : Clause :=
  alt [
    seq [opt (word "async"), name, next fun s => "=>".toList.isPrefixOf s],
    seq [opt (word "async"), opt (ref .typeParameters), ref .parameters,
      opt (seq [.test fun m _ => m.arrowTypes, sign ":", resultType])]]

/-- An arrow function. A brace after the arrow opens a block. -/
def arrowFunction : Clause :=
  other [arrowHead, sign "=>",
    alt [ended (ref .block), seq [.without (start "\x7b"), ref .expression]]]

/-- What a class extends and implements. -/
def heritage : Clause :=
  seq [
    opt (seq [word "extends", unended (commaList (seq [ref .access, opt (ref .typeArguments)]))]),
    opt (seq [word "implements", unended (commaList (ref .type))])]

/-- A class from its keyword on. -/
def classRest : Clause :=
  seq [word "class", opt (nameExcept ["extends", "implements"]), opt (ref .typeParameters),
    heritage, ref .classBody]

/-- A class that is an expression. -/
def classExpression : Clause := other [.many decorator, classRest]

/-- The words in front of the key of a member of a class. -/
def classModifiers : Clause :=
  .many (alt (["public", "private", "protected", "static", "override", "readonly", "abstract",
    "declare", "accessor", "async", "get", "set"].map modifier))

/-- A member of a class: a block, an index, a method with or without a body, or a field. -/
def classMember : Clause :=
  alt [
    sign ";",
    seq [word "static", ref .block],
    seq [.many (modifier "static"), indexSignature, alt [sign ",", semicolon .plain]],
    seq [.many decorator, classModifiers, opt (sign "*"), ref .propertyName,
      opt (alt [sign "?", sign "!"]),
      alt [
        seq [ref .signature,
          alt [seq [ref .block, opt (sign ";")], sign ",", semicolon .signature]],
        seq [opt typeAnnotation,
          alt [seq [initializer, alt [sign ",", semicolon .expression]], sign ",",
            semicolon .plain]]]]]

/-- The body of a class. -/
def classBody : Clause :=
  seq [sign "\x7b", ended (.many classMember), sign "\x7d"]

/-! ## Primary expressions -/

/-- An instance of a class. -/
def newExpression : Clause :=
  let callee := .chain (ref .primary) [
    tail (.kind .member) [sign ".", alt [property, privateName]],
    tail (.kind .element) [between "[" "]" expressions],
    tail (.kind .nonNull) [unbroken .expression, sign "!"]]
  other [word "new",
    alt [seq [sign ".", word "target"],
      seq [callee, alt [seq [opt (ref .typeArguments), ref .arguments],
        opt (seq [ref .typeArguments, .without (ref .operand)])]]]]

/-- An expression in brackets, perhaps with its type. -/
def group : Clause :=
  node .group (between "(" ")" (seq [expressions, opt typeAnnotation]))

/-- The pattern of an assignment or a loop. -/
def assignedPattern : Clause :=
  seq [alt [node .target objectPattern, node .target arrayPattern],
    next fun s => oneOf ["="] s ≠ 0 || keyword "of" s ≠ 0 || keyword "in" s ≠ 0]

/-- An expression that members and calls may follow. -/
def primary (d : Dialect) : Clause :=
  alt ([
    arrowFunction,
    .lexeme .number numeral,
    .lexeme .string stringLiteral,
    ref .template,
    group,
    object,
    array,
    assignedPattern,
    .lexeme .pattern regularPattern,
    functionExpression,
    classExpression,
    newExpression,
    seq [word "import", next fun s => s.head? == some '(' || s.head? == some '.'],
    word "this", word "super", word "null", word "true", word "false",
    .lexeme .undefined (keyword "undefined")] ++
    (if d = .tagged then [ref .tag] else []) ++
    [nameExcept reservedWords])

/-- Whether a text starts with what can start an expression. -/
def startsExpression (s : List Char) : Bool :=
  anyWord s ≠ 0 || match s with
    | c :: _ => c.isDigit || "\"'\x60([\x7b+-!~/<#@".toList.contains c
    | [] => false

/-- A primary expression with its members, elements and calls. -/
def access : Clause :=
  .chain (ref .primary) [
    tail (.kind .member) [alt [sign ".", sign "?."], alt [property, privateName]],
    tail (.kind .call) [ref .arguments],
    tail (.kind .element) [opt (sign "?."), sign "[", enclosed expressions, sign "]"],
    tail (.kind .call) [ref .template],
    tail (.kind .call) [sign "?.", opt (ref .typeArguments), ref .arguments],
    tail (.kind .nonNull) [unbroken .expression, sign "!"],
    tail (.kind .call) [ref .typeArguments, alt [ref .arguments, ref .template]],
    tail (.kind .other) [ref .typeArguments, .test fun _ s => s.head? != some '=',
      next (!startsExpression ·)]]

/-! ## Operators -/

/-- An operator in front of its operand. -/
def unarySign : Clause :=
  alt [.lexeme .mark (oneOf ["!", "~", "-", "+", "++", "--"]), word "typeof", word "void",
    word "delete", word "await"]

/-- An operand with the operators around it. -/
def operand (d : Dialect) : Clause :=
  alt ([
    operation unarySign (ref .operand),
    other [word "yield", alt [seq [sign "*", ref .expression],
      opt (seq [unbroken .plain, ref .expression])]],
    seq [privateName, next fun s => keyword "in" s ≠ 0],
    .chain (ref .access) [
      tail (.kind .other) [unbroken .expression, .lexeme .mark (oneOf ["++", "--"])],
      (.kind .other, isAssignable, seq [.lexeme .mark assignSign, ref .expression])]] ++
    (if d = .plain then [other [ref .typeArguments, ref .operand]] else []))

/-- Operands with operators between them that bind more tightly than `<`. -/
def term : Clause :=
  .chain (ref .operand) [tail .operation [.lexeme .mark tightSign, ref .operand]]

/-- The branches of a conditional expression. -/
def branches : Clause :=
  let first := alt [
    seq [ref .expression, sign ":"],
    seq [.within (fun m => { m with arrowTypes := false }) (ref .expression), sign ":"]]
  seq [.lexeme .mark questionSign, unended first, ref .expression]

/-- An expression without a comma. -/
def expression : Clause :=
  .chain (ref .term) [
    tail (.kind .other)
      [alt [.lexeme .mark binarySign, word "in", word "instanceof"], ref .term],
    tail (.kind .other) [unbroken .expression, word "as", ref .type],
    tail (.kind .other) [unbroken .expression, word "satisfies", ref .type],
    tail (.kind .other) [branches]]

/-! ## Tags -/

/-- The name of a tag: names with dots or one colon between them. -/
def tagNames : Clause :=
  let part := .lexeme .word tagName
  seq [part, alt [seq [sign ":", part], .many (seq [sign ".", part])]]

/-- An expression in a tag or between tags. -/
def tagHole : Clause :=
  other [sign "\x7b", enclosed (opt (alt [seq [sign "...", ref .expression], expressions])),
    sign "\x7d"]

/-- An attribute of a tag. -/
def tagAttribute : Clause :=
  alt [tagHole,
    seq [tagNames, opt (seq [start "=",
      alt [.lexeme .string tagString, tagHole, ref .tag]])]]

/-- A tag with what it contains. -/
def tag : Clause :=
  let inner := .many (alt [.glued .text tagText, .glued .text tagEntity, tagHole, ref .tag])
  other [start "<", .without (start "/"),
    enclosed (opt (seq [tagNames, opt (ref .typeArguments), .many tagAttribute])),
    alt [start "/>",
      seq [start ">", enclosed inner, start "</", opt tagNames, start ">"]]]

end Crossing.Script.Grammar
