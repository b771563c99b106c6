import Crossing.Script.Grammar.Symbol

/-!
# Types

The grammar of types. Unions, intersections and conditions come after operands in any order, since
no question about calls depends on how they nest.
-/

namespace Crossing.Script.Grammar

/-- What the value of a function is known to be, after its colon: a type, or what the function
says about an argument. -/
def resultType : Clause :=
  let subject := alt [word "this", name]
  let assertion := seq [subject, unbroken .plain, word "is", ref .type]
  alt [seq [word "asserts", alt [assertion, seq [unbroken .plain, subject, .without (start "<")]]],
    assertion, ref .type]

/-- The parameters of a function and the type of its value. -/
def signature : Clause :=
  seq [opt (ref .typeParameters), ref .parameters, opt (seq [sign ":", resultType])]

/-- The types that a generic is used with. -/
def typeArguments : Clause :=
  node .typeArguments (seq [start "<", enclosed (commaList (ref .type)), start ">"])

/-- The types that a generic is made for. -/
def typeParameters : Clause :=
  let variance := fun w => opt (seq [word w, next fun s => anyWord s ≠ 0])
  let parameter := seq [variance "const", variance "in", variance "out", name,
    opt (seq [alt [word "extends", sign ":"], ref .type]), opt (seq [sign "=", ref .type])]
  seq [start "<", enclosed (commaList parameter), start ">"]

/-- The type of a function. -/
def functionType : Clause :=
  seq [opt (seq [opt (word "abstract"), word "new"]), opt (ref .typeParameters),
    ref .parameters, sign "=>", resultType]

/-- An element of a tuple. -/
def tupleElement : Clause :=
  alt [seq [opt (sign "..."), name, opt (sign "?"), sign ":", ref .type],
    seq [opt (sign "..."), ref .type, opt (sign "?")]]

/-- A type in a template. -/
def templateType : Clause :=
  seq [.lexeme .mark (exactly "\x60"),
    .many (alt [.glued .text templateText, .glued .text escape,
      seq [.glued .mark (exactly "$\x7b"), enclosed (ref .type), sign "\x7d"]]),
    .glued .mark (exactly "\x60")]

/-- The value whose type is asked for. -/
def typeQuery : Clause :=
  seq [word "typeof",
    .chain (alt [seq [word "import", next fun s => s.head? == some '('],
        nameExcept ["import"]])
      [tail (.kind .member) [alt [sign ".", sign "?."], alt [property, privateName]],
        tail (.kind .element)
          [unbroken .plain, sign "[", enclosed (alt [string, number]), sign "]"],
        tail (.kind .call) [ref .arguments]],
    opt (ref .typeArguments)]

/-- The words that are no names of types. -/
def typeWords : List String :=
  ["typeof", "keyof", "infer", "readonly", "new", "import", "this", "null", "true", "false",
    "undefined", "void", "const", "unique"]

/-- A type that brackets may follow. -/
def typePrimary : Clause :=
  alt [
    between "(" ")" (ref .type),
    ref .objectType,
    between "[" "]" (opt (commaList tupleElement)),
    templateType,
    typeQuery,
    seq [word "keyof", ref .typeOperand],
    seq [word "unique", word "symbol"],
    seq [.chain (word "import")
        [(.kind .call, fun t => t.isLeaf .keyword, ref .arguments),
          tail (.kind .member) [sign ".", property]],
      opt (ref .typeArguments)],
    word "this", word "null", word "true", word "false", word "undefined", word "void",
    word "const", string, seq [opt (alt [sign "-", sign "+"]), number], sign "*",
    seq [nameExcept typeWords, .many (seq [sign ".", property]), opt (ref .typeArguments)],
    seq [sign "?", ref .typeOperand]]

/-- A type without unions and conditions. -/
def typeOperand : Clause :=
  let bar := .lexeme .mark (oneOf ["|", "&"])
  seq [.many bar,
    alt [functionType,
      seq [word "readonly", ref .type],
      seq [word "infer", name,
        opt (seq [unbroken .plain, word "extends", ref .type])],
      seq [typePrimary,
        .many (seq [unbroken .plain, sign "[", enclosed (opt (ref .type)), sign "]"])]]]

/-- A type. -/
def type : Clause :=
  seq [ref .typeOperand,
    .many (alt [
      seq [.lexeme .mark (oneOf ["|", "&"]), ref .typeOperand],
      seq [unbroken .plain, word "extends", ref .type, sign "?", unended (ref .type), sign ":",
        ref .type]])]

/-- The key of an index and its type, or the keys that an object type goes through. -/
def indexKey : Clause :=
  between "[" "]" (alt [
    seq [name, sign ":", ref .type],
    seq [name, word "in", ref .type, opt (seq [word "as", ref .type])]])

/-- A member of an object type that stands for all keys of a type. -/
def indexSignature : Clause :=
  seq [opt (seq [opt (alt [sign "-", sign "+"]), word "readonly"]), indexKey,
    alt [sign ":", start "-?:", start "+?:", start "?:"], ref .type]

/-- The words in front of the key of a member of an object type. -/
def memberModifiers : Clause :=
  .many (alt (["public", "private", "protected", "static", "override", "readonly", "async", "get",
    "set"].map modifier))

/-- A member of an object type. -/
def typeMember : Clause :=
  alt [
    indexSignature,
    seq [opt (word "abstract"), word "new", signature],
    signature,
    seq [memberModifiers, opt (sign "*"), ref .propertyName, opt (sign "?"),
      alt [signature, opt typeAnnotation]]]

/-- An object type, and the body of an interface. -/
def objectType : Clause :=
  let separator := alt [sign ",", semicolon .plain]
  seq [sign "\x7b", ended (seq [opt (alt [sign ",", sign ";"]),
    opt (seq [typeMember, .many (seq [separator, typeMember]), opt separator])]), sign "\x7d"]

end Crossing.Script.Grammar
