import Crossing.Script.Grammar.Expressions

/-!
# Statements

The grammar of statements and declarations, and the grammar as a whole.
-/

namespace Crossing.Script.Grammar

/-- A block of statements. -/
def block : Clause := seq [sign "\x7b", ended (.many (ref .statement)), sign "\x7d"]

/-- A condition in brackets. -/
def condition : Clause := group

/-! ## Declarations -/

/-- Declared names up to the end of the declaration. -/
def declarators : Clause :=
  let after (e : Ending) := alt [seq [sign ",", ref .declarators], semicolon e]
  seq [ref .binding, opt (sign "!"), opt typeAnnotation,
    alt [seq [initializer, after .expression], after .plain]]

/-- Declared names at the start of a loop. -/
def loopDeclarators : Clause :=
  let declarator := seq [ref .binding, opt typeAnnotation, opt initializer]
  seq [declarator, .many (seq [sign ",", declarator])]

/-- The word that a declaration of names starts with. -/
def declarationWord : Clause :=
  alt [word "var", seq [word "let", next startsBinding],
    seq [word "const", next fun s => keyword "enum" s = 0]]

/-- A function with a body, or only its head. -/
def functionDeclaration : Clause :=
  seq [opt (word "async"), word "function", opt (sign "*"), name, ref .signature,
    alt [ref .block, semicolon .signature]]

/-- A class, perhaps an abstract one. -/
def classDeclaration : Clause :=
  seq [.many decorator, opt (word "abstract"), word "class",
    nameExcept ["extends", "implements"], opt (ref .typeParameters), heritage, ref .classBody]

/-- A name for a type. -/
def typeDeclaration : Clause :=
  seq [word "type", unbroken .plain, name, opt (ref .typeParameters), sign "=", ref .type,
    semicolon .plain]

/-- An interface. -/
def interfaceDeclaration : Clause :=
  seq [word "interface", name, opt (ref .typeParameters),
    opt (seq [word "extends", unended (commaList (ref .type))]), ref .objectType]

/-- An enumeration. -/
def enumDeclaration : Clause :=
  seq [opt (word "const"), word "enum", name,
    between "\x7b" "\x7d" (opt (commaList (seq [ref .propertyName, opt initializer])))]

/-- A namespace. -/
def namespaceDeclaration : Clause :=
  seq [alt [word "namespace", word "module"], unbroken .plain,
    alt [string, seq [name, .many (seq [sign ".", property])]], opt (ref .block)]

/-- Names with dots between them. -/
def dottedName : Clause := seq [name, .many (seq [sign ".", property])]

/-- Another name for a member of a namespace. -/
def importAlias : Clause := seq [word "import", name, sign "=", dottedName, semicolon .plain]

/-- A declaration. -/
def declaration : Clause :=
  alt [
    seq [declarationWord, ref .declarators],
    functionDeclaration, classDeclaration, typeDeclaration, interfaceDeclaration,
    enumDeclaration, namespaceDeclaration, importAlias,
    seq [word "declare", unbroken .plain,
      alt [ref .declaration, seq [word "global", ref .block]]]]

/-! ## Imports and exports -/

/-- The name of something that a module exports. -/
def exportedName : Clause := alt [name, string]

/-- A name in the list of an import or an export. -/
def listedName : Clause :=
  let renamed := seq [exportedName, opt (seq [word "as", exportedName])]
  let stop := next fun s => s.head? == some ',' || s.head? == some '}'
  alt [seq [alt [word "type", word "typeof"], renamed, stop], seq [renamed, stop]]

/-- The list of an import or an export. -/
def nameList : Clause := between "\x7b" "\x7d" (opt (commaList listedName))

/-- The module that names come from. -/
def fromModule : Clause :=
  seq [word "from", string, opt (seq [alt [word "with", word "assert"], object])]

/-- All names of a module under one. -/
def allNames : Clause := seq [sign "*", word "as", exportedName]

/-- An import. -/
def importStatement : Clause :=
  let names := alt [allNames, nameList,
    seq [name, opt (seq [sign ",", alt [allNames, nameList]])]]
  let rest := alt [
    seq [names, fromModule],
    seq [name, sign "=", word "require", between "(" ")" string]]
  seq [word "import",
    alt [seq [string, opt (seq [alt [word "with", word "assert"], object])],
      seq [alt [word "type", word "typeof"], rest],
      rest],
    semicolon .plain]

/-- An export. -/
def exportStatement : Clause :=
  seq [.many decorator, word "export",
    alt [
      seq [opt (word "type"),
        alt [seq [alt [allNames, sign "*"], fromModule], seq [nameList, opt fromModule]],
        semicolon .plain],
      seq [sign "=", ref .expression, semicolon .expression],
      seq [word "as", word "namespace", name, semicolon .plain],
      seq [word "default",
        alt [ref .declaration, seq [ref .expression, semicolon .expression]]],
      ref .declaration]]

/-! ## Control -/

/-- The head of a loop in its brackets. -/
def loopHead : Clause :=
  let through := seq [alt [word "of", word "in"], expressions]
  between "(" ")" (alt [
    seq [alt [word "var", word "let", word "const"], ref .binding, opt typeAnnotation, through],
    seq [ref .access, through],
    seq [opt (alt [seq [declarationWord, loopDeclarators], expressions]), sign ";",
      opt expressions, sign ";", opt expressions]])

/-- A case of a switch. -/
def switchCase : Clause :=
  seq [alt [seq [word "case", unended expressions], word "default"], sign ":",
    .many (ref .statement)]

/-- The end of an attempt. -/
def attemptEnd : Clause :=
  seq [
    opt (seq [word "catch",
      opt (between "(" ")" (seq [ref .binding, opt typeAnnotation])), ref .block]),
    opt (seq [word "finally", ref .block])]

/-- A word that may go on with the name of a label. -/
def jump (w : String) : Clause :=
  seq [word w, opt (seq [unbroken .plain, name]), semicolon .plain]

/-- The words that start no expression where a statement starts. -/
def statementWords : List String :=
  ["if", "for", "while", "do", "switch", "try", "return", "throw", "break", "continue", "debugger",
    "var", "const", "with", "case", "default", "function", "class", "enum", "interface"]

/-- An expression that is a statement. -/
def expressionStatement : Clause :=
  seq [
    next fun s =>
      !(statementWords.any (keyword · s ≠ 0)) && s.head? != some '{' &&
        !(keyword "async" s ≠ 0 &&
          (let rest := s.drop 5
           keyword "function" (rest.drop (trivia rest)) ≠ 0)),
    expressions, semicolon .expression]

/-- A statement. -/
def statement : Clause :=
  alt [
    ref .block,
    sign ";",
    seq [word "if", condition, ref .statement, opt (seq [word "else", ref .statement])],
    seq [word "for", opt (word "await"), loopHead, ref .statement],
    seq [word "while", condition, ref .statement],
    seq [word "do", ref .statement, word "while", condition, opt (sign ";")],
    seq [word "switch", condition, sign "\x7b", .many switchCase, sign "\x7d"],
    seq [word "try", ref .block, attemptEnd],
    seq [word "with", condition, ref .statement],
    seq [word "return",
      alt [seq [unbroken .plain, expressions, semicolon .expression], semicolon .plain]],
    seq [word "throw", expressions, semicolon .expression],
    jump "break", jump "continue",
    seq [word "debugger", semicolon .plain],
    importStatement,
    exportStatement,
    ref .declaration,
    seq [nameExcept (reservedWords ++ statementWords), sign ":", ref .statement],
    expressionStatement]

/-! ## The grammar -/

/-- The rule of each symbol. -/
def rules (d : Dialect) : Symbol → Clause
  | .statement => statement
  | .block => block
  | .declarators => declarators
  | .declaration => declaration
  | .expression => expression
  | .operand => operand d
  | .term => term
  | .access => access
  | .primary => primary d
  | .arguments => arguments
  | .template => template
  | .binding => binding
  | .parameters => parameters
  | .signature => signature
  | .classBody => classBody
  | .propertyName => propertyName
  | .tag => tag
  | .type => type
  | .typeOperand => typeOperand
  | .typeArguments => typeArguments
  | .typeParameters => typeParameters
  | .objectType => objectType

/-- A whole script. -/
def script : Clause := seq [opt (.glued .trivia hashbang), .many (ref .statement)]

end Crossing.Script.Grammar
