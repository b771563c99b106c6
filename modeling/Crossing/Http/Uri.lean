import Crossing.Http.Header
import Crossing.Text.Search
import Crossing.Text.Utf8

/-!
# Request targets

The reader of the target of a request: a path with a query, the star, an authority alone, or an
absolute URI. A fragment is dropped. Characters above ASCII may stand in paths and queries, as may
quotes and braces, since clients send them.
-/

namespace Crossing.Http

open Text

/-- Why a text is no request target. -/
inductive UriError where
  | empty
  | tooLong
  | invalidCharacter
  | invalidFormat
  | invalidAuthority
  | schemeTooLong
deriving DecidableEq, Inhabited

/-- What is said of a target that cannot be read. -/
def UriError.message : UriError → String
  | empty => "empty string"
  | tooLong => "uri too long"
  | invalidCharacter => "invalid uri character"
  | invalidFormat => "invalid format"
  | invalidAuthority => "invalid authority"
  | schemeTooLong => "scheme too long"

/-- The target of a request. -/
structure Uri where
  scheme : Option String
  authority : Option String
  /-- The path, empty for an authority alone. -/
  path : String
  query : Option String
deriving DecidableEq, Inhabited

namespace Uri

/-- The bytes that a target may have. -/
def maxLength : Nat := 65534

/-- The characters that a scheme may have. -/
def maxSchemeLength : Nat := 64

/-- The text of a target. -/
def text (u : Uri) : String :=
  (match u.scheme with
    | some s => s ++ "://"
    | none => "") ++
  u.authority.getD "" ++ u.path ++
  match u.query with
    | some q => "?" ++ q
    | none => ""

/-- Whether a character may stand in a scheme. -/
def isSchemeChar (c : Char) : Bool :=
  c.isAlphanum || c == '+' || c == '-' || c == '.' || c == '~'

/-- The text after `head`, if the text starts with it in any case. -/
def afterFolded? (head s : List Char) : Option (List Char) :=
  after? head (s.take head.length |>.map Char.toLower) |>.map fun _ => s.drop head.length

/-- The scheme that a text starts with and what follows its `://`. A text that starts with no
scheme is returned whole. -/
def takeScheme (s : List Char) : Except UriError (Option (List Char) × List Char) :=
  if let some rest := afterFolded? "http://".toList s then .ok (some "http".toList, rest)
  else if let some rest := afterFolded? "https://".toList s then .ok (some "https".toList, rest)
  else
    let name := s.takeWhile isSchemeChar
    match s.dropWhile isSchemeChar with
    | ':' :: '/' :: '/' :: rest =>
      if s.length ≤ 3 then .ok (none, s)
      else if name.length > maxSchemeLength then .error .schemeTooLong
      else .ok (some name, rest)
    | _ => .ok (none, s)

/-- What the reader of an authority has seen. -/
structure Host where
  /-- The colons since the last `@` or `]`. -/
  colons : Nat := 0
  opened : Bool := false
  closed : Bool := false
  /-- Whether a `%` stands after the last `@` or `]`. -/
  percent : Bool := false
  /-- Whether the last character is `@`. -/
  atEnd : Bool := false

/-- The colons that an address between brackets may have. -/
def maxColons : Nat := 8

/-- Whether a character may stand in an authority without further meaning. -/
def isAuthorityChar (c : Char) : Bool :=
  c.isAlphanum || "!$&'()*+,-.;=_~".toList.contains c

/-- Whether a character ends an authority. -/
def endsAuthority (c : Char) : Bool :=
  c == '/' || c == '?' || c == '#'

/-- What has been seen after one more character. -/
def Host.step (host : Host) (c : Char) : Except UriError Host :=
  let host := { host with atEnd := false }
  if c = ':' then
    if host.colons ≥ maxColons then .error .invalidAuthority
    else .ok { host with colons := host.colons + 1 }
  else if c = '[' then
    if host.percent || host.opened then .error .invalidAuthority
    else .ok { host with opened := true }
  else if c = ']' then
    if !host.opened || host.closed then .error .invalidAuthority
    else .ok { host with closed := true, colons := 0, percent := false }
  else if c = '@' then .ok { host with colons := 0, percent := false, atEnd := true }
  else if c = '%' then .ok { host with percent := true }
  else if isAuthorityChar c then .ok host
  else .error .invalidCharacter

/-- The authority that a text starts with, and the rest. -/
def takeAuthority (s : List Char) : Except UriError (List Char × List Char) := do
  let authority := s.takeWhile (!endsAuthority ·)
  let host ← authority.foldlM Host.step {}
  if host.opened != host.closed || host.colons > 1 || host.atEnd || host.percent then
    .error .invalidAuthority
  else return (authority, s.dropWhile (!endsAuthority ·))

/-- Whether a character may stand in a path. -/
def isPathChar (c : Char) : Bool :=
  let n := c.toNat
  n == 0x21 || (0x24 ≤ n && n ≤ 0x3B) || n == 0x3D || (0x40 ≤ n && n ≤ 0x5F) ||
    (0x61 ≤ n && n ≤ 0x7A) || n == 0x7C || n == 0x7E || 0x80 ≤ n ||
    c == '"' || c == '{' || c == '}'

/-- Whether a character may stand in a query. -/
def isQueryChar (c : Char) : Bool :=
  let n := c.toNat
  n == 0x21 || (0x24 ≤ n && n ≤ 0x3B) || n == 0x3D || (0x3F ≤ n && n ≤ 0x7E) || 0x80 ≤ n

/-- The path and the query of a text. An empty path stands for the root. -/
def pathAndQuery (s : List Char) : Except UriError (String × Option String) :=
  let s := s.takeWhile (· != '#')
  let (path, query) := match cut? '?' s with
    | some (path, query) => (path, some query)
    | none => (s, none)
  if !path.all isPathChar || !(query.getD []).all isQueryChar then .error .invalidCharacter
  else .ok (if path.isEmpty then "/" else .ofList path, query.map .ofList)

/-- The target that a text names. -/
def parse (text : String) : Except UriError Uri := do
  let s := text.toList
  if Utf8.width s > maxLength then throw .tooLong
  match s with
  | [] => throw .empty
  | ['*'] => return ⟨none, none, "*", none⟩
  | '/' :: _ =>
    let (path, query) ← pathAndQuery s
    return ⟨none, none, path, query⟩
  | [_] =>
    let (authority, rest) ← takeAuthority s
    if rest.isEmpty then return ⟨none, some (.ofList authority), "", none⟩
    else throw .invalidCharacter
  | _ =>
    let (scheme, rest) ← takeScheme s
    let (authority, rest) ← takeAuthority rest
    match scheme with
    | none =>
      if rest.isEmpty then return ⟨none, some (.ofList authority), "", none⟩
      else throw .invalidFormat
    | some scheme =>
      if authority.isEmpty then throw .invalidFormat
      let (path, query) ← pathAndQuery rest
      return ⟨some (.ofList scheme), some (.ofList authority), path, query⟩

end Uri

/-- A request method; `none` if the text is no name. -/
def method? (text : String) : Option String :=
  let s := text.toList
  if s.isEmpty || !s.all isTokenChar then none else some text

/-- A request without its body. -/
structure Request where
  method : String
  uri : Uri
  headers : Headers
deriving DecidableEq, Inhabited

end Crossing.Http
