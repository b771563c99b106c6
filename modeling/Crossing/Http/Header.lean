import Crossing.Text.Blank

/-!
# Header fields

A header map as the list of its fields in the order in which they came, where a name may occur
several times. Names are kept in lowercase. A reader of a name sees the first value, and only if
it is visible ASCII with blanks and tabs; other values are carried along unread.
-/

namespace Crossing.Http

open Text

/-- Whether a character may stand in a name: a letter, a digit or one of fifteen signs. -/
def isTokenChar (c : Char) : Bool :=
  c.isAlphanum || "!#$%&'*+-.^_\x60|~".toList.contains c

/-- The lowercase form of a header name; `none` if the text is no name. -/
def headerName? (text : String) : Option String :=
  let s := text.toList
  if s.isEmpty || !s.all isTokenChar then none else some (.ofList (s.map Char.toLower))

/-- Whether a character may stand in a header value: no control character but the tab. -/
def isValueChar (c : Char) : Bool :=
  c = '\t' || (0x20 ≤ c.toNat && c.toNat != 0x7F)

/-- A text as a header value; `none` if it holds a control character. -/
def headerValue? (text : String) : Option String :=
  if text.toList.all isValueChar then some text else none

/-- Whether a reader takes a character of a value. -/
def isReadable (c : Char) : Bool :=
  c = '\t' || (0x20 ≤ c.toNat && c.toNat < 0x7F)

/-- Header fields: names in lowercase, with their values. -/
structure Headers where
  fields : List (String × String)
deriving DecidableEq, Inhabited

namespace Headers

/-- No fields. -/
def empty : Headers := ⟨[]⟩

/-- The first value of a name. -/
def get? (name : String) (h : Headers) : Option String :=
  (h.fields.find? (·.1 == name)).map (·.2)

/-- The fields without those of a name. -/
def erase (name : String) (h : Headers) : Headers :=
  ⟨h.fields.filter (·.1 != name)⟩

/-- The fields with one more value of a name. -/
def append (name value : String) (h : Headers) : Headers :=
  ⟨h.fields ++ [(name, value)]⟩

/-- The fields with a value in the place of all values of a name. -/
def set (name value : String) (h : Headers) : Headers :=
  (h.erase name).append name value

/-- What a reader makes of a name: the first value without blanks around it, if it can be read
and something is left. -/
def read? (name : String) (h : Headers) : Option String := do
  let value := (← h.get? name).toList
  if value.all isReadable && !(trim value).isEmpty then some (.ofList (trim value)) else none

/-- The fields in the order of their names; values of one name keep their order. -/
def sorted (h : Headers) : List (String × String) :=
  h.fields.mergeSort fun a b => a.1 ≤ b.1

end Headers

end Crossing.Http
