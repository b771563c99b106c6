import Crossing.Boundary.Basic
import Crossing.Text.Blank
import Crossing.Text.Decimal
import Crossing.Text.Percent

/-!
# Boundary records and their tokens

A record says where a call was written and from which side it comes. On the wire it is a token:
the three parts with colons between them, percent-coded. Reading a token never fails; it gives
each part that can be made out. A token is read back in full unless its file is empty or holds a
colon.
-/

namespace Crossing.Boundary

open Text

/-- Where a call was written. -/
structure Record where
  file : String
  /-- The line, counted from one. -/
  line : UInt32
  side : Side
deriving DecidableEq, Inhabited

/-- The parts of a record that a token gives. -/
structure Partial where
  file : Option String
  line : Option UInt32
  side : Option Side
deriving DecidableEq, Inhabited

/-- The record, if every part is there. -/
def Partial.record? (p : Partial) : Option Record := do
  return ⟨← p.file, ← p.line, ← p.side⟩

namespace Record

/-- The text that a token codes. -/
def plain (r : Record) : List Char :=
  r.file.toList ++ ':' :: Decimal.ofNat r.line.toNat ++ ':' :: r.side.name.toList

/-- The token of a record. -/
def token (r : Record) : String :=
  .ofList (Percent.encode r.plain)

end Record

/-- The parts that the text of a token gives. What follows a third colon does not count. -/
def Partial.ofPlain (s : List Char) : Partial :=
  let parts := s.splitOn ':'
  { file := (parts[0]?.filter (!·.isEmpty)).map .ofList
    line := parts[1]? >>= fun t => Decimal.toUInt32? (trim t)
    side := parts[2]? >>= fun t => Side.ofName? (.ofList (trim t)) }

/-- The parts that a token gives. -/
def Partial.ofToken (token : String) : Partial :=
  ofPlain (Percent.decode token.toList)

end Crossing.Boundary
