import Crossing.Text.Utf8

/-!
# Percent coding

The coding of a URI component. A byte that is an ASCII letter, a digit or one of `-_.!~*'()`
stands for itself, and every other byte is `%` with two uppercase hexadecimal digits. Decoding
takes digits of either case, leaves a `%` that two digits do not follow as it is, and reads the
bytes as UTF-8 with replacement characters.
-/

namespace Crossing.Text.Percent

/-- Whether a character stands for itself. -/
def isPlain (c : Char) : Bool :=
  c.isAlphanum || "-_.!~*'()".toList.contains c

/-- The uppercase digit of a number below sixteen. -/
def digit (n : Nat) : Char :=
  Char.ofNat (if n < 10 then 0x30 + n else 0x37 + n)

/-- The value of a hexadecimal digit. -/
def value? (c : Char) : Option Nat :=
  if '0' ≤ c ∧ c ≤ '9' then some (c.toNat - 0x30)
  else if 'A' ≤ c ∧ c ≤ 'F' then some (c.toNat - 0x37)
  else if 'a' ≤ c ∧ c ≤ 'f' then some (c.toNat - 0x57)
  else none

/-- A byte as `%` and two digits. -/
def escape (b : UInt8) : List Char :=
  ['%', digit (b.toNat / 16), digit (b.toNat % 16)]

/-- The coded form of a text. -/
def encode (s : List Char) : List Char :=
  s.flatMap fun c => if isPlain c then [c] else (Utf8.encodeChar c).flatMap escape

/-- The bytes that a coded text stands for. -/
def bytes : List Char → List UInt8
  | '%' :: x :: y :: rest =>
    match value? x, value? y with
    | some hi, some lo => .ofNat (hi * 16 + lo) :: bytes rest
    | _, _ => 0x25 :: bytes (x :: y :: rest)
  | c :: rest => Utf8.encodeChar c ++ bytes rest
  | [] => []

/-- The text that a coded text stands for. -/
def decode (s : List Char) : List Char :=
  Utf8.decodeLossy (bytes s)

end Crossing.Text.Percent
