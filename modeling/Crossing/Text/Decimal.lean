/-!
# Decimal numbers

Numbers as decimal digits without leading zeros, and the reading of a number of 32 bits. The
reader takes one optional plus sign and any number of digits, leading zeros included, and refuses
what does not fit.
-/

namespace Crossing.Text.Decimal

/-- The digit of a number below ten. -/
def digit (n : Nat) : Char :=
  Char.ofNat (0x30 + n)

/-- The digits of a number, put in front of `tail`. -/
def prepend (n : Nat) (tail : List Char) : List Char :=
  if n < 10 then digit n :: tail else prepend (n / 10) (digit (n % 10) :: tail)
termination_by n

/-- The digits of a number. -/
def ofNat (n : Nat) : List Char :=
  prepend n []

/-- The number that the digits name, read after `acc`; `none` if a character is no digit. -/
def digitsFrom? (acc : Nat) : List Char → Option Nat
  | [] => some acc
  | c :: rest =>
    if '0' ≤ c ∧ c ≤ '9' then digitsFrom? (acc * 10 + (c.toNat - 0x30)) rest else none

/-- The number that a non-empty run of digits names. -/
def toNat? : List Char → Option Nat
  | [] => none
  | s => digitsFrom? 0 s

/-- A number of 32 bits, with at most one plus sign in front. -/
def toUInt32? (s : List Char) : Option UInt32 :=
  let digits := match s with
    | '+' :: rest => rest
    | _ => s
  match toNat? digits with
  | some n => if n < UInt32.size then some (.ofNat n) else none
  | none => none

end Crossing.Text.Decimal
