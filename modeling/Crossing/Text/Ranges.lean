/-!
# Ranges of code points

A property of characters as the list of the code points that have it, as pairs of a first and a
last one in rising order.
-/

namespace Crossing.Text

/-- Pairs of a first and a last code point. -/
abbrev Ranges := List (Nat × Nat)

/-- Whether a code point lies in one of the ranges. -/
def Ranges.has : Ranges → Nat → Bool
  | [], _ => false
  | (low, high) :: rest, n => (low ≤ n && n ≤ high) || Ranges.has rest n

end Crossing.Text
