import Crossing.Glob.Pattern
import Crossing.Text.Utf8

/-!
# Matching glob patterns

Which texts a pattern stands for, byte by byte. `rests` gives what can be left of a text after a
token has taken its part, and a pattern matches a text of which nothing can be left. A character
above ASCII is several bytes, each of which `?` and a class take alone.
-/

namespace Crossing.Glob

open Text

/-- A text and everything that is left of it after some of its bytes. -/
def suffixes : List UInt8 → List (List UInt8)
  | [] => [[]]
  | b :: rest => (b :: rest) :: suffixes rest

/-- What is left after the bytes of a character. -/
def restsOfBytes : List UInt8 → List UInt8 → List (List UInt8)
  | [], s => [s]
  | _ :: _, [] => []
  | x :: xs, b :: s => if x = b then restsOfBytes xs s else []

/-- What is left after each slash of a text. -/
def afterSlashes (s : List UInt8) : List (List UInt8) :=
  (suffixes s).filterMap fun
    | 0x2F :: rest => some rest
    | _ => none

/-- The ranges of bytes that a range of characters in a class comes to: the bytes of the first
character, of which the last starts a range that the first byte of the last character ends, and
the other bytes of that character. A single character gives its bytes. -/
def byteRanges (low high : Char) : List (UInt8 × UInt8) :=
  let single (bs : List UInt8) := bs.map fun b => (b, b)
  let lows := Utf8.encodeChar low
  let highs := Utf8.encodeChar high
  if low = high then single lows
  else
    match lows.getLast?, highs with
    | some b, b' :: rest => single lows.dropLast ++ (b, b') :: single rest
    | _, _ => []

/-- Whether a class takes a byte. -/
def classTakes (negated : Bool) (ranges : List (Char × Char)) (b : UInt8) : Bool :=
  let within := (ranges.flatMap fun (low, high) => byteRanges low high).any fun (x, y) =>
    x ≤ b && b ≤ y
  within != negated

/-- What is left after one byte with a property. -/
def restsOfOne (p : UInt8 → Bool) : List UInt8 → List (List UInt8)
  | [] => []
  | b :: rest => if p b then [rest] else []

mutual

/-- Whether a token says nothing about a text: alternatives without any. -/
def Token.isVoid : Token → Bool
  | .alternatives branches => areVoidBranches branches
  | _ => false

/-- Whether a branch says nothing about a text. -/
def isVoidBranch : List Token → Bool
  | [] => true
  | t :: rest => t.isVoid && isVoidBranch rest

/-- Whether no branch says anything about a text. -/
def areVoidBranches : List (List Token) → Bool
  | [] => true
  | branch :: rest => isVoidBranch branch && areVoidBranches rest

end

mutual

/-- What can be left of a text after a token. Branches that say nothing do not count, unless
there are no others. -/
def Token.rests : Token → List UInt8 → List (List UInt8)
  | .literal c, s => restsOfBytes (Utf8.encodeChar c) s
  | .any, s => restsOfOne (fun _ => true) s
  | .run, s => suffixes s
  | .leading, s => s :: afterSlashes s
  | .trailing, s =>
    match s with
    | 0x2F :: rest => suffixes rest
    | _ => []
  | .between, s =>
    match s with
    | 0x2F :: rest => rest :: afterSlashes rest
    | _ => []
  | .class negated ranges, s => restsOfOne (classTakes negated ranges) s
  | .alternatives branches, s =>
    if areVoidBranches branches then [s] else restsOfBranches branches s

/-- What can be left of a text after a list of tokens. -/
def restsOfAll : List Token → List UInt8 → List (List UInt8)
  | [], s => [s]
  | t :: rest, s => (t.rests s).flatMap (restsOfAll rest)

/-- What can be left of a text after one of the branches. -/
def restsOfBranches : List (List Token) → List UInt8 → List (List UInt8)
  | [], _ => []
  | branch :: rest, s =>
    (if isVoidBranch branch then [] else restsOfAll branch s) ++ restsOfBranches rest s

end

/-- Whether a pattern stands for a text. -/
def isMatch (tokens : List Token) (s : List UInt8) : Bool :=
  match tokens with
  | [.leading] => true
  | _ => (restsOfAll tokens s).any List.isEmpty

end Crossing.Glob
