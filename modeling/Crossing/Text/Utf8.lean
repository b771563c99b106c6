/-!
# UTF-8

Characters as bytes and back. Encoding is arithmetic on the code point. Decoding comes in two
forms: `decode?` refuses bytes that are not UTF-8, and `decodeLossy` puts one replacement
character in place of each longest run of bytes that starts a character and cannot be completed,
and in place of each byte that can start none.
-/

namespace Crossing.Text.Utf8

/-- The bytes of a character. -/
def encodeChar (c : Char) : List UInt8 :=
  let n := c.toNat
  if n < 0x80 then [.ofNat n]
  else if n < 0x800 then [.ofNat (0xC0 + n / 64), .ofNat (0x80 + n % 64)]
  else if n < 0x10000 then
    [.ofNat (0xE0 + n / 4096), .ofNat (0x80 + n / 64 % 64), .ofNat (0x80 + n % 64)]
  else
    [.ofNat (0xF0 + n / 262144), .ofNat (0x80 + n / 4096 % 64), .ofNat (0x80 + n / 64 % 64),
      .ofNat (0x80 + n % 64)]

/-- The bytes of a text. -/
def encode (s : List Char) : List UInt8 :=
  s.flatMap encodeChar

/-- The number of bytes of a text. -/
def width : List Char → Nat
  | [] => 0
  | c :: rest => c.utf8Size + width rest

/-- The state of a decoder between two bytes: at the start of a character, or inside one whose
bits so far are `bits`, which needs `more` further bytes and whose next byte lies from `low` to
`high`. -/
inductive State where
  | start
  | inside (bits more low high : Nat)

/-- The state after the first byte of a character, and the character if it is complete; `none`
for a byte that starts no character. The bounds on the second byte leave out the longer forms of
shorter characters, the surrogates, and what lies above the last code point. -/
def first (b : Nat) : Option (State × List Char) :=
  if b < 0x80 then some (.start, [Char.ofNat b])
  else if b < 0xC2 then none
  else if b < 0xE0 then some (.inside (b - 0xC0) 1 0x80 0xBF, [])
  else if b = 0xE0 then some (.inside 0 2 0xA0 0xBF, [])
  else if b = 0xED then some (.inside 0xD 2 0x80 0x9F, [])
  else if b < 0xF0 then some (.inside (b - 0xE0) 2 0x80 0xBF, [])
  else if b = 0xF0 then some (.inside 0 3 0x90 0xBF, [])
  else if b < 0xF4 then some (.inside (b - 0xF0) 3 0x80 0xBF, [])
  else if b = 0xF4 then some (.inside 4 3 0x80 0x8F, [])
  else none

/-- The step inside a character: the state after a byte and the character it completes, or
`none` if the byte does not continue the character. -/
def continue? (bits more low high b : Nat) : Option (State × List Char) :=
  if low ≤ b ∧ b ≤ high then
    let bits := bits * 64 + (b - 0x80)
    if more ≤ 1 then some (.start, [Char.ofNat bits])
    else some (.inside bits (more - 1) 0x80 0xBF, [])
  else none

/-- The character that stands for bytes that are not UTF-8. -/
def replacement : Char := '\uFFFD'

/-- Decodes from a state, with a replacement character for what cannot be read. -/
def lossyFrom : State → List UInt8 → List Char
  | .start, [] => []
  | .inside .., [] => [replacement]
  | .start, b :: rest =>
    match first b.toNat with
    | some (state, cs) => cs ++ lossyFrom state rest
    | none => replacement :: lossyFrom .start rest
  | .inside bits more low high, b :: rest =>
    match continue? bits more low high b.toNat with
    | some (state, cs) => cs ++ lossyFrom state rest
    | none =>
      match first b.toNat with
      | some (state, cs) => replacement :: (cs ++ lossyFrom state rest)
      | none => replacement :: replacement :: lossyFrom .start rest

/-- Decodes bytes, with a replacement character for what is not UTF-8. -/
def decodeLossy (bytes : List UInt8) : List Char :=
  lossyFrom .start bytes

/-- Decodes from a state, or refuses. -/
def strictFrom : State → List UInt8 → Option (List Char)
  | .start, [] => some []
  | .inside .., [] => none
  | state, b :: rest =>
    let step := match state with
      | .start => first b.toNat
      | .inside bits more low high => continue? bits more low high b.toNat
    match step with
    | some (next, cs) => (strictFrom next rest).map (cs ++ ·)
    | none => none

/-- Decodes bytes that are UTF-8. -/
def decode? (bytes : List UInt8) : Option (List Char) :=
  strictFrom .start bytes

end Crossing.Text.Utf8
