/-!
# Searching and cutting text

Cutting a text at the first occurrence of a character or of a run of characters, and asking
whether a run occurs. Splitting at every occurrence is `List.splitOn` of the standard library. What
is cut and joined may be bytes as well as characters.
-/

namespace Crossing.Text

/-- The text before and after the first `c`, if there is one. -/
def cut? {α : Type} [DecidableEq α] (c : α) : List α → Option (List α × List α)
  | [] => none
  | x :: rest =>
    if x = c then some ([], rest)
    else (cut? c rest).map fun (before, after) => (x :: before, after)

/-- The text after `head`, if the text starts with it. -/
def after? : (head s : List Char) → Option (List Char)
  | [], s => some s
  | _ :: _, [] => none
  | h :: head, c :: s => if h = c then after? head s else none

/-- The text after the first occurrence of `run`, if there is one. -/
def afterFirst? (run : List Char) : List Char → Option (List Char)
  | [] => after? run []
  | c :: rest =>
    match after? run (c :: rest) with
    | some tail => some tail
    | none => afterFirst? run rest

/-- Whether `p` holds of some suffix of the text, the empty one included. -/
def anySuffix (p : List Char → Bool) : List Char → Bool
  | [] => p []
  | c :: rest => p (c :: rest) || anySuffix p rest

/-- Whether `run` occurs in the text. -/
def occurs (run s : List Char) : Bool :=
  anySuffix run.isPrefixOf s

/-- Every `first` that is followed by `second` is dropped together with it, and `instead` stands in
their place. -/
def replacePair (first second instead : Char) : List Char → List Char
  | x :: y :: rest =>
    if x = first ∧ y = second then instead :: replacePair first second instead rest
    else x :: replacePair first second instead (y :: rest)
  | s => s

/-- The texts with `separator` between neighbours. -/
def join {α : Type} (separator : List α) : List (List α) → List α
  | [] => []
  | [s] => s
  | s :: rest => s ++ separator ++ join separator rest

end Crossing.Text
