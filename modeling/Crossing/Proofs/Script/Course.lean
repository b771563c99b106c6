import Crossing.Proofs.Script.Split
import Crossing.Script.Calls
import Mathlib.Data.List.ReduceOption

/-!
# The course of a script

The calls of a tree in the order of the text, with some of its characters between them. Where these
are the line feeds, the line that a call starts on is counted off the course (`map_callsIn`), so trees
that take the same course have their calls on the same lines, whatever else stands in their texts.
Where they are none, the course is the calls alone (`reduceOption_courseIn`).
-/

namespace Crossing.Script

open Crossing.Script.Tree

/-! ## Counting lines -/

section Numbered

variable {α β : Type}

/-- What is in a list besides line feeds, which are `none`, with the lines from a first one on. -/
def numbered : (line : Nat) → List (Option α) → List (Nat × α)
  | _, [] => []
  | line, none :: rest => numbered (line + 1) rest
  | line, some a :: rest => (line, a) :: numbered line rest

/-- Line feeds on their own have nothing on their lines. -/
theorem numbered_replicate (line n : Nat) :
    numbered line (List.replicate n (none : Option α)) = [] := by
  induction n generalizing line with
  | zero => rfl
  | succ n ih => exact ih (line + 1)

/-- The line feeds of a first list count for a second one. -/
theorem numbered_append (line : Nat) (xs ys : List (Option α)) : numbered line (xs ++ ys) =
    numbered line xs ++ numbered (line + xs.countP Option.isNone) ys := by
  induction xs generalizing line with
  | nil => rfl
  | cons x xs ih =>
    cases x with
    | none =>
      rw [List.cons_append, numbered, numbered, ih, List.countP_cons_of_pos rfl, Nat.add_right_comm,
        Nat.add_assoc]
    | some a =>
      rw [List.cons_append, numbered, numbered, ih, List.countP_cons_of_neg (by simp),
        List.cons_append]

/-- What becomes of a member does not count for its line. -/
theorem numbered_map (f : α → β) (line : Nat) (xs : List (Option α)) :
    numbered line (xs.map (Option.map f)) = (numbered line xs).map fun p => (p.1, f p.2) := by
  induction xs generalizing line with
  | nil => rfl
  | cons x xs ih =>
    cases x with
    | none => exact ih (line + 1)
    | some a => exact congrArg ((line, f a) :: ·) (ih line)

end Numbered

/-! ## Courses -/

section Courses

variable (feed : Char → Bool)

mutual

/-- The characters of a tree that count, each as `none`, and its calls with their positions, in the
order of the text. -/
def courseAt (spot : Spot) : Tree → List (Option (Spot × Tree))
  | .leaf _ s => .replicate (s.countP feed) none
  | .node kind ts => (if kind = .call then [some (spot, .node kind ts)] else []) ++ courseIn spot ts

/-- The course of trees that follow one another. -/
def courseIn (spot : Spot) : List Tree → List (Option (Spot × Tree))
  | [] => []
  | t :: ts => courseAt spot t ++ courseIn (spot.after t.text) ts

end

mutual

/-- The calls of a tree are those of its course. -/
theorem reduceOption_courseAt (spot : Spot) (t : Tree) :
    (courseAt feed spot t).reduceOption = callsAt spot t := by
  cases t with
  | leaf kind s =>
    rw [courseAt, List.reduceOption_replicate_none]
    rfl
  | node kind ts =>
    rw [courseAt, callsAt, List.reduceOption_append, reduceOption_courseIn spot ts]
    split <;> rfl

/-- The calls in the course of several trees are the calls of the trees. -/
theorem reduceOption_courseIn (spot : Spot) (ts : List Tree) :
    (courseIn feed spot ts).reduceOption = callsIn spot ts := by
  cases ts with
  | nil => rfl
  | cons t ts =>
    rw [courseIn, callsIn, List.reduceOption_append, reduceOption_courseAt spot t,
      reduceOption_courseIn _ ts]

end

mutual

/-- The course of a tree has the characters of its text that count. -/
theorem countP_courseAt (spot : Spot) (t : Tree) :
    (courseAt feed spot t).countP Option.isNone = t.text.countP feed := by
  cases t with
  | leaf kind s => exact List.countP_replicate
  | node kind ts =>
    rw [courseAt, List.countP_append, countP_courseIn spot ts, text]
    split <;> simp

/-- The characters in the course of several trees are those of their texts. -/
theorem countP_courseIn (spot : Spot) (ts : List Tree) :
    (courseIn feed spot ts).countP Option.isNone = (textOf ts).countP feed := by
  cases ts with
  | nil => rfl
  | cons t ts =>
    rw [courseIn, List.countP_append, countP_courseAt spot t, countP_courseIn _ ts, textOf,
      List.countP_append]

end

mutual

/-- Where a tree stands does not count for its course but for the positions. -/
theorem forget_courseAt (spot spot' : Spot) (t : Tree) :
    (courseAt feed spot t).map (Option.map Prod.snd) =
      (courseAt feed spot' t).map (Option.map Prod.snd) := by
  cases t with
  | leaf kind s => rfl
  | node kind ts =>
    rw [courseAt, courseAt, List.map_append, List.map_append, forget_courseIn spot spot' ts]
    split <;> rfl

/-- Without positions, the course of several trees does not depend on where they stand. -/
theorem forget_courseIn (spot spot' : Spot) (ts : List Tree) :
    (courseIn feed spot ts).map (Option.map Prod.snd) =
      (courseIn feed spot' ts).map (Option.map Prod.snd) := by
  cases ts with
  | nil => rfl
  | cons t ts =>
    rw [courseIn, courseIn, List.map_append, List.map_append, forget_courseAt spot spot' t,
      forget_courseIn _ (spot'.after t.text) ts]

end

/-- The characters of a tree that count, and its calls, wherever it stands. -/
def course (t : Tree) : List (Option Tree) :=
  (courseAt feed .start t).map (Option.map Prod.snd)

/-- The course of trees that follow one another, wherever they stand. -/
def courseOf (ts : List Tree) : List (Option Tree) :=
  (courseIn feed .start ts).map (Option.map Prod.snd)

/-- A leaf takes the course of its characters. -/
@[simp]
theorem course_leaf (kind : Leaf) (s : List Char) :
    course feed (.leaf kind s) = .replicate (s.countP feed) none :=
  List.map_replicate

/-- A call takes the course of its children, with itself in front. -/
@[simp]
theorem course_call (ts : List Tree) :
    course feed (.node .call ts) = some (.node .call ts) :: courseOf feed ts := rfl

/-- A node that is no call takes the course of its children. -/
theorem course_node {kind : Kind} (hkind : kind ≠ .call) (ts : List Tree) :
    course feed (.node kind ts) = courseOf feed ts := by
  rw [course, courseAt, if_neg hkind, List.nil_append, courseOf]

/-- No trees take no course. -/
@[simp]
theorem courseOf_nil : courseOf feed [] = [] := rfl

/-- Trees take the course of the first one and then that of the others. -/
@[simp]
theorem courseOf_cons (t : Tree) (ts : List Tree) :
    courseOf feed (t :: ts) = course feed t ++ courseOf feed ts := by
  rw [courseOf, courseIn, List.map_append, forget_courseIn _ _ .start ts]
  rfl

/-- Joined trees take the course of the first ones and then that of the second. -/
@[simp]
theorem courseOf_append (ts us : List Tree) :
    courseOf feed (ts ++ us) = courseOf feed ts ++ courseOf feed us := by
  induction ts with
  | nil => rfl
  | cons t ts ih => rw [List.cons_append, courseOf_cons, ih, courseOf_cons, List.append_assoc]

/-- The course that trees take has the characters of their texts that count. -/
theorem countP_course (t : Tree) :
    (course feed t).countP Option.isNone = t.text.countP feed := by
  rw [course, List.countP_map, ← countP_courseAt feed .start t]
  congr 1
  funext x
  cases x <;> rfl

/-- The characters in the course of trees are those of their texts, wherever they stand. -/
theorem countP_courseOf (ts : List Tree) :
    (courseOf feed ts).countP Option.isNone = (textOf ts).countP feed := by
  rw [courseOf, List.countP_map, ← countP_courseIn feed .start ts]
  congr 1
  funext x
  cases x <;> rfl

/-- The calls that a tree takes in its course are its calls. -/
theorem reduceOption_course (spot : Spot) (t : Tree) :
    (course feed t).reduceOption = (callsAt spot t).map Prod.snd := by
  rw [course, forget_courseAt feed .start spot, List.reduceOption_map, reduceOption_courseAt]

end Courses

/-! ## Lines -/

/-- Whether a character ends a line. -/
def isFeed (c : Char) : Bool := c == '\n'

mutual

/-- The calls of a tree and their lines are those of its course. -/
theorem map_callsAt (spot : Spot) (t : Tree) :
    (callsAt spot t).map (fun p => (p.1.line, p)) =
      numbered spot.line (courseAt isFeed spot t) := by
  cases t with
  | leaf kind s =>
    rw [courseAt, numbered_replicate]
    rfl
  | node kind ts =>
    rw [callsAt, courseAt, List.map_append, map_callsIn spot ts]
    split <;> rfl

/-- The calls of several trees with their lines are numbered along the course. -/
theorem map_callsIn (spot : Spot) (ts : List Tree) :
    (callsIn spot ts).map (fun p => (p.1.line, p)) =
      numbered spot.line (courseIn isFeed spot ts) := by
  cases ts with
  | nil => rfl
  | cons t ts =>
    rw [callsIn, courseIn, List.map_append, numbered_append, map_callsAt spot t,
      map_callsIn _ ts, countP_courseAt]
    rfl

end

/-- The lines of the calls of a tree are counted off its course. -/
theorem lines_callsAt (spot : Spot) (t : Tree) :
    (callsAt spot t).map (fun p => (p.1.line, p.2)) = numbered spot.line (course isFeed t) := by
  rw [course, forget_courseAt isFeed .start spot, numbered_map, ← map_callsAt, List.map_map]
  rfl

end Crossing.Script
