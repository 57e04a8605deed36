import LexChart.Ascending
import LexChart.Charset.Interval
set_option autoImplicit false

/-!
# Sets of characters as lists of intervals

A list of intervals stands for the set of characters that lie in one of them.  Three operations
work on that set:

* `normalize` gives its only list of ascending intervals with a gap between any two neighbours;
* `invert` gives the normal form of its complement;
* `partition` cuts it into classes of characters that lie in the same intervals of the list.
-/

namespace LexChart

/-- Joins neighbours of a list from left to right, as long as `join?` has a result for the element
built so far and the next one. -/
def coalesceFrom {α : Type} (join? : α → α → Option α) (current : α) : List α → List α
  | [] => [current]
  | next :: rest =>
    match join? current next with
    | some joined => coalesceFrom join? joined rest
    | none => current :: coalesceFrom join? next rest

/-- `coalesceFrom` started at the first element. -/
def coalesce {α : Type} (join? : α → α → Option α) : List α → List α
  | [] => []
  | first :: rest => coalesceFrom join? first rest

namespace Interval

/-- A character lies in some interval of the list. -/
def Covers (xs : List Interval) (c : Char) : Prop := ∃ i ∈ xs, c ∈ i

instance (xs : List Interval) (c : Char) : Decidable (Covers xs c) :=
  inferInstanceAs (Decidable (∃ i ∈ xs, c ∈ i))

/-- The same characters as ascending intervals, overlapping or adjacent ones merged. -/
def normalize (xs : List Interval) : List Interval :=
  coalesce merge? (ascending xs)

/-- The characters from ordinal `next` on that lie in none of the intervals, which are expected to
be normal and to start at `next` or later. -/
def gapsFrom (next : Nat) : List Interval → List Interval
  | [] => (ofOrdinals? next (Char.numCodePoints - 1)).toList
  | i :: rest =>
    (if next < i.first then (ofOrdinals? next (i.first - 1)).toList else []) ++
      gapsFrom (i.last + 1) rest

/-- The characters that lie in none of the intervals, in normal form. -/
def invert (xs : List Interval) : List Interval := gapsFrom 0 (normalize xs)

/-- The ordinals at which the set of intervals that hold a character may change. -/
def bounds (xs : List Interval) : List Nat :=
  ascending (xs.flatMap fun i => [i.first, i.last + 1])

/-- The positions, out of those given with the intervals, of the intervals that hold a character. -/
def positions (xs : List (Interval × Nat)) (c : Char) : List Nat :=
  xs.filterMap fun (i, position) => if c ∈ i then some position else none

/-- Two neighbouring classes with the same positions are one class. -/
def joinClasses? (a b : Interval × List Nat) : Option (Interval × List Nat) :=
  if a.2 = b.2 ∧ a.1.isAdjacent b.1 then some (hull a.1 b.1, a.2) else none

/-- The characters that lie in some interval, cut into ascending classes.  All characters of a class
lie in the same intervals of the list, whose positions come with the class. -/
def partition (xs : List Interval) : List (Interval × List Nat) :=
  let cuts := bounds xs
  let numbered := xs.zipIdx
  coalesce joinClasses? <| (cuts.zip cuts.tail).filterMap fun (lo, next) => do
    let piece ← ofOrdinals? lo (next - 1)
    let members := positions numbered piece.lo
    if members.isEmpty then none else some (piece, members)

end Interval

end LexChart
