set_option autoImplicit false

/-!
# How often an expression is repeated

A repetition is written with two flags and two counts, any of which may be left out.  What it means
is a pair of bounds, `lower` and `upper`; different repetitions may have the same bounds, and
`text` shows the bounds alone.
-/

namespace LexChart

/-- A repetition as written. -/
structure Repetition where
  /-- It may be left out altogether. -/
  isOptional : Bool := false
  /-- It may be repeated. -/
  isMany : Bool := false
  /-- The least count, if one is given. -/
  minCount : Option Nat := none
  /-- The greatest count, if one is given. -/
  maxCount : Option Nat := none
  deriving DecidableEq

namespace Repetition

/-- Nothing written: exactly once. -/
def once : Repetition := {}

/-- At most once. -/
def optional : Repetition := { isOptional := true }

/-- At least once. -/
def many : Repetition := { isMany := true }

/-- Any number of times. -/
def star : Repetition := { isOptional := true, isMany := true }

/-- At least `min` times, and at most `max` times if a greatest count is given. -/
def between (min : Nat) (max : Option Nat) : Repetition :=
  { isMany := max.isNone, minCount := some min, maxCount := max }

/-- The least number of occurrences. -/
def lower (r : Repetition) : Nat :=
  if r.isOptional then 0 else r.minCount.getD 1

/-- The greatest number of occurrences, if there is one.  A greatest count below the least one gives
way to it. -/
def upper (r : Repetition) : Option Nat :=
  match r.maxCount with
  | some count => some (max count r.lower)
  | none => if r.isMany then none else some (max r.lower 1)

/-- Some number of occurrences lies within the bounds. -/
def Allows (r : Repetition) (count : Nat) : Prop :=
  r.lower ≤ count ∧ ∀ most, r.upper = some most → count ≤ most

/-- The bounds never exclude each other. -/
theorem lower_le_upper {r : Repetition} {most : Nat} (h : r.upper = some most) :
    r.lower ≤ most := by
  unfold upper at h
  split at h
  · cases h; exact Nat.le_max_right _ _
  · split at h
    · cases h
    · cases h; exact Nat.le_max_left _ _

/-- The bounds as a quantifier: nothing for exactly once, and the shortest form otherwise. -/
def text (r : Repetition) : String :=
  match r.lower, r.upper with
  | 1, some 1 => ""
  | 0, some 1 => "?"
  | 0, none => "*"
  | 1, none => "+"
  | least, none => "\x7b" ++ toString least ++ ",\x7d"
  | least, some most =>
    if least = most then "\x7b" ++ toString least ++ "\x7d"
    else "\x7b" ++ toString least ++ "," ++ toString most ++ "\x7d"

end Repetition

end LexChart
