import LexChart.Charset.Cover
set_option autoImplicit false

/-!
# Character classes

The leaves of a pattern: one character, a range, any character, or a set of intervals that may be
negated.  `CharClass.intervals` gives the characters of a class, and `CharClass.ofSet` the simplest
class with the characters of a set.
-/

namespace LexChart

/-- A class of characters as a pattern writes it. -/
inductive CharClass where
  | char (c : Char)
  | range (interval : Interval)
  | any
  | set (intervals : List Interval) (negated : Bool)
  deriving DecidableEq

namespace CharClass

/-- The class of the characters in some interval, or of all others if it is negated.  A set of one
character and a set of one interval have a shorter form, unless they are negated. -/
def ofSet (intervals : List Interval) (negated : Bool) : CharClass :=
  match Interval.normalize intervals, negated with
  | [i], false => if i.isSingle then char i.lo else range i
  | normal, negated => set normal negated

/-- The intervals whose characters are those of the class. -/
def intervals : CharClass → List Interval
  | char c => [.single c]
  | range i => [i]
  | any => [.all]
  | set intervals false => intervals
  | set intervals true => Interval.invert intervals

/-- The class holds the character. -/
def holds (cls : CharClass) (c : Char) : Bool := cls.intervals.any fun i => c ∈ i

/-- Which of some characters the class holds. -/
def holdsEach (cls : CharClass) (cs : List Char) : List Bool :=
  let intervals := cls.intervals
  cs.map fun c => intervals.any fun i => c ∈ i

end CharClass

end LexChart
