import LexChart.Fault
set_option autoImplicit false

/-!
# Intervals of characters

A closed interval `lo..hi` of characters.  Characters are counted by their ordinal, the position
in the list of all Unicode scalar values, so the code points reserved for surrogates are not a gap:
U+D7FF and U+E000 are neighbours, and the size of an interval is a difference of ordinals.

An interval is never empty: `lo ≤ hi` is part of the type, and every operation keeps it.
-/

namespace LexChart

/-- The characters from `lo` to `hi`, both included. -/
structure Interval where
  lo : Char
  hi : Char
  lo_le_hi : lo ≤ hi
  deriving DecidableEq

namespace Interval

/-- The interval between two characters, if the first is not after the second. -/
def ofChars? (lo hi : Char) : Option Interval :=
  if h : lo ≤ hi then some ⟨lo, hi, h⟩ else none

/-- The interval between two characters; it is a fault if the first is after the second. -/
def between (lo hi : Char) : Except Fault Interval :=
  if h : lo ≤ hi then .ok ⟨lo, hi, h⟩ else .error (.emptyInterval lo hi)

/-- The interval of one character. -/
def single (c : Char) : Interval := ⟨c, c, Char.le_refl c⟩

/-- The interval between two ordinals, if it is not empty and both are ordinals of characters. -/
def ofOrdinals? (lo hi : Nat) : Option Interval :=
  if h : lo ≤ hi ∧ hi < Char.numCodePoints then
    some ⟨Char.ofOrdinal ⟨lo, by omega⟩, Char.ofOrdinal ⟨hi, h.2⟩,
      Char.ofOrdinal_le_of_le (Fin.mk_le_mk.2 h.1)⟩
  else none

/-- Every character. -/
def all : Interval := ⟨'\x00', Char.ofNat 0x10FFFF, by decide⟩

instance : Membership Char Interval := ⟨fun i c => i.lo ≤ c ∧ c ≤ i.hi⟩

instance (c : Char) (i : Interval) : Decidable (c ∈ i) :=
  inferInstanceAs (Decidable (_ ∧ _))

/-- The ordinal of the first character. -/
def first (i : Interval) : Nat := i.lo.ordinal

/-- The ordinal of the last character. -/
def last (i : Interval) : Nat := i.hi.ordinal

theorem first_le_last (i : Interval) : i.first ≤ i.last :=
  Char.ordinal_le_of_le i.lo_le_hi

theorem last_lt (i : Interval) : i.last < Char.numCodePoints := i.hi.ordinal.isLt

/-- A character lies in an interval exactly when its ordinal lies between the two ends. -/
theorem mem_iff (c : Char) (i : Interval) :
    c ∈ i ↔ i.first ≤ c.ordinal.val ∧ c.ordinal.val ≤ i.last := by
  show i.lo ≤ c ∧ c ≤ i.hi ↔ _
  rw [Char.le_iff_ordinal_le, Char.le_iff_ordinal_le]
  rfl

@[simp] theorem mem_single {c d : Char} : d ∈ single c ↔ d = c :=
  ⟨fun h => Char.le_antisymm h.2 h.1, fun h => h ▸ ⟨Char.le_refl d, Char.le_refl d⟩⟩

theorem first_ofOrdinals {lo hi : Nat} {i : Interval} (h : ofOrdinals? lo hi = some i) :
    i.first = lo ∧ i.last = hi := by
  unfold ofOrdinals? at h
  split at h
  · cases h; simp [first, last]
  · cases h

/-- An interval of one character. -/
def isSingle (i : Interval) : Bool := i.lo = i.hi

/-- The number of characters in the interval. -/
def size (i : Interval) : Nat := i.last + 1 - i.first

/-- Some character lies in both. -/
def overlaps (a b : Interval) : Bool := a.lo ≤ b.hi ∧ b.lo ≤ a.hi

/-- One ends right before the other begins. -/
def isAdjacent (a b : Interval) : Bool := a.last + 1 = b.first ∨ b.last + 1 = a.first

/-- The interval from the smaller of the two beginnings to the larger of the two ends. -/
def hull (a b : Interval) : Interval where
  lo := if a.lo ≤ b.lo then a.lo else b.lo
  hi := if a.hi ≤ b.hi then b.hi else a.hi
  lo_le_hi := by
    have ha := a.lo_le_hi
    have hb := b.lo_le_hi
    split <;> split
    · exact Char.le_trans ha ‹_›
    · exact ha
    · exact hb
    · rename_i h1 h2
      exact Char.le_trans hb (Std.le_of_not_ge h2)

/-- The union of two intervals, if it is an interval. -/
def merge? (a b : Interval) : Option Interval :=
  if a.overlaps b || a.isAdjacent b then some (hull a b) else none

/-- The characters that lie in both. -/
def intersect? (a b : Interval) : Option Interval :=
  ofChars? (if a.lo ≤ b.lo then b.lo else a.lo) (if a.hi ≤ b.hi then a.hi else b.hi)

/-- The characters of `a` that are not in `b`: what stands before `b` and what stands after it. -/
def minus (a b : Interval) : List Interval :=
  if a.overlaps b then
    (if a.first < b.first then (ofOrdinals? a.first (b.first - 1)).toList else []) ++
      (if b.last < a.last then (ofOrdinals? (b.last + 1) a.last).toList else [])
  else [a]

/-- Intervals are ordered by their beginning, then by their end. -/
def compare (a b : Interval) : Ordering :=
  (Ord.compare a.first b.first).then (Ord.compare a.last b.last)

/-- `a` stands before `b` or is `b`. -/
instance : LE Interval := ⟨fun a b => a.first < b.first ∨ (a.first = b.first ∧ a.last ≤ b.last)⟩

instance : DecidableLE Interval := fun a b => inferInstanceAs (Decidable (a.first < b.first ∨ _))

end Interval

end LexChart
