import LexChart.Fault
import Std.Data.HashSet
set_option autoImplicit false

/-!
# Charts

A chart has one set for each boundary between tokens.  A set holds items, each a state of the
machine and the location of the set in which its rules began, in the order in which they were
inserted and none of them twice.
-/

namespace LexChart

/-- A state of the machine, and where its rules began. -/
structure ChartItem where
  state : Nat
  origin : Nat
  deriving DecidableEq, Hashable

namespace ChartItem

/-- State and origin between parentheses. -/
def text (i : ChartItem) : String :=
  "(" ++ toString i.state ++ ", " ++ toString i.origin ++ ")"

/-- Items are ordered by state, then by origin. -/
instance : LE ChartItem :=
  ⟨fun a b => a.state < b.state ∨ (a.state = b.state ∧ a.origin ≤ b.origin)⟩

instance : DecidableLE ChartItem :=
  fun a b => inferInstanceAs (Decidable (a.state < b.state ∨ _))

end ChartItem

/-- The items at one boundary between tokens. -/
structure ChartSet where
  location : Nat
  /-- The items in the order in which they were inserted. -/
  items : Array ChartItem
  /-- The same items, as they are looked up. -/
  index : Std.HashSet ChartItem
  mem_index : ∀ i, i ∈ index ↔ i ∈ items

namespace ChartSet

/-- Two sets are the same if they have the same items in the same order at the same location. -/
instance : BEq ChartSet := ⟨fun a b => a.location == b.location && a.items == b.items⟩

/-- The set without items. -/
def empty (location : Nat) : ChartSet := ⟨location, #[], {}, by simp⟩

/-- The set holds the item. -/
def contains (s : ChartSet) (i : ChartItem) : Bool := s.index.contains i

theorem contains_iff {s : ChartSet} {i : ChartItem} : s.contains i = true ↔ i ∈ s.items :=
  s.mem_index i

/-- The set with one more item behind those it has. -/
def push (s : ChartSet) (i : ChartItem) : ChartSet where
  location := s.location
  items := s.items.push i
  index := s.index.insert i
  mem_index j := by
    rw [Std.HashSet.mem_insert, Array.mem_push, s.mem_index, beq_iff_eq, or_comm, eq_comm]

/-- The set with one more item; says whether it was not there before. -/
def insert (s : ChartSet) (i : ChartItem) : ChartSet × Bool :=
  if s.contains i then (s, false) else (s.push i, true)

/-- The number of items. -/
def size (s : ChartSet) : Nat := s.items.size

/-- The item at a position. -/
def get? (s : ChartSet) (position : Nat) : Option ChartItem := s.items[position]?

end ChartSet

/-- The sets at all boundaries so far. -/
structure Chart where
  sets : Array ChartSet := #[]
  deriving BEq

namespace Chart

/-- The chart without sets. -/
def empty : Chart := {}

/-- The number of sets. -/
def size (c : Chart) : Nat := c.sets.size

/-- The set at a location. -/
def set (c : Chart) (location : Nat) : Except Fault ChartSet :=
  match c.sets[location]? with
  | some s => .ok s
  | none => .error (.missingSet location)

/-- The chart with one more set. -/
def push (c : Chart) (s : ChartSet) : Chart := ⟨c.sets.push s⟩

end Chart

end LexChart
