import LexChart.Automaton.Dfa
set_option autoImplicit false

/-!
# Dispatch tables

The transitions of a state, arranged for lookup by character.  Characters with a code point below
256 have a slot each, all others share a list of intervals.  Where two transitions read the same
character, the first one takes it.
-/

namespace LexChart

/-- The transitions of one state by their positions. -/
structure DispatchTable where
  /-- The transition of each code point below `DispatchTable.directSize`. -/
  direct : Array (Option Nat)
  /-- The transitions of all other characters. -/
  wide : List (Interval × Nat)

namespace DispatchTable

/-- The number of characters with a slot of their own. -/
def directSize : Nat := 256

/-- The first character without a slot of its own. -/
def firstWide : Char := Char.ofNat 256

/-- The table without transitions. -/
def empty : DispatchTable := ⟨Array.replicate directSize none, []⟩

/-- Gives the free ones of `count` slots from `slot` on to a transition. -/
def fill (position : Nat) (direct : Array (Option Nat)) (slot : Nat) : Nat → Array (Option Nat)
  | 0 => direct
  | count + 1 =>
    fill position (direct.modify slot fun owner => some (owner.getD position)) (slot + 1) count

/-- The part of an interval without slots. -/
def widePart (i : Interval) : Option Interval :=
  Interval.ofChars? (if i.lo ≤ firstWide then firstWide else i.lo) i.hi

/-- The table with a transition after those it has. -/
def add (table : DispatchTable) (label : Interval) (position : Nat) : DispatchTable where
  direct := fill position table.direct label.lo.toNat
    (min (label.hi.toNat + 1) directSize - label.lo.toNat)
  wide := table.wide ++ ((widePart label).map (·, position)).toList

/-- The table of transitions with these labels. -/
def ofLabels (labels : List Interval) : DispatchTable :=
  labels.zipIdx.foldl (fun table (label, position) => table.add label position) empty

/-- The table of a state. -/
def ofState (s : DfaState Interval) : DispatchTable :=
  ofLabels (s.transitions.map DfaTransition.label)

/-- The position of the transition that reads a character. -/
@[inline]
def lookup (table : DispatchTable) (c : Char) : Option Nat :=
  if c.toNat < directSize then table.direct.getD c.toNat none
  else (table.wide.find? fun entry => c ∈ entry.1).map Prod.snd

end DispatchTable

/-- The tables of all states of an automaton. -/
abbrev Dispatch : Type := Array DispatchTable

namespace Dispatch

/-- The tables of all states. -/
def ofDfa (dfa : Dfa Interval) : Dispatch := dfa.states.map DispatchTable.ofState

/-- The transition that leaves a state with a character. -/
@[inline]
def step (tables : Dispatch) (dfa : Dfa Interval) (id : Nat) (c : Char) :
    Except Fault (Option (DfaTransition Interval)) :=
  match tables[id]? with
  | none => .error (.missingState id)
  | some table =>
    match table.lookup c with
    | none => .ok none
    | some position => do
      let s ← dfa.state id
      pure s.transitions[position]?

end Dispatch

end LexChart
