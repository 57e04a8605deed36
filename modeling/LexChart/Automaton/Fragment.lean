import LexChart.Automaton.Nfa
import LexChart.Expr.Basic
set_option autoImplicit false

/-!
# The automaton of an expression

A fragment is a piece of an automaton with one entry and one exit.  A builder adds a fragment to an
automaton and changes no state that was there before.  There is one builder for each way to put an
expression together: a terminal becomes parallel transitions, one for each label; a choice branches
from a common entry to a common exit; a sequence links each part to the next; a repetition makes a
copy for every occurrence it asks for, and goes back for those it allows without limit.
-/

namespace LexChart

/-- A piece of an automaton that is entered and left in one state each. -/
structure Fragment where
  entry : Nat
  exit : Nat
  deriving DecidableEq

/-- Actions that add states and transitions to an automaton. -/
abbrev Building (L : Type) : Type → Type := StateM (Nfa L)

namespace Building

variable {L : Type}

/-- Adds a state. -/
def newState : Building L Nat := fun nfa => let (nfa, id) := nfa.addState; (id, nfa)

/-- Adds a transition. -/
def connect (source : Nat) (t : Transition L) : Building L Unit :=
  modify fun nfa => nfa.modifyState source fun s => s.addTransition t

/-- Adds a null transition. -/
def link (source target : Nat) : Building L Unit := connect source (.null target)

/-- Adds parallel transitions. -/
def connectAll (source target : Nat) : List L → Building L Unit
  | [] => pure ()
  | label :: rest => do
    connect source (.symbol label target)
    connectAll source target rest

/-- One symbol that some label of the list stands for. -/
def symbols (labels : List L) : Building L Fragment := do
  let entry ← newState
  let exit ← newState
  connectAll entry exit labels
  pure ⟨entry, exit⟩

/-- Leads from an entry through each branch to an exit. -/
def branches (entry exit : Nat) : List (Building L Fragment) → Building L Unit
  | [] => pure ()
  | builder :: rest => do
    let branch ← builder
    link entry branch.entry
    link branch.exit exit
    branches entry exit rest

/-- One of several fragments. -/
def choice (builders : List (Building L Fragment)) : Building L Fragment := do
  let entry ← newState
  let exit ← newState
  branches entry exit builders
  pure ⟨entry, exit⟩

/-- Links fragments one after the other behind a state, and gives the exit of the last one. -/
def chain (last : Nat) : List (Building L Fragment) → Building L Nat
  | [] => pure last
  | builder :: rest => do
    let item ← builder
    link last item.entry
    chain item.exit rest

/-- All of several fragments, one after the other. -/
def sequence (builders : List (Building L Fragment)) : Building L Fragment := do
  let entry ← newState
  let exit ← chain entry builders
  pure ⟨entry, exit⟩

/-- Links `count` copies of a fragment behind a state.  Gives the exit of the last copy, or the
state itself, and the last copy. -/
def copies (builder : Building L Fragment) (last : Nat) (copy : Option Fragment) :
    Nat → Building L (Nat × Option Fragment)
  | 0 => pure (last, copy)
  | count + 1 => do
    let next ← builder
    link last next.entry
    copies builder next.exit (some next) count

/-- Links `count` copies of a fragment behind a state, each of which may be left out together with
all that follow it.  Gives the exit of the last copy. -/
def optionalCopies (builder : Building L Fragment) (last exit : Nat) : Nat → Building L Nat
  | 0 => pure last
  | count + 1 => do
    let next ← builder
    link last exit
    link last next.entry
    optionalCopies builder next.exit exit count

/-- Any number of copies of a fragment behind an entry. -/
def loop (builder : Building L Fragment) (entry : Nat) : Building L Fragment := do
  let copy ← builder
  let exit ← newState
  link entry copy.entry
  link entry exit
  link copy.exit exit
  link copy.exit copy.entry
  pure ⟨entry, exit⟩

/-- As many copies of a fragment as a repetition allows. -/
def repeated (r : Repetition) (builder : Building L Fragment) : Building L Fragment :=
  if r.lower = 1 ∧ r.upper = some 1 then builder
  else do
    let entry ← newState
    let (last, copy) ← copies builder entry none r.lower
    match r.upper, copy with
    | none, none => loop builder entry
    | none, some copy =>
      link copy.exit copy.entry
      pure ⟨entry, last⟩
    | some most, _ =>
      let exit ← newState
      let last ← optionalCopies builder last exit (most - r.lower)
      link last exit
      pure ⟨entry, exit⟩

/-- Parts joined by choice or sequence. -/
def joined : Join → List (Building L Fragment) → Building L Fragment
  | .choice => choice
  | .sequence => sequence

end Building

namespace Expr

variable {α L : Type}

mutual

/-- The builder of an expression, given the labels of a terminal. -/
def builder (labels : α → List L) : Expr α → Building L Fragment
  | .leaf m t => Building.repeated m.repetition (Building.symbols (labels t))
  | .node m join parts =>
    Building.repeated m.repetition (Building.joined join (partBuilders labels parts))

/-- The builders of all parts. -/
def partBuilders (labels : α → List L) : List (Expr α) → List (Building L Fragment)
  | [] => []
  | part :: rest => builder labels part :: partBuilders labels rest

end

end Expr

/-- The automaton with the fragment of an expression added, and that fragment. -/
def Nfa.build {α L : Type} (nfa : Nfa L) (labels : α → List L) (e : Expr α) : Nfa L × Fragment :=
  let (fragment, nfa) := (e.builder labels).run nfa
  (nfa, fragment)

end LexChart
