import LexChart.Fault
set_option autoImplicit false

/-!
# Nondeterministic automata

States are numbered from zero.  A state lists its transitions in order, null transitions, which read
nothing, among those that read a symbol with their label; and it may be final for one rule.

The checked operations answer with a fault if the state that they change does not exist.  Targets
are not checked.
-/

namespace LexChart

/-- One way out of a state. -/
inductive Transition (L : Type) where
  /-- Reads nothing. -/
  | null (target : Nat)
  /-- Reads one symbol that the label stands for. -/
  | symbol (label : L) (target : Nat)
  deriving DecidableEq

namespace Transition

variable {L : Type}

/-- Where the transition leads. -/
def target : Transition L → Nat
  | null target => target
  | symbol _ target => target

/-- The label of a transition that reads a symbol. -/
def label? : Transition L → Option L
  | null _ => none
  | symbol label _ => some label

/-- The target of a null transition. -/
def nullTarget? : Transition L → Option Nat
  | null target => some target
  | symbol _ _ => none

/-- Label and target of a transition that reads a symbol. -/
def move? : Transition L → Option (L × Nat)
  | null _ => none
  | symbol label target => some (label, target)

end Transition

/-- A state: its transitions, and the rule that is matched where it is reached. -/
structure NfaState (L : Type) where
  transitions : List (Transition L) := []
  accept : Option Nat := none
  deriving DecidableEq

namespace NfaState

variable {L : Type}

/-- The targets of the null transitions. -/
def nullTargets (s : NfaState L) : List Nat := s.transitions.filterMap Transition.nullTarget?

/-- The transitions that read a symbol. -/
def moves (s : NfaState L) : List (L × Nat) := s.transitions.filterMap Transition.move?

/-- The state with one more transition after its others. -/
def addTransition (s : NfaState L) (t : Transition L) : NfaState L :=
  { s with transitions := s.transitions ++ [t] }

end NfaState

/-- A nondeterministic automaton with labels of type `L`. -/
structure Nfa (L : Type) where
  states : Array (NfaState L) := #[]
  deriving DecidableEq

namespace Nfa

variable {L : Type}

/-- The automaton without states. -/
def empty : Nfa L := {}

/-- The number of states. -/
def size (nfa : Nfa L) : Nat := nfa.states.size

/-- A state by its number. -/
def state (nfa : Nfa L) (id : Nat) : Except Fault (NfaState L) :=
  match nfa.states[id]? with
  | some s => .ok s
  | none => .error (.missingState id)

/-- The automaton with one more state, and the number of that state. -/
def addState (nfa : Nfa L) : Nfa L × Nat :=
  let id := nfa.size
  (⟨nfa.states.push {}⟩, id)

/-- The automaton with one of its states changed. -/
def modifyState (nfa : Nfa L) (id : Nat) (f : NfaState L → NfaState L) : Nfa L :=
  ⟨nfa.states.modify id f⟩

/-- `modifyState` of a state that is known to the caller. -/
def changeState (nfa : Nfa L) (id : Nat) (f : NfaState L → NfaState L) : Except Fault (Nfa L) := do
  let _ ← nfa.state id
  pure (nfa.modifyState id f)

/-- The automaton with one more transition out of an existing state. -/
def addTransition (nfa : Nfa L) (source : Nat) (t : Transition L) : Except Fault (Nfa L) :=
  nfa.changeState source fun s => s.addTransition t

/-- The automaton with an existing state final for a rule. -/
def setAccept (nfa : Nfa L) (id rule : Nat) : Except Fault (Nfa L) :=
  nfa.changeState id fun s => { s with accept := some rule }

end Nfa

end LexChart
