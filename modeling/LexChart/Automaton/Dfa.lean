import LexChart.Automaton.Closure
import LexChart.Charset.Cover
import LexChart.Numbering
set_option autoImplicit false

/-!
# Deterministic automata

`Dfa.build` makes an automaton deterministic by following all of its states at once: a state stands
for a closure, the set of states that the same word can lead to.  The labels that leave a closure
are cut into disjoint classes, so no two transitions of a state read the same symbol, and the
classes come in ascending order, so the result does not depend on the order of transitions.

A completion says which rule is matched where a set of final states is reached.
-/

namespace LexChart

/-- Labels that can be cut into disjoint classes. -/
class Alphabet (L : Type) where
  /-- Disjoint classes in ascending order, each with the positions of the labels it is part of. -/
  classes : List L → List (L × List Nat)

instance : Alphabet Interval where
  classes := Interval.partition

instance : Alphabet Char where
  classes labels := groups labels.zipIdx

/-- A rule that is matched, and the final states that match it. -/
structure Completion where
  rule : Nat
  states : List Nat
  deriving DecidableEq

namespace Completion

/-- The rule by its number. -/
def text (c : Completion) : String := "#" ++ toString c.rule

/-- The completions of a list, separated by commas. -/
def listText (cs : List Completion) : String := ", ".intercalate (cs.map text)

end Completion

/-- One completion for each rule that some state of the closure is final for, by rule. -/
def Nfa.completions {L : Type} (nfa : Nfa L) (c : Closure) : Except Fault (List Completion) := do
  let finals ← nfa.finals c
  pure ((groups finals).map fun (rule, states) => ⟨rule, states⟩)

/-- A transition of a deterministic automaton. -/
structure DfaTransition (L : Type) where
  label : L
  target : Nat
  /-- The rules matched where the transition leads. -/
  completions : List Completion
  deriving DecidableEq

/-- A state of a deterministic automaton. -/
structure DfaState (L : Type) where
  closure : Closure
  /-- The rules matched here. -/
  accepts : List Completion
  transitions : List (DfaTransition L)
  deriving DecidableEq

/-- Some rule is matched here. -/
def DfaState.isFinal {L : Type} (s : DfaState L) : Bool := !s.accepts.isEmpty

/-- A deterministic automaton, which starts in state zero. -/
structure Dfa (L : Type) where
  states : Array (DfaState L)
  deriving DecidableEq

namespace Dfa

variable {L : Type}

/-- The state in which every run begins. -/
def start : Nat := 0

/-- The number of states. -/
def size (dfa : Dfa L) : Nat := dfa.states.size

/-- A state by its number. -/
@[inline]
def state (dfa : Dfa L) (id : Nat) : Except Fault (DfaState L) :=
  match dfa.states[id]? with
  | some s => .ok s
  | none => .error (.missingState id)

end Dfa

/-! ## Subset construction -/

/-- A class of symbols that leaves a closure, and the closure and completions it leads to. -/
structure SubsetEdge (L : Type) where
  label : L
  closure : Closure
  completions : List Completion

namespace Nfa

variable {L : Type}

/-- The transitions that read a symbol and leave some state of a closure. -/
def moves (nfa : Nfa L) (c : Closure) : Except Fault (List (L × Nat)) := do
  let states ← c.states.mapM nfa.state
  pure (states.flatMap NfaState.moves)

/-- The edges that leave a closure, one for each class of labels. -/
def subsetEdges [Alphabet L] (nfa : Nfa L) (c : Closure) : Except Fault (List (SubsetEdge L)) := do
  let moves ← nfa.moves c
  let targets := (moves.map Prod.snd).toArray
  (Alphabet.classes (moves.map Prod.fst)).mapM fun (label, members) => do
    let closure ← nfa.nullClosure (members.filterMap fun k => targets[k]?)
    let completions ← nfa.completions closure
    pure ⟨label, closure, completions⟩

/-- The closures that some word leads to from a state.  An automaton has no more closures than sets
of states. -/
def subsets [Alphabet L] (nfa : Nfa L) (start : Nat) :
    Except Fault (Numbering Closure (SubsetEdge L)) := do
  let root ← nfa.nullClosure [start]
  Numbering.explore nfa.subsetEdges SubsetEdge.closure (Nat.pow 2 nfa.size) root

end Nfa

namespace Dfa

variable {L : Type}

/-- The state that stands for a closure. -/
def ofClosure (nfa : Nfa L) (c : Closure) (edges : List (SubsetEdge L × Nat)) :
    Except Fault (DfaState L) := do
  let accepts ← nfa.completions c
  pure ⟨c, accepts, edges.map fun (edge, target) => ⟨edge.label, target, edge.completions⟩⟩

/-- The deterministic automaton that reads the same words as another one from a state of it. -/
def build [Alphabet L] (nfa : Nfa L) (start : Nat) : Except Fault (Dfa L) := do
  let subsets ← nfa.subsets start
  let states ← (subsets.states.toList.zip subsets.edges.toList).mapM fun (c, edges) =>
    ofClosure nfa c edges
  pure ⟨states.toArray⟩

end Dfa

end LexChart
