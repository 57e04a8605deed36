import LexChart.Automaton.Dfa
import LexChart.Recognizer.Network
set_option autoImplicit false

/-!
# The machine behind a chart

The deterministic automaton of a network.  Its states are closures of two kinds: kernels, reached by
scanning a token or by resuming after a completed rule, whose members all belong to rules that began
at the same place; and predictions, which hold what a kernel predicts and always begin where they
are.  Keeping the two apart is what lets a chart store one origin for a whole closure.

A closure steps over calls of nullable rules, so a rule that derives nothing never has to be
completed where it is predicted.
-/

namespace LexChart

/-- What an edge between two closures stands for. -/
inductive MachineStep where
  /-- A token of a lex rule is read. -/
  | scan (lex : Nat)
  /-- A called rule is completed. -/
  | resume (rule : Nat)
  /-- Rules are predicted. -/
  | predict
  deriving DecidableEq

/-- An edge and the closure it leads to. -/
structure MachineEdge where
  step : MachineStep
  closure : Closure

/-- Which rules of a grammar are nullable, by their numbers. -/
abbrev NullableTable : Type := Array Bool

namespace NullableTable

/-- The nullable rules of a grammar. -/
def ofGrammar (g : Grammar) : NullableTable := (g.rules.map Rule.nullable).toArray

/-- The rule of this number is nullable. -/
def holds (nullable : NullableTable) (id : Nat) : Except Fault Bool :=
  match nullable[id]? with
  | some found => .ok found
  | none => .error (.missingRule id)

theorem holds_ofGrammar (g : Grammar) (id : Nat) : (ofGrammar g).holds id = g.isNullable id := by
  unfold holds ofGrammar Grammar.isNullable Grammar.rule
  rw [List.getElem?_toArray, List.getElem?_map]
  cases g.rules[id]? <;> rfl

end NullableTable

namespace RuleNetwork

/-- Where a state leads without a token: through null transitions, through predictions if `predict`
is set, and over calls of nullable rules. -/
def silentTargets (net : RuleNetwork) (nullable : NullableTable) (predict : Bool) (id : Nat) :
    Except Fault (List Nat) := do
  let s ← net.nfa.state id
  let steps := s.transitions.filterMap fun
    | .null target => some target
    | .symbol (.predict _) target => if predict then some target else none
    | _ => none
  let skips ← (net.callsFrom id).mapM fun call =>
    (nullable.holds call.rule).map fun nullable => if nullable then some call.target else none
  pure (steps ++ skips.filterMap fun target => target)

/-- All states reached from a frontier without a token. -/
def silentClosure (net : RuleNetwork) (nullable : NullableTable) (predict : Bool)
    (frontier : List Nat) : Except Fault Closure :=
  Sweep.fresh (Sweep.collect net.nfa.size (net.silentTargets nullable predict) frontier)

/-- The lex rules scanned in a state, with their targets. -/
def scansOf (s : NfaState NetworkLabel) : List (Nat × Nat) :=
  s.transitions.filterMap fun
    | .symbol (.scan lex) target => some (lex, target)
    | _ => none

/-- The entries of the rules predicted in a state. -/
def predictionsOf (s : NfaState NetworkLabel) : List Nat :=
  s.transitions.filterMap fun
    | .symbol (.predict _) target => some target
    | _ => none

/-- The edge that predicts, unless there is nothing to predict or it is all in the closure. -/
def predictEdge (net : RuleNetwork) (nullable : NullableTable) (c : Closure)
    (predicted : List Nat) : Except Fault (List MachineEdge) :=
  if predicted.isEmpty then .ok []
  else do
    let prediction ← net.silentClosure nullable true predicted
    pure (if prediction.isSubset c then [] else [⟨.predict, prediction⟩])

/-- The edges that leave a closure: scans by lex rule, resumptions by rule, and the prediction. -/
def edges (net : RuleNetwork) (nullable : NullableTable) (c : Closure) :
    Except Fault (List MachineEdge) := do
  let states ← c.states.mapM net.nfa.state
  let scans ← (groups (states.flatMap scansOf)).mapM fun (lex, targets) => do
    let closure ← net.silentClosure nullable false targets
    pure (MachineEdge.mk (.scan lex) closure)
  let calls := (c.states.flatMap net.callsFrom).map fun call => (call.rule, call.target)
  let resumptions ← (groups calls).mapM fun (rule, targets) => do
    let closure ← net.silentClosure nullable false targets
    pure (MachineEdge.mk (.resume rule) closure)
  let predictions ← net.predictEdge nullable c (states.flatMap predictionsOf)
  pure (scans ++ resumptions ++ predictions)

/-- The closures that a chart can meet.  A network has no more closures than sets of states. -/
def closures (net : RuleNetwork) (g : Grammar) :
    Except Fault (Numbering Closure MachineEdge) := do
  let entry ← net.entry
  let nullable := NullableTable.ofGrammar g
  let root ← net.silentClosure nullable false [entry]
  Numbering.explore (net.edges nullable) MachineEdge.closure (Nat.pow 2 net.nfa.size) root

end RuleNetwork

/-- A state of the machine. -/
structure MachineState where
  closure : Closure
  /-- The state after a token, by lex rule. -/
  scans : List (Nat × Nat)
  /-- The state after a completed rule, by rule. -/
  gotos : List (Nat × Nat)
  /-- The state of the rules predicted here. -/
  prediction : Option Nat
  /-- The rules that end here. -/
  completions : List Completion
  deriving DecidableEq

namespace MachineState

/-- The state after a token. -/
def scan (s : MachineState) (lex : Nat) : Option Nat := s.scans.lookup lex

/-- The state after a completed rule. -/
def goto (s : MachineState) (rule : Nat) : Option Nat := s.gotos.lookup rule

/-- The rule ends here. -/
def completes (s : MachineState) (rule : Nat) : Bool := s.completions.any fun c => c.rule = rule

/-- The state that stands for a closure. -/
def ofClosure (net : RuleNetwork) (c : Closure) (edges : List (MachineEdge × Nat)) :
    Except Fault MachineState := do
  let completions ← net.nfa.completions c
  pure
    { closure := c
      scans := edges.filterMap fun
        | (⟨.scan lex, _⟩, target) => some (lex, target)
        | _ => none
      gotos := edges.filterMap fun
        | (⟨.resume rule, _⟩, target) => some (rule, target)
        | _ => none
      prediction := (edges.filterMap fun
        | (⟨.predict, _⟩, target) => some target
        | _ => none).getLast?
      completions := completions }

end MachineState

/-- The machine of a grammar, which starts in state zero. -/
structure Machine where
  states : Array MachineState
  startRule : Nat
  lexNames : List String
  ruleNames : List String

namespace Machine

/-- The state in which every chart begins. -/
def start : Nat := 0

/-- The number of states. -/
def size (m : Machine) : Nat := m.states.size

/-- A state by its number. -/
def state (m : Machine) (id : Nat) : Except Fault MachineState :=
  match m.states[id]? with
  | some s => .ok s
  | none => .error (.missingState id)

/-- The name of a lex rule, or a question mark for one that the grammar does not have. -/
def lexName (m : Machine) (lex : Nat) : String := m.lexNames.getD lex "?"

/-- The name of a rule, or a question mark for one that the grammar does not have. -/
def ruleName (m : Machine) (rule : Nat) : String := m.ruleNames.getD rule "?"

/-- The machine of a network. -/
def ofNetwork (net : RuleNetwork) (g : Grammar) : Except Fault Machine := do
  let closures ← net.closures g
  let states ← (closures.states.toList.zip closures.edges.toList).mapM fun (c, edges) =>
    MachineState.ofClosure net c edges
  pure ⟨states.toArray, g.start, g.lexRules.map LexRule.name, g.rules.map Rule.name⟩

/-- The machine of a grammar. -/
def ofGrammar (g : Grammar) : Except Fault Machine := do
  let net ← RuleNetwork.ofGrammar g
  ofNetwork net g

end Machine

end LexChart
