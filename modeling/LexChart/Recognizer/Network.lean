import LexChart.Automaton.Closure
import LexChart.Automaton.Fragment
import LexChart.Grammar.Basic
import LexChart.Numbering
set_option autoImplicit false

/-!
# The network of a grammar

Every rule that the start rule reaches has a fragment of one automaton, the choice of its
productions.  A lex rule in a production is a transition that scans it.  A reference to a rule is
first left open and then replaced by a transition that predicts the rule, into its fragment; a
transition that completes the rule leads from the exit of the fragment back behind the reference;
and the call is recorded at the state it leaves.

Without the transitions that predict and complete, a walk from the entry of a rule stays inside its
fragment.
-/

namespace LexChart

/-- The labels of a network. -/
inductive NetworkLabel where
  /-- Reads a token of a lex rule. -/
  | scan (lex : Nat)
  /-- Refers to a rule; still open. -/
  | resolve (rule : Nat)
  /-- Enters a rule. -/
  | predict (rule : Nat)
  /-- Leaves a rule. -/
  | complete (rule : Nat)
  deriving DecidableEq

namespace NetworkLabel

/-- What the label does, and to which number. -/
def text : NetworkLabel → String
  | scan lex => "scan #" ++ toString lex
  | resolve rule => "resolve #" ++ toString rule
  | predict rule => "predict #" ++ toString rule
  | complete rule => "complete #" ++ toString rule

/-- The label of a symbol before references are resolved. -/
def ofSymbol : Symbol → NetworkLabel
  | .lex id => scan id
  | .rule id => resolve id

/-- The label leads out of a fragment. -/
def crosses : NetworkLabel → Bool
  | predict _ => true
  | complete _ => true
  | _ => false

end NetworkLabel

/-- A reference to a rule between two states. -/
structure Call where
  source : Nat
  rule : Nat
  target : Nat
  deriving DecidableEq

/-- An open reference: the call, and the position of its transition in the source. -/
structure OpenReference where
  call : Call
  position : Nat

/-- The automaton of all rules that the start rule reaches. -/
structure RuleNetwork where
  nfa : Nfa NetworkLabel
  /-- The fragments of the rules, in the order in which they are added. -/
  fragments : List (Nat × Fragment)
  /-- The calls that leave a state, by its number. -/
  calls : Array (List Call)
  /-- The number of the start rule. -/
  start : Nat

namespace RuleNetwork

/-- The fragment of a rule, if the start rule reaches it. -/
def fragmentOf? (net : RuleNetwork) (rule : Nat) : Option Fragment := net.fragments.lookup rule

/-- The calls that leave a state. -/
def callsFrom (net : RuleNetwork) (id : Nat) : List Call := net.calls.getD id []

/-- The productions of a rule as an expression. -/
def bodyOf (r : Rule) : Expr Symbol :=
  .choice (r.productions.map fun p => .sequence (p.rhs.map .terminal))

/-- A network that is still being put together, with all calls in the order in which they are
resolved. -/
structure Draft where
  nfa : Nfa NetworkLabel := .empty
  fragments : List (Nat × Fragment) := []
  calls : List Call := []

namespace Draft

/-- Adds the fragment of a rule, its references open. -/
def addFragment (g : Grammar) (d : Draft) (rule : Nat) : Except Fault (Draft × Fragment) := do
  let r ← g.rule rule
  let (nfa, fragment) := d.nfa.build (fun symbol => [NetworkLabel.ofSymbol symbol]) (bodyOf r)
  let nfa := nfa.modifyState fragment.exit fun s => { s with accept := some rule }
  pure ({ d with nfa := nfa, fragments := d.fragments ++ [(rule, fragment)] }, fragment)

/-- The transitions of a state that stay inside its fragment, each with its position. -/
def innerTransitions (nfa : Nfa NetworkLabel) (id : Nat) :
    Except Fault (List (Nat × Transition NetworkLabel)) := do
  let s ← nfa.state id
  pure (s.transitions.zipIdx.filterMap fun (t, position) =>
    if t.label?.any NetworkLabel.crosses then none else some (position, t))

/-- The open reference at a position of a state, if the transition there is one. -/
def openReference? (source : Nat) : Nat × Transition NetworkLabel → Option OpenReference
  | (position, .symbol (.resolve rule) target) => some ⟨⟨source, rule, target⟩, position⟩
  | _ => none

/-- All open references of a fragment. -/
def openReferences (nfa : Nfa NetworkLabel) (fragment : Fragment) :
    Except Fault (List OpenReference) := do
  let walked ← Numbering.explore (innerTransitions nfa) (fun t => t.2.target) nfa.size
    fragment.entry
  pure ((walked.states.toList.zip walked.edges.toList).flatMap fun (source, edges) =>
    edges.filterMap fun (t, _) => openReference? source t)

/-- Resolves a reference to the fragment of its rule. -/
def join (d : Draft) (r : OpenReference) (callee : Fragment) : Draft where
  nfa :=
    (d.nfa.modifyState r.call.source fun s =>
      { s with
        transitions :=
          s.transitions.set r.position (.symbol (.predict r.call.rule) callee.entry) }).modifyState
      callee.exit fun s => s.addTransition (.symbol (.complete r.call.rule) r.call.target)
  fragments := d.fragments
  calls := d.calls ++ [r.call]

/-- Resolves a reference, adding the fragment of its rule first if there is none yet.  A rule added
in this way goes on top of the rules whose references are open. -/
def resolve (g : Grammar) (state : Draft × List Nat) (r : OpenReference) :
    Except Fault (Draft × List Nat) :=
  let (d, pending) := state
  match d.fragments.lookup r.call.rule with
  | some callee => .ok (d.join r callee, pending)
  | none => do
    let (d, callee) ← d.addFragment g r.call.rule
    pure (d.join r callee, r.call.rule :: pending)

/-- Resolves the references of all pending rules, and of those added on the way, of at most `limit`
rules. -/
def resolveAll (g : Grammar) : Nat → Draft × List Nat → Except Fault Draft
  | 0, (d, _) => .ok d
  | _ + 1, (d, []) => .ok d
  | limit + 1, (d, rule :: pending) =>
    match d.fragments.lookup rule with
    | none => .error (.missingRule rule)
    | some fragment => do
      let found ← openReferences d.nfa fragment
      let state ← found.foldlM (resolve g) (d, pending)
      resolveAll g limit state

end Draft

/-- The network of a grammar.  Every rule is pending once at most. -/
def ofGrammar (g : Grammar) : Except Fault RuleNetwork := do
  let (d, _) ← Draft.addFragment g {} g.start
  let d ← Draft.resolveAll g (g.rules.length + 1) (d, [g.start])
  let calls := (List.range d.nfa.size).map fun id => d.calls.filter fun call => call.source = id
  pure ⟨d.nfa, d.fragments, calls.toArray, g.start⟩

/-- The state in which the start rule is entered. -/
def entry (net : RuleNetwork) : Except Fault Nat :=
  match net.fragmentOf? net.start with
  | some fragment => .ok fragment.entry
  | none => .error (.missingRule net.start)

end RuleNetwork

end LexChart
