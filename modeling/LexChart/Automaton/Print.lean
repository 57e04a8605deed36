import LexChart.Automaton.Dfa
import LexChart.Text.Grid
set_option autoImplicit false

/-!
# Printed automata

An automaton is a table with one row for each state.  Transitions stand one below the other, each
as its label, an arrow and the number of its target.
-/

namespace LexChart

/-- The states between braces. -/
def Closure.text (c : Closure) : String :=
  "\x7b" ++ ", ".intercalate (c.states.map toString) ++ "\x7d"

/-- An arrow to a state. -/
def arrowText (label : String) (target : Nat) : String := label ++ " -> " ++ toString target

/-- The lines of a cell. -/
def cellText (lines : List String) : String := "\n".intercalate lines

variable {L : Type}

/-- A transition, given how to print a label. -/
def Transition.text (labelText : L → String) : Transition L → String
  | .null target => arrowText "ε" target
  | .symbol label target => arrowText (labelText label) target

/-- The row of a state. -/
def NfaState.row (labelText : L → String) (s : NfaState L) (id : Nat) : List String :=
  [toString id, (s.accept.map toString).getD "",
    cellText (s.transitions.map (Transition.text labelText))]

/-- The automaton as a table. -/
def Nfa.text (labelText : L → String) (nfa : Nfa L) : Except Fault String :=
  (Text.Grid.ofCells
    (["#", "accept", "transitions"] ::
      nfa.states.toList.zipIdx.map fun (s, id) => s.row labelText id)).text

/-- A transition, with the rules it completes between parentheses. -/
def DfaTransition.text (labelText : L → String) (t : DfaTransition L) : String :=
  arrowText (labelText t.label) t.target ++
    if t.completions.isEmpty then "" else " (" ++ Completion.listText t.completions ++ ")"

/-- The row of a state. -/
def DfaState.row (labelText : L → String) (s : DfaState L) (id : Nat) : List String :=
  [toString id, s.closure.text, Completion.listText s.accepts,
    cellText (s.transitions.map (DfaTransition.text labelText))]

/-- The automaton as a table. -/
def Dfa.text (labelText : L → String) (dfa : Dfa L) : Except Fault String :=
  (Text.Grid.ofCells
    (["#", "closure", "accepts", "transitions"] ::
      dfa.states.toList.zipIdx.map fun (s, id) => s.row labelText id)).text

end LexChart
