import LexChart.Automaton.Print
import LexChart.Recognizer.Basic
set_option autoImplicit false

/-!
# Printed machines and charts

A machine is a table with one row for each state, a chart one with a row for each item.
-/

namespace LexChart

/-- The row of a state, its symbols by their names. -/
def MachineState.row (m : Machine) (s : MachineState) (id : Nat) : List String :=
  [toString id, s.closure.text,
    cellText (s.scans.map fun (lex, target) => arrowText (m.lexName lex) target),
    cellText (s.gotos.map fun (rule, target) => arrowText (m.ruleName rule) target),
    (s.prediction.map toString).getD "",
    Text.commaSeparated (s.completions.map fun c => m.ruleName c.rule)]

/-- The machine as a table. -/
def Machine.text (m : Machine) : Except Fault String :=
  (Text.Grid.ofCells
    (["#", "closure", "scans", "gotos", "prediction", "completions"] ::
      m.states.toList.zipIdx.map fun (s, id) => s.row m id)).text

/-- The rows of a chart, each followed by further cells for its item. -/
def Chart.rows (c : Chart) (more : ChartItem → List String) : List (List String) :=
  c.sets.toList.flatMap fun set =>
    set.items.toList.map fun i =>
      [toString set.location, toString i.state, toString i.origin] ++ more i

/-- The chart as a table. -/
def Chart.text (c : Chart) : Except Fault String :=
  (Text.Grid.ofCells (["set", "state", "origin"] :: c.rows fun _ => [])).text

/-- The rules that a state completes, by their names. -/
def Machine.completionsText (m : Machine) (id : Nat) : String :=
  match m.states[id]? with
  | some s => Text.commaSeparated (s.completions.map fun c => m.ruleName c.rule)
  | none => ""

/-- The chart as a table, with the rules that each item completes. -/
def Recognizer.text (r : Recognizer) : Except Fault String :=
  (Text.Grid.ofCells
    (["set", "state", "origin", "completions"] ::
      r.chart.rows fun i => [r.machine.completionsText i.state])).text

end LexChart
