import LexChart.Recognizer.Basic
set_option autoImplicit false

/-!
# Runs of a recognizer

A run reads tokens one after the other, each at the last location of the chart.  `NextItem` says
which items belong to the set behind a token without any order of insertion: the least set with what
the token scans, closed under prediction and completion.
-/

namespace LexChart

/-- An item is in the set at a location of a chart. -/
def Chart.Holds (c : Chart) (location : Nat) (i : ChartItem) : Prop :=
  ∃ set, c.set location = .ok set ∧ i ∈ set.items

namespace Recognizer

/-- Some tokens are read one after the other. -/
inductive Reads : Recognizer → List Nat → Recognizer → Prop where
  | nil (r : Recognizer) : Reads r [] r
  | cons {r s t : Recognizer} {token : Nat} {tokens : List Nat} :
      r.advance r.location token = .ok (.ok s) → Reads s tokens t → Reads r (token :: tokens) t

/-- The recognizer of a grammar after some tokens. -/
def ReachedBy (g : Grammar) (tokens : List Nat) (r : Recognizer) : Prop :=
  ∃ m start, Machine.ofGrammar g = .ok m ∧ ofMachine m = .ok start ∧ Reads start tokens r

/-- The items behind a token that is read at the last location of a chart. -/
inductive NextItem (m : Machine) (c : Chart) (location token : Nat) : ChartItem → Prop where
  | scan {i : ChartItem} {s : MachineState} {target : Nat} : c.Holds location i →
      m.state i.state = .ok s → s.scan token = some target →
      NextItem m c location token ⟨target, i.origin⟩
  | predict {i : ChartItem} {s : MachineState} {prediction : Nat} :
      NextItem m c location token i → m.state i.state = .ok s → s.prediction = some prediction →
      NextItem m c location token ⟨prediction, location + 1⟩
  | complete {i waiting : ChartItem} {s t : MachineState} {rule target : Nat} :
      NextItem m c location token i → i.origin ≤ location → m.state i.state = .ok s →
      s.completes rule = true → c.Holds i.origin waiting → m.state waiting.state = .ok t →
      t.goto rule = some target → NextItem m c location token ⟨target, waiting.origin⟩

theorem Reads.append {r s t : Recognizer} {v w : List Nat} (h : Reads r v s) (k : Reads s w t) :
    Reads r (v ++ w) t := by
  induction h with
  | nil => exact k
  | cons first _ ih => exact .cons first (ih k)

/-- One more token is read. -/
theorem ReachedBy.concat {g : Grammar} {r s : Recognizer} {tokens : List Nat} {token : Nat}
    (h : ReachedBy g tokens r) (hread : r.advance r.location token = .ok (.ok s)) :
    ReachedBy g (tokens ++ [token]) s := by
  obtain ⟨m, start, hm, hstart, hreads⟩ := h
  exact ⟨m, start, hm, hstart, hreads.append (.cons hread (.nil s))⟩

end Recognizer

end LexChart
