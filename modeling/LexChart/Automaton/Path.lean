import LexChart.Automaton.Closure
set_option autoImplicit false

/-!
# Paths through an automaton

A word can be read from one state to another if there is a path between them whose labels stand for
its symbols, null transitions in between.  `reads` says which symbols a label stands for.

The paths that read nothing are those of null transitions alone; `NullReach` names them.
-/

namespace LexChart.Nfa

variable {L σ : Type}

/-- A transition leaves a state. -/
def Leaves (nfa : Nfa L) (id : Nat) (t : Transition L) : Prop :=
  ∃ s, nfa.state id = .ok s ∧ t ∈ s.transitions

/-- No transition leads to a state that does not exist. -/
def TargetsExist (nfa : Nfa L) : Prop := ∀ id t, nfa.Leaves id t → t.target < nfa.size

/-- A word can be read between two states. -/
inductive Path (nfa : Nfa L) (reads : L → σ → Prop) : Nat → List σ → Nat → Prop where
  | nil (p : Nat) : Path nfa reads p [] p
  | null {p q r : Nat} {w : List σ} : nfa.Leaves p (.null q) → Path nfa reads q w r →
      Path nfa reads p w r
  | symbol {p q r : Nat} {label : L} {c : σ} {w : List σ} : nfa.Leaves p (.symbol label q) →
      reads label c → Path nfa reads q w r → Path nfa reads p (c :: w) r

/-- Null transitions lead from one state to another. -/
inductive NullReach (nfa : Nfa L) : Nat → Nat → Prop where
  | refl (p : Nat) : NullReach nfa p p
  | step {p q r : Nat} : nfa.Leaves p (.null q) → NullReach nfa q r → NullReach nfa p r

theorem Path.append {nfa : Nfa L} {reads : L → σ → Prop} {p q r : Nat} {v w : List σ}
    (h : nfa.Path reads p v q) (k : nfa.Path reads q w r) : nfa.Path reads p (v ++ w) r := by
  induction h with
  | nil => exact k
  | null leaves _ ih => exact .null leaves (ih k)
  | symbol leaves stands _ ih => exact .symbol leaves stands (ih k)

theorem NullReach.path {nfa : Nfa L} {p q : Nat} (reads : L → σ → Prop) (h : nfa.NullReach p q) :
    nfa.Path reads p [] q := by
  induction h with
  | refl p => exact .nil p
  | step leaves _ ih => exact .null leaves ih

theorem Path.nullReach {nfa : Nfa L} {reads : L → σ → Prop} {p q : Nat} {w : List σ}
    (h : nfa.Path reads p w q) (empty : w = []) : nfa.NullReach p q := by
  induction h with
  | nil p => exact .refl p
  | null leaves _ ih => exact .step leaves (ih empty)
  | symbol => cases empty

/-- Nothing is read exactly along null transitions. -/
theorem path_nil_iff {nfa : Nfa L} {reads : L → σ → Prop} {p q : Nat} :
    nfa.Path reads p [] q ↔ nfa.NullReach p q :=
  ⟨fun h => h.nullReach rfl, fun h => h.path reads⟩

end LexChart.Nfa
