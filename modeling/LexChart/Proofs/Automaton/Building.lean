import LexChart.Proofs.Automaton.Fragment
set_option autoImplicit false

/-!
# The automaton of an expression

Building an expression behind the states of an automaton adds a fragment that reads exactly the
words of the expression, a terminal standing for any one of its labels.  The states that were there
are left as they were, and what is added stays among the states that are added.

Targets are not checked when a transition is added, so an automaton may already lead to a state that
does not exist yet.  Once the entry of a fragment takes that number, the transition enters the
fragment; no other transition does.
-/

namespace LexChart

variable {α L : Type}

/-- The words of one label that a terminal stands for. -/
def Expr.labelWords (labels : α → List L) (t : α) : Language L := {w | ∃ l ∈ labels t, w = [l]}

/-- Labels that read themselves. -/
theorem Building.labelLanguage_eq (labels : α → List L) (t : α) :
    labelLanguage Eq (labels t) = Expr.labelWords labels t := by
  ext w
  constructor
  · rintro ⟨c, rfl, l, hl, rfl⟩
    exact ⟨l, hl, rfl⟩
  · rintro ⟨l, hl, rfl⟩
    exact ⟨l, rfl, l, hl, rfl⟩

namespace Nfa

open Building

/-- The entry of a fragment is entered by no transition that is added with it. -/
theorem leaves_of_target_entry {allowed : L → Prop} {nfa built : Nfa L} {entry : Nat}
    (grows : Grows nfa.size nfa built) (region : Region allowed nfa.size entry built) {id : Nat}
    {t : Transition L} (leaves : built.Leaves id t) (htarget : t.target = entry) :
    nfa.Leaves id t := by
  by_cases hold : id < nfa.size
  · exact (grows.leaves_iff_of_lt hold).1 leaves
  · exact absurd htarget (region.inside id t (Nat.le_of_not_lt hold) leaves).2.2

/-- The fragment of an expression reads the words of the expression and no others.  It is added
behind the states of the automaton, which stay as they are; transitions that leave an added state
lead to an added state; and a transition leads to the entry only if it was there before the entry
was, so that none does if all targets existed. -/
theorem expression_exact (nfa : Nfa L) (labels : α → List L) (e : Expr α) :
    ∃ built fragment, nfa.build labels e = (built, fragment) ∧
      (∀ w, built.Path Eq fragment.entry w fragment.exit ↔
        w ∈ e.language (Expr.labelWords labels)) ∧
      (∀ id < nfa.size, built.states[id]? = nfa.states[id]?) ∧
      (nfa.size ≤ fragment.entry ∧ fragment.entry < built.size) ∧
      (nfa.size ≤ fragment.exit ∧ fragment.exit < built.size) ∧
      (∀ id t, nfa.size ≤ id → built.Leaves id t →
        nfa.size ≤ t.target ∧ t.target < built.size) ∧
      (∀ id t, built.Leaves id t → t.target = fragment.entry →
        nfa.Leaves id t ∧ nfa.size ≤ t.target) ∧
      (nfa.TargetsExist → ∀ id t, built.Leaves id t → t.target ≠ fragment.entry) := by
  have hdenotes : Denotes Eq (fun _ => True) (e.builder labels)
      (e.language fun t => labelLanguage Eq (labels t)) :=
    Expr.denotes_builder (fun _ _ _ => trivial) e
  simp only [labelLanguage_eq] at hdenotes
  have hwords := hdenotes.path_iff nfa
  have hgrows := hdenotes.framed.grows nfa
  have hregion := hdenotes.framed.region nfa
  have hexit_le := hdenotes.framed.le_exit nfa
  have hexit_lt := hdenotes.framed.exit_lt nfa
  have hentry := fun id t (leaves : (e.builder labels nfa).2.Leaves id t) =>
    leaves_of_target_entry hgrows hregion leaves
  refine ⟨_, _, rfl, hwords, hgrows.kept, ⟨hregion.base_le, hregion.entry_lt⟩,
    ⟨hexit_le, hexit_lt⟩, fun id t hid leaves => ?_, fun id t leaves htarget => ?_,
    fun htargets id t leaves htarget => ?_⟩
  · have hinside := hregion.inside id t hid leaves
    exact ⟨hinside.1, hinside.2.1⟩
  · exact ⟨hentry id t leaves htarget, htarget ▸ hregion.base_le⟩
  · have hlt := htargets id t (hentry id t leaves htarget)
    exact absurd (htarget ▸ hregion.base_le) (Nat.not_le.2 hlt)

/-- An automaton of one state with a transition to a state that does not exist yet. -/
def dangling : Nfa Char := ⟨#[{ transitions := [.null 1] }]⟩

/-- The transition to a missing state enters the fragment of a terminal. -/
theorem entry_entered_of_dangling :
    ¬ ∀ id t, (dangling.build (fun c => [c]) (Expr.terminal 'a')).1.Leaves id t →
      id ≠ (dangling.build (fun c => [c]) (Expr.terminal 'a')).2.entry →
      t.target ≠ (dangling.build (fun c => [c]) (Expr.terminal 'a')).2.entry := by
  intro h
  exact h 0 (.null 1) ⟨{ transitions := [.null 1] }, rfl, List.mem_singleton_self _⟩ (by decide) rfl

end Nfa

end LexChart
