import LexChart.Proofs.Automaton.Exits
import LexChart.Proofs.Automaton.Fragment
import LexChart.Proofs.Recognizer.Walks
set_option autoImplicit false

/-!
# The fragment of a rule

The body of a rule is the choice of its productions, each the sequence of its symbols.  The paths
through the fragment of the body, a symbol read by the label that stands for it, are the productions
of the rule, and every state behind the entry leads to the exit.
-/

namespace LexChart

open Building

namespace NetworkLabel

/-- A label reads the symbol that it stands for while references are open. -/
def Reads (label : NetworkLabel) (s : Symbol) : Prop := label = ofSymbol s

/-- A label stays inside of a fragment. -/
def Inner (label : NetworkLabel) : Prop := label.crosses = false

theorem inner_ofSymbol (s : Symbol) : (ofSymbol s).Inner := by
  cases s <;> rfl

theorem ofSymbol_injective {s t : Symbol} (h : ofSymbol s = ofSymbol t) : s = t := by
  cases s <;> cases t <;> cases h <;> rfl

theorem labelLanguage_ofSymbol (s : Symbol) :
    labelLanguage Reads [ofSymbol s] = ({[s]} : Language Symbol) := by
  ext w
  constructor
  · rintro ⟨t, rfl, label, hlabel, hreads⟩
    rw [List.mem_singleton.1 hlabel] at hreads
    rw [ofSymbol_injective hreads]
    exact rfl
  · intro hw
    exact ⟨s, hw, ofSymbol s, List.mem_singleton_self _, rfl⟩

end NetworkLabel

namespace RuleNetwork

open NetworkLabel

/-- What adds the fragment of a rule. -/
def ruleBuilder (r : Rule) : Building NetworkLabel Fragment :=
  (bodyOf r).builder fun s => [NetworkLabel.ofSymbol s]

theorem framed_ruleBuilder (r : Rule) : Framed Inner (ruleBuilder r) := by
  refine Expr.framed_builder (fun s label hlabel => ?_) (bodyOf r)
  rw [List.mem_singleton.1 hlabel]
  exact inner_ofSymbol s

theorem mem_prod_singletons {symbols w : List Symbol} :
    w ∈ (symbols.map fun s => ({[s]} : Language Symbol)).prod ↔ w = symbols := by
  induction symbols generalizing w with
  | nil => simp
  | cons s symbols ih =>
    rw [List.map_cons, List.prod_cons, Language.mem_mul]
    constructor
    · rintro ⟨u, hu, v, hv, rfl⟩
      obtain rfl : u = [s] := hu
      rw [ih.1 hv]
      rfl
    · rintro rfl
      exact ⟨[s], rfl, symbols, ih.2 rfl, rfl⟩

/-- The words of the body of a rule are the right sides of its productions. -/
theorem mem_language_bodyOf {r : Rule} {w : List Symbol} :
    w ∈ (bodyOf r).language (fun s => ({[s]} : Language Symbol)) ↔
      ∃ p ∈ r.productions, w = p.rhs := by
  unfold bodyOf Expr.choice
  rw [Expr.language, Repetition.language_once, Expr.mem_languageOfParts_choice]
  simp only [List.mem_map, exists_exists_and_eq_and]
  refine exists_congr fun p => and_congr_right fun _ => ?_
  rw [Expr.sequence, Expr.language, Repetition.language_once, Expr.languageOfParts_sequence,
    List.map_map]
  simp only [Function.comp_def, Expr.language_terminal]
  exact mem_prod_singletons

/-- The paths through the fragment of a rule are its productions. -/
theorem path_ruleBuilder_iff (r : Rule) (nfa : Nfa NetworkLabel) (w : List Symbol) :
    (ruleBuilder r nfa).2.Path Reads (ruleBuilder r nfa).1.entry w (ruleBuilder r nfa).1.exit ↔
      ∃ p ∈ r.productions, w = p.rhs := by
  have hdenotes : Denotes Reads Inner (ruleBuilder r)
      ((bodyOf r).language fun s => labelLanguage Reads [NetworkLabel.ofSymbol s]) :=
    Expr.denotes_builder (fun s label hlabel => List.mem_singleton.1 hlabel ▸ inner_ofSymbol s)
      (bodyOf r)
  simp only [labelLanguage_ofSymbol] at hdenotes
  rw [← mem_language_bodyOf]
  exact hdenotes.path_iff nfa w

theorem repeated_once (builder : Building NetworkLabel Fragment) :
    repeated .once builder = builder := if_pos ⟨rfl, rfl⟩

theorem partBuilders_eq_map {α L : Type} (labels : α → List L) (parts : List (Expr α)) :
    Expr.partBuilders labels parts = parts.map (Expr.builder labels) := by
  induction parts with
  | nil => rfl
  | cons part rest ih => rw [Expr.partBuilders, ih, List.map_cons]

/-- The body of a rule is built as the choice of its productions, each a sequence of symbols. -/
theorem ruleBuilder_eq (r : Rule) : ruleBuilder r =
    choice (r.productions.map fun p =>
      sequence (p.rhs.map fun s => symbols [NetworkLabel.ofSymbol s])) := by
  unfold ruleBuilder bodyOf Expr.choice
  rw [Expr.builder, repeated_once, partBuilders_eq_map, List.map_map]
  refine congrArg choice (List.map_congr_left fun p _ => ?_)
  show Expr.builder _ (Expr.sequence (p.rhs.map Expr.terminal)) = _
  rw [Expr.sequence, Expr.builder, repeated_once, partBuilders_eq_map, List.map_map]
  refine congrArg sequence (List.map_congr_left fun s _ => ?_)
  show Expr.builder _ (Expr.terminal s) = _
  rw [Expr.terminal, Expr.builder, repeated_once]

/-- Behind its entry the fragment of a rule has no dead ends. -/
theorem liveBehind_ruleBuilder (r : Rule) : LiveBehind Reads Inner (ruleBuilder r) := by
  rw [ruleBuilder_eq]
  refine liveBehind_choice fun b hb => ?_
  obtain ⟨p, -, rfl⟩ := List.mem_map.1 hb
  refine live_sequence fun b hb => ?_
  obtain ⟨s, -, rfl⟩ := List.mem_map.1 hb
  exact live_symbol (inner_ofSymbol s) rfl

end RuleNetwork

end LexChart
