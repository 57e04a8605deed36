import LexChart.Grammar.Basic
set_option autoImplicit false

/-!
# Derivations

A production replaces its rule, wherever it stands in a sequence of symbols, by its right side.  A
rule generates a sequence of tokens if a chain of such steps leads from the rule to it.
-/

namespace LexChart.Grammar

/-- One production is applied somewhere. -/
inductive Step (g : Grammar) : List Symbol → List Symbol → Prop where
  | produce (p : Production) (before after : List Symbol) : p ∈ g.productions →
      Step g (before ++ .rule p.lhs :: after) (before ++ p.rhs ++ after)

/-- Productions are applied one after the other. -/
inductive Derives (g : Grammar) : List Symbol → List Symbol → Prop where
  | refl (u : List Symbol) : Derives g u u
  | step {u v w : List Symbol} : g.Step u v → Derives g v w → Derives g u w

/-- A rule derives a sequence of tokens, each given by its lex rule. -/
def Generates (g : Grammar) (rule : Nat) (tokens : List Nat) : Prop :=
  g.Derives [.rule rule] (tokens.map .lex)

/-- A rule can be reached from another one through the productions. -/
inductive Reaches (g : Grammar) : Nat → Nat → Prop where
  | refl (rule : Nat) : Reaches g rule rule
  | step {p : Production} {callee rule : Nat} : p ∈ g.productions → .rule callee ∈ p.rhs →
      Reaches g callee rule → Reaches g p.lhs rule

/-- Every rule and lex rule is found by its number, productions belong to the rule they are listed
under, and all numbers in them are in range. -/
structure WellFormed (g : Grammar) : Prop where
  lexRule_id : ∀ (id : Nat) (r : LexRule), g.lexRules[id]? = some r → r.id = id
  rule_id : ∀ (id : Nat) (r : Rule), g.rules[id]? = some r → r.id = id
  lhs : ∀ r ∈ g.rules, ∀ p ∈ r.productions, p.lhs = r.id
  lex_lt : ∀ p ∈ g.productions, ∀ id, .lex id ∈ p.rhs → id < g.lexRules.length
  rule_lt : ∀ p ∈ g.productions, ∀ id, .rule id ∈ p.rhs → id < g.rules.length
  start_lt : g.start < g.rules.length

variable {g : Grammar}

theorem Derives.trans {u v w : List Symbol} (h : g.Derives u v) (k : g.Derives v w) :
    g.Derives u w := by
  induction h with
  | refl => exact k
  | step first _ ih => exact .step first (ih k)

theorem Step.context {u v : List Symbol} (h : g.Step u v) (before after : List Symbol) :
    g.Step (before ++ u ++ after) (before ++ v ++ after) := by
  cases h with
  | produce p b a hp =>
    have := Step.produce p (before ++ b) (a ++ after) hp
    simpa using this

theorem Derives.context {u v : List Symbol} (h : g.Derives u v) (before after : List Symbol) :
    g.Derives (before ++ u ++ after) (before ++ v ++ after) := by
  induction h with
  | refl => exact .refl _
  | step first _ ih => exact .step (first.context before after) ih

/-- Two derivations side by side. -/
theorem Derives.append {u v s t : List Symbol} (h : g.Derives u v) (k : g.Derives s t) :
    g.Derives (u ++ s) (v ++ t) := by
  have left := h.context [] s
  have right := k.context v []
  simp only [List.nil_append, List.append_nil] at left right
  exact left.trans right

end LexChart.Grammar
