import LexChart.Grammar.Derivation
import Mathlib.Algebra.BigOperators.Group.List.Basic
import Mathlib.Computability.Language
import Mathlib.Order.CompletePartialOrder
set_option autoImplicit false

/-!
# Interpretations of a grammar

An interpretation gives every rule a language.  It is closed under productions if the words of the
right side of a production are words of its rule.  The languages that the rules generate are closed,
and they lie in every interpretation that is: reading a derivation backwards, each step can only
enlarge the language of a sequence of symbols.
-/

namespace LexChart

/-- The numbers in a symbol are in range. -/
def Symbol.Within (lex rules : Nat) : Symbol → Prop
  | .lex id => id < lex
  | .rule id => id < rules

theorem Symbol.Within.mono {lex rules more : Nat} (h : rules ≤ more) {s : Symbol}
    (hs : s.Within lex rules) : s.Within lex more := by
  cases s with
  | lex id => exact hs
  | rule id => exact Nat.lt_of_lt_of_le hs h

/-- A language of tokens for each rule, by its number. -/
abbrev Interpretation : Type := Nat → Language Nat

namespace Interpretation

variable (i j : Interpretation)

/-- The words of a symbol. -/
def symbol : Symbol → Language Nat
  | .lex id => {[id]}
  | .rule id => i id

/-- The words of a sequence of symbols. -/
def sequence (symbols : List Symbol) : Language Nat := (symbols.map i.symbol).prod

/-- The words of some sequences of symbols. -/
def alternatives (rights : List (List Symbol)) : Language Nat :=
  {w | ∃ rhs ∈ rights, w ∈ i.sequence rhs}

/-- The words of the right side of a production are words of its rule. -/
def Closed (productions : List Production) : Prop :=
  ∀ p ∈ productions, i.sequence p.rhs ≤ i p.lhs

@[simp] theorem sequence_nil : i.sequence [] = 1 := rfl

@[simp] theorem sequence_cons (s : Symbol) (symbols : List Symbol) :
    i.sequence (s :: symbols) = i.symbol s * i.sequence symbols := by
  simp [sequence]

@[simp] theorem sequence_append (u v : List Symbol) :
    i.sequence (u ++ v) = i.sequence u * i.sequence v := by
  simp [sequence]

theorem sequence_singleton (s : Symbol) : i.sequence [s] = i.symbol s := by simp

@[simp] theorem sequence_replicate (count : Nat) (s : Symbol) :
    i.sequence (List.replicate count s) = i.symbol s ^ count := by
  simp [sequence]

/-- A sequence of tokens stands for itself. -/
theorem mem_sequence_tokens {tokens w : List Nat} :
    w ∈ i.sequence (tokens.map .lex) ↔ w = tokens := by
  induction tokens generalizing w with
  | nil => simp
  | cons token tokens ih =>
    rw [List.map_cons, sequence_cons, Language.mem_mul]
    constructor
    · rintro ⟨u, hu, v, hv, rfl⟩
      obtain rfl : u = [token] := hu
      rw [ih.1 hv]
      rfl
    · rintro rfl
      exact ⟨[token], rfl, tokens, ih.2 rfl, rfl⟩

variable {i j}

/-- Sequences in which an interpretation gives no fewer words to the rules have no fewer words. -/
theorem sequence_le {symbols : List Symbol} (h : ∀ id, .rule id ∈ symbols → i id ≤ j id) :
    i.sequence symbols ≤ j.sequence symbols := by
  induction symbols with
  | nil => exact le_refl _
  | cons s symbols ih =>
    rw [sequence_cons, sequence_cons]
    refine mul_le_mul' ?_ (ih fun id hid => h id (List.mem_cons_of_mem s hid))
    cases s with
    | lex id => exact le_refl _
    | rule id => exact h id List.mem_cons_self

/-- Only the words of the rules that occur matter. -/
theorem sequence_congr {symbols : List Symbol} (h : ∀ id, .rule id ∈ symbols → i id = j id) :
    i.sequence symbols = j.sequence symbols :=
  le_antisymm (sequence_le fun id hid => le_of_eq (h id hid))
    (sequence_le fun id hid => le_of_eq (h id hid).symm)

theorem mem_alternatives {rights : List (List Symbol)} {w : List Nat} :
    w ∈ i.alternatives rights ↔ ∃ rhs ∈ rights, w ∈ i.sequence rhs := Iff.rfl

end Interpretation

namespace Grammar

variable {g : Grammar} {i : Interpretation}

/-- Reading a step backwards only adds words. -/
theorem Step.sequence_le (closed : i.Closed g.productions) {u v : List Symbol} (h : g.Step u v) :
    i.sequence v ≤ i.sequence u := by
  cases h with
  | produce p before after hp =>
    rw [Interpretation.sequence_append, Interpretation.sequence_append,
      Interpretation.sequence_append, Interpretation.sequence_cons, mul_assoc]
    exact mul_le_mul_right (mul_le_mul_left (closed p hp) _) _

theorem Derives.sequence_le (closed : i.Closed g.productions) {u v : List Symbol}
    (h : g.Derives u v) : i.sequence v ≤ i.sequence u := by
  induction h with
  | refl => exact le_refl _
  | step first _ ih => exact le_trans ih (first.sequence_le closed)

/-- The languages that the rules generate. -/
def generated (g : Grammar) : Interpretation := fun id => {w | g.Generates id w}

theorem derives_of_mem_sequence {symbols : List Symbol} {w : List Nat}
    (h : w ∈ g.generated.sequence symbols) : g.Derives symbols (w.map .lex) := by
  induction symbols generalizing w with
  | nil =>
    rw [Interpretation.sequence_nil, Language.mem_one] at h
    subst h
    exact .refl []
  | cons s symbols ih =>
    rw [Interpretation.sequence_cons] at h
    obtain ⟨u, hu, v, hv, rfl⟩ := Language.mem_mul.1 h
    have hs : g.Derives [s] (u.map .lex) := by
      cases s with
      | lex id =>
        obtain rfl : u = [id] := hu
        exact .refl _
      | rule id => exact hu
    rw [List.map_append]
    exact hs.append (ih hv)

/-- A production is the first step of a derivation. -/
theorem derives_of_production {p : Production} (hp : p ∈ g.productions) {v : List Symbol}
    (h : g.Derives p.rhs v) : g.Derives [.rule p.lhs] v := by
  have hstep := Step.produce p [] [] hp
  rw [List.nil_append, List.append_nil] at hstep
  exact .step hstep h

theorem closed_generated (g : Grammar) : g.generated.Closed g.productions :=
  fun _ hp _ hw => derives_of_production hp (derives_of_mem_sequence hw)

/-- The languages that the rules generate are the least ones closed under productions. -/
theorem generated_le (closed : i.Closed g.productions) (id : Nat) : g.generated id ≤ i id := by
  intro w hw
  have hle := Derives.sequence_le closed hw (i.mem_sequence_tokens.2 rfl)
  rwa [Interpretation.sequence_singleton] at hle

/-- A word that a rule generates begins with one of its productions. -/
theorem generates_iff {id : Nat} {w : List Nat} :
    g.Generates id w ↔ ∃ p ∈ g.productions, p.lhs = id ∧ w ∈ g.generated.sequence p.rhs := by
  constructor
  · intro h
    let first : Interpretation := fun id =>
      {w | ∃ p ∈ g.productions, p.lhs = id ∧ w ∈ g.generated.sequence p.rhs}
    have hle : ∀ id, first id ≤ g.generated id := by
      rintro id w ⟨p, hp, rfl, hw⟩
      exact g.closed_generated p hp hw
    have closed : first.Closed g.productions := fun p hp w hw =>
      ⟨p, hp, rfl, Interpretation.sequence_le (fun id _ => hle id) hw⟩
    exact generated_le closed id h
  · rintro ⟨p, hp, rfl, hw⟩
    exact g.closed_generated p hp hw

end Grammar

end LexChart
