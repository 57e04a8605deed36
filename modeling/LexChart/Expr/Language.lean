import LexChart.Expr.Basic
import Mathlib.Computability.Language
set_option autoImplicit false

/-!
# The language of an expression

An expression denotes a set of words once its terminals do: a choice is the union of its parts, a
sequence their concatenation, and a repetition the union of the powers that its bounds allow.  Names
and groups mean nothing.
-/

namespace LexChart

variable {α σ : Type}

namespace Repetition

/-- As many words, one after the other, as the bounds allow. -/
def language (r : Repetition) (l : Language σ) : Language σ :=
  {w | ∃ count, r.Allows count ∧ w ∈ l ^ count}

theorem mem_language {r : Repetition} {l : Language σ} {w : List σ} :
    w ∈ r.language l ↔ ∃ count, r.Allows count ∧ w ∈ l ^ count := Iff.rfl

theorem allows_once {count : Nat} : once.Allows count ↔ count = 1 := by
  simp only [Allows, lower, upper, once]
  constructor
  · rintro ⟨h, k⟩
    have := k 1 rfl
    simp at h
    omega
  · rintro rfl
    exact ⟨Nat.le_refl 1, fun most h => by cases h; exact Nat.le_refl 1⟩

@[simp] theorem language_once (l : Language σ) : once.language l = l := by
  ext w
  simp [mem_language, allows_once]

end Repetition

namespace Expr

mutual

/-- The words of an expression, given those of a terminal. -/
def language (terminal : α → Language σ) : Expr α → Language σ
  | .leaf m t => m.repetition.language (terminal t)
  | .node m join parts => m.repetition.language (languageOfParts terminal join parts)

/-- The words of parts joined by choice or sequence. -/
def languageOfParts (terminal : α → Language σ) : Join → List (Expr α) → Language σ
  | .choice, [] => 0
  | .choice, part :: rest => language terminal part + languageOfParts terminal .choice rest
  | .sequence, [] => 1
  | .sequence, part :: rest => language terminal part * languageOfParts terminal .sequence rest

end

variable {terminal : α → Language σ}

theorem languageOfParts_choice (parts : List (Expr α)) :
    languageOfParts terminal .choice parts = (parts.map (language terminal)).sum := by
  induction parts with
  | nil => rfl
  | cons part rest ih => rw [languageOfParts, ih, List.map_cons, List.sum_cons]

theorem languageOfParts_sequence (parts : List (Expr α)) :
    languageOfParts terminal .sequence parts = (parts.map (language terminal)).prod := by
  induction parts with
  | nil => rfl
  | cons part rest ih => rw [languageOfParts, ih, List.map_cons, List.prod_cons]

/-- A word of a choice is a word of one of its parts. -/
theorem mem_languageOfParts_choice {parts : List (Expr α)} {w : List σ} :
    w ∈ languageOfParts terminal .choice parts ↔ ∃ part ∈ parts, w ∈ language terminal part := by
  induction parts with
  | nil => simp [languageOfParts]
  | cons part rest ih =>
    rw [languageOfParts, Language.mem_add, ih]
    simp only [List.mem_cons, exists_eq_or_imp]

@[simp] theorem language_terminal (t : α) :
    language terminal (Expr.terminal t) = terminal t := by
  rw [Expr.terminal, language, Repetition.language_once]

end Expr

end LexChart
