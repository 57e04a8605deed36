import LexChart.Expr.Language
import LexChart.Pattern.Reader
set_option autoImplicit false

/-!
# The language of a pattern

A pattern matches the words of its expression, where a character class stands for the characters in
one of its intervals.  Which characters these are is also told by the notation of the class alone.
-/

namespace LexChart

/-- The one-character words of some intervals. -/
def Interval.languageOf (xs : List Interval) : Language Char := {w | ∃ c, w = [c] ∧ Covers xs c}

/-- The one-character words that a class holds. -/
def CharClass.language (cls : CharClass) : Language Char := Interval.languageOf cls.intervals

/-- The words that a pattern matches. -/
def Pattern.language (p : Pattern) : Language Char := Expr.language CharClass.language p

namespace CharClass

/-- The characters that a class stands for, by its notation. -/
def Stands : CharClass → Char → Prop
  | char d, c => c = d
  | range i, c => c ∈ i
  | any, _ => True
  | set intervals false, c => Interval.Covers intervals c
  | set intervals true, c => ¬ Interval.Covers intervals c

/-- The one-character words that a class stands for. -/
def words (cls : CharClass) : Language Char := {w | ∃ c, w = [c] ∧ cls.Stands c}

end CharClass

theorem CharClass.holds_iff {cls : CharClass} {c : Char} :
    cls.holds c = true ↔ Interval.Covers cls.intervals c := by
  simp [holds, Interval.Covers]

theorem CharClass.mem_language {cls : CharClass} {w : List Char} :
    w ∈ cls.language ↔ ∃ c, w = [c] ∧ cls.holds c = true := by
  simp only [holds_iff]
  exact Iff.rfl

@[simp] theorem CharClass.language_char (c : Char) : (CharClass.char c).language = {[c]} := by
  ext w
  rw [mem_language]
  show _ ↔ w = [c]
  simp [holds, intervals]

end LexChart
