import LexChart.Lexer.Tokenizer
import LexChart.Pattern.Language
set_option autoImplicit false

/-!
# Maximal munch

How a text is cut into lexemes, said by the languages of the rules alone: of all beginnings of the
text that some rule matches the longest one is cut off, ignored rules taking part like all others.
-/

namespace LexChart

/-- The rules of a lexer: patterns, and whether their matches are dropped. -/
abbrev LexRules : Type := List (Pattern × Bool)

namespace LexRules

/-- A rule matches a word that is not empty: it is a word of its pattern, whose classes stand for
characters by their notation. -/
def Matches (rules : LexRules) (rule : Nat) (w : List Char) : Prop :=
  w ≠ [] ∧ ∃ pattern ignored, rules[rule]? = some (pattern, ignored) ∧
    w ∈ Expr.language CharClass.words pattern

/-- No beginning of the text is matched. -/
def NoMatch (rules : LexRules) (text : List Char) : Prop :=
  ∀ w rule, w <+: text → ¬ rules.Matches rule w

/-- The longest beginning of the text that is matched. -/
def IsLongest (rules : LexRules) (text w : List Char) : Prop :=
  w <+: text ∧ (∃ rule, rules.Matches rule w) ∧
    ∀ v rule, v <+: text → rules.Matches rule v → v.length ≤ w.length

/-- The rules in ascending order that match a word and whose matches are not dropped. -/
def IsCandidates (rules : LexRules) (w : List Char) (candidates : List Nat) : Prop :=
  candidates.Pairwise (· < ·) ∧ ∀ rule, rule ∈ candidates ↔
    rules.Matches rule w ∧ ∀ pattern, rules[rule]? ≠ some (pattern, true)

/-- The lexemes and bad characters of a text that begins at a cursor. -/
inductive Munches (rules : LexRules) : Cursor → List Char → List (Except Diagnostic Lexeme) → Prop
    where
  | done (cursor : Cursor) : Munches rules cursor [] []
  | bad {cursor : Cursor} {c : Char} {text : List Char}
      {items : List (Except Diagnostic Lexeme)} : rules.NoMatch (c :: text) →
      Munches rules (cursor.advance c) text items →
      Munches rules cursor (c :: text)
        (.error ⟨.badToken c, some ⟨cursor, cursor.advance c⟩⟩ :: items)
  | dropped {cursor : Cursor} {w rest : List Char} {items : List (Except Diagnostic Lexeme)} :
      rules.IsLongest (w ++ rest) w → rules.IsCandidates w [] →
      Munches rules (cursor.advanceAll w) rest items → Munches rules cursor (w ++ rest) items
  | lexeme {cursor : Cursor} {w rest : List Char} {rule : Nat} {others : List Nat}
      {items : List (Except Diagnostic Lexeme)} :
      rules.IsLongest (w ++ rest) w → rules.IsCandidates w (rule :: others) →
      Munches rules (cursor.advanceAll w) rest items →
      Munches rules cursor (w ++ rest)
        (.ok ⟨rule, rule :: others, w, ⟨cursor, cursor.advanceAll w⟩⟩ :: items)

end LexRules

end LexChart
