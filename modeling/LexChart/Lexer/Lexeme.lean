import LexChart.Position
import LexChart.Text.Escape
set_option autoImplicit false

/-!
# Lexemes

A lexeme is a piece of the text that some lex rules match.  All rules that match it are its
candidates, those of higher priority first; it is read as one of them.
-/

namespace LexChart

/-- A piece of the text, read as one of the lex rules that match it. -/
structure Lexeme where
  /-- The lex rule it is read as. -/
  rule : Nat
  /-- All lex rules that match it, the one of highest priority first. -/
  candidates : List Nat
  spelling : List Char
  span : Span
  deriving DecidableEq

namespace Lexeme

/-- A lexeme read as its first candidate. -/
def ofCandidates (candidates : List Nat) (spelling : List Char) (span : Span) : Lexeme :=
  ⟨candidates.head?.getD 0, candidates, spelling, span⟩

/-- The lexeme may be read in several ways. -/
def isAmbiguous (l : Lexeme) : Bool := 1 < l.candidates.length

/-- The lexeme read as one of its candidates; any other rule is refused. -/
def choose? (l : Lexeme) (rule : Nat) : Option Lexeme :=
  if rule ∈ l.candidates then some { l with rule } else none

/-- The spelling between quotes. -/
def text (l : Lexeme) : String := Text.quotedString l.spelling

end Lexeme

end LexChart
