import LexChart.Position
import LexChart.Text.Escape
set_option autoImplicit false

/-!
# What can be wrong with the input

A diagnostic says what is wrong with a pattern, a grammar or a text, and where if the place is
known.  Each cause is a constructor; `Problem.message` holds the wording.
-/

namespace LexChart

/-- What is wrong with a pattern. -/
inductive PatternError where
  /-- A backslash ends the pattern. -/
  | danglingEscape
  /-- A dash in a set follows nothing that may begin a range. -/
  | rangeWithoutStart
  /-- A parenthesis has no partner. -/
  | unmatchedGroup
  /-- The pattern ends inside a set. -/
  | unterminatedSet
  /-- A quantifier follows nothing. -/
  | nothingToQuantify
  /-- A range ends before it begins, or at a class. -/
  | invalidRange (min max : Char)
  /-- A count is missing, too large, or above the one that follows. -/
  | invalidRepetition
  deriving DecidableEq

/-- The reason in words. -/
def PatternError.message : PatternError → String
  | .danglingEscape => "the pattern ends in the middle of an escape sequence"
  | .rangeWithoutStart => "a character range has no starting character"
  | .unmatchedGroup => "unmatched group delimiter"
  | .unterminatedSet => "unterminated character set"
  | .nothingToQuantify => "a quantifier has nothing to repeat"
  | .invalidRange min max =>
    "invalid character range " ++ Text.quotedChar min ++ "-" ++ Text.quotedChar max
  | .invalidRepetition => "invalid repetition count"

/-- The names of what could have come instead. -/
structure Expected where
  names : List String
  deriving DecidableEq

namespace Expected

/-- The names in a row, or a word for none. -/
def text (e : Expected) : String :=
  if e.names.isEmpty then "nothing" else Text.commaSeparated e.names

/-- The names in a row, right aligned to a number of characters.  The word for none is never
padded. -/
def alignedText (e : Expected) (columns : Nat) : String :=
  if e.names.isEmpty then e.text
  else String.ofList (List.replicate (columns - e.text.length) ' ') ++ e.text

end Expected

/-- What is wrong. -/
inductive Problem where
  /-- A pattern cannot be read; `position` characters of it are read by then. -/
  | malformedPattern (pattern : String) (position : Nat) (reason : PatternError)
  | unknownRule (name : String)
  | unknownLexRule (name : String)
  /-- The name is taken by a rule, or is wanted for a rule and taken by a lex rule. -/
  | duplicatedRule (name : String)
  | duplicatedLexRule (name : String)
  | missingStartRule
  /-- No lex rule matches a text that begins with the character. -/
  | badToken (c : Char)
  /-- The lexeme read after `location` others cannot follow them. -/
  | noViableContinuation (location : Nat) (got : String) (expecting : Expected)
  /-- The text ends where the start rule does not. -/
  | unexpectedEnd (expecting : Expected)
  deriving DecidableEq

/-- The problem in words. -/
def Problem.message : Problem → String
  | .malformedPattern pattern position reason =>
    "malformed pattern `" ++ pattern ++ "` at " ++ toString position ++ ": " ++ reason.message
  | .unknownRule name => "unknown rule " ++ name
  | .unknownLexRule name => "unknown lex rule " ++ name
  | .duplicatedRule name => "a rule with the same name already exists " ++ name
  | .duplicatedLexRule name => "a lex rule with the same name already exists " ++ name
  | .missingStartRule => "the grammar has no start rule"
  | .badToken c => "bad token " ++ Text.quotedChar c
  | .noViableContinuation location got expecting =>
    "no viable continuation at location " ++ toString location ++ ": unexpected " ++ got ++
      ", expecting " ++ expecting.text
  | .unexpectedEnd expecting => "unexpected end of stream, expecting " ++ expecting.text

/-- A problem and its place in the text, if it has one. -/
structure Diagnostic where
  problem : Problem
  span : Option Span := none
  deriving DecidableEq

/-- The problem in words, without its place. -/
def Diagnostic.message (d : Diagnostic) : String := d.problem.message

end LexChart
