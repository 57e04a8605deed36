import LexChart.Text.Escape
set_option autoImplicit false

/-!
# Broken promises of a caller

A fault is not about the input but about how the library is used: an index into an automaton, a
grammar or a chart that holds nothing there, an interval whose ends are the wrong way round, a
lexeme offered to a chart that has moved on, a count beyond what a machine can hold, a text that a
table cannot measure.  Functions that a caller may feed with such values answer with a fault.
-/

namespace LexChart

/-- What a caller promised and did not keep. -/
inductive Fault where
  /-- An automaton has no state of this number. -/
  | missingState (id : Nat)
  /-- A chart has no set at this location. -/
  | missingSet (location : Nat)
  /-- A grammar has no rule of this number. -/
  | missingRule (id : Nat)
  /-- A grammar has no lex rule of this number. -/
  | missingLexRule (id : Nat)
  /-- The first end of an interval is after the second. -/
  | emptyInterval (lo hi : Char)
  /-- A lexeme is read at a location that is not the last one of the chart. -/
  | wrongLocation (location current : Nat)
  /-- The number after the greatest count. -/
  | countOverflow
  /-- A list that is too long for any memory. -/
  | sizeOverflow
  /-- More columns of a line set its colour than the line has. -/
  | hiddenColumns (columns hidden : Nat) (line : List Char)
  deriving DecidableEq

/-- The fault in words. -/
def Fault.message : Fault → String
  | .missingState id => "Missing state " ++ toString id
  | .missingSet location => "Missing set " ++ toString location
  | .missingRule id => "Missing rule " ++ toString id
  | .missingLexRule id => "Missing lex rule " ++ toString id
  | .emptyInterval lo hi =>
    "empty interval " ++ Text.quotedChar lo ++ "-" ++ Text.quotedChar hi
  | .wrongLocation location current =>
    "Cannot pulse location " ++ toString location ++ ", the chart is at " ++ toString current
  | .countOverflow => "attempt to add with overflow"
  | .sizeOverflow => "capacity overflow"
  | .hiddenColumns columns hidden line =>
    "internal error: width " ++ toString columns ++ " less than hidden " ++ toString hidden ++
      " on string " ++ Text.quotedString line

end LexChart
