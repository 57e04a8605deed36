import LexChart.Charset.CharClass
import LexChart.Text.Escape
set_option autoImplicit false

/-!
# Printed intervals and character classes
-/

namespace LexChart

/-- The ends of an interval joined by a dash, or its only character. -/
def Interval.endsText (i : Interval) : String :=
  if i.isSingle then Text.bareChar i.lo else Text.bareChar i.lo ++ "-" ++ Text.bareChar i.hi

/-- A dot for all characters, a quoted character, or the two ends between brackets. -/
def Interval.text (i : Interval) : String :=
  if i = .all then "."
  else if i.isSingle then Text.quotedBareChar i.lo
  else "[" ++ i.endsText ++ "]"

/-- The class as a pattern would write it. -/
def CharClass.text : CharClass → String
  | .char c => Text.bareChar c
  | .range i => i.text
  | .any => "."
  | .set intervals negated =>
    "[" ++ (if negated then "^" else "") ++ String.join (intervals.map Interval.endsText) ++ "]"

end LexChart
