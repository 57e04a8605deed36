import LexChart.Expr.Basic
set_option autoImplicit false

/-!
# Printed expressions

The parts of a choice are separated by bars, those of a sequence by spaces, and the sequence of
nothing is `ε`.  A node is put between parentheses if it is an explicit group, if its parts are
repeated together, or if it has several parts and stands inside another node; its repetition
follows.
-/

namespace LexChart.Expr

variable {α : Type}

/-- The node needs parentheses; `nested` says that it stands inside another one. -/
def needsParentheses (nested : Bool) (m : Marks) (partCount : Nat) : Bool :=
  m.grouped || (0 < partCount && m.repetition ≠ .once) || (nested && 1 < partCount)

/-- The text of a node from the text of its parts. -/
def enclosed (nested : Bool) (m : Marks) (partCount : Nat) (body : String) : String :=
  (if needsParentheses nested m partCount then "(" ++ body ++ ")" else body) ++ m.repetition.text

/-- The printed parts of a node, joined. -/
def joinedText (join : Join) (parts : List String) : String :=
  match join, parts with
  | .choice, parts => " | ".intercalate parts
  | .sequence, [] => "ε"
  | .sequence, parts => " ".intercalate parts

mutual

/-- The printed expression, given how to print a terminal. -/
def print (terminalText : α → String) (nested : Bool) : Expr α → String
  | .leaf m t => enclosed nested m 0 (terminalText t)
  | .node m join parts =>
    enclosed nested m parts.length (joinedText join (printParts terminalText parts))

/-- The printed parts of a node. -/
def printParts (terminalText : α → String) : List (Expr α) → List String
  | [] => []
  | part :: rest => print terminalText true part :: printParts terminalText rest

end

/-- The expression as text, given how to print a terminal. -/
def text (terminalText : α → String) (e : Expr α) : String := print terminalText false e

end LexChart.Expr
