import LexChart.Pattern.Reader
set_option autoImplicit false

/-!
# Grammars

A grammar has lex rules, which say what a token looks like, and rules, whose productions are
sequences of symbols.  A symbol refers to a lex rule or a rule by its number.

A grammar is drawn as one line per production.
-/

namespace LexChart

/-- An item of a production. -/
inductive Symbol where
  | lex (id : Nat)
  | rule (id : Nat)
  deriving DecidableEq

/-- A kind of token. -/
structure LexRule where
  id : Nat
  name : String
  pattern : Pattern
  /-- The only text that it matches, if it is declared by that text. -/
  spelling : Option String
  /-- Matched, but dropped from the text. -/
  ignored : Bool

/-- One way to derive a rule. -/
structure Production where
  lhs : Nat
  rhs : List Symbol
  deriving DecidableEq

/-- A rule and all ways to derive it. -/
structure Rule where
  id : Nat
  name : String
  productions : List Production
  /-- The rule derives the empty sequence. -/
  nullable : Bool
  /-- The rule stands for a repeated part of a declared rule. -/
  generated : Bool
  deriving DecidableEq

/-- A grammar. -/
structure Grammar where
  lexRules : List LexRule
  rules : List Rule
  /-- The number of the rule that derives whole texts. -/
  start : Nat

namespace Grammar

/-- A lex rule by its number. -/
def lexRule (g : Grammar) (id : Nat) : Except Fault LexRule :=
  match g.lexRules[id]? with
  | some r => .ok r
  | none => .error (.missingLexRule id)

/-- A rule by its number. -/
def rule (g : Grammar) (id : Nat) : Except Fault Rule :=
  match g.rules[id]? with
  | some r => .ok r
  | none => .error (.missingRule id)

/-- The first lex rule of a name. -/
def findLexRule? (g : Grammar) (name : String) : Option LexRule :=
  g.lexRules.find? fun r => r.name = name

/-- The first rule of a name. -/
def findRule? (g : Grammar) (name : String) : Option Rule :=
  g.rules.find? fun r => r.name = name

/-- The rule of this number derives the empty sequence. -/
def isNullable (g : Grammar) (id : Nat) : Except Fault Bool := (g.rule id).map Rule.nullable

/-- The productions of all rules. -/
def productions (g : Grammar) : List Production := g.rules.flatMap Rule.productions

/-- The name of a symbol. -/
def symbolName (g : Grammar) : Symbol → Except Fault String
  | .lex id => (g.lexRule id).map LexRule.name
  | .rule id => (g.rule id).map Rule.name

/-- The names of a sequence of symbols, or `ε` if it is empty. -/
def symbolsText (g : Grammar) (symbols : List Symbol) : Except Fault String := do
  let names ← symbols.mapM g.symbolName
  pure (if symbols.isEmpty then "ε" else " ".intercalate names)

/-- A production as a line. -/
def productionText (g : Grammar) (p : Production) : Except Fault String := do
  let rhs ← g.symbolsText p.rhs
  let lhs ← g.symbolName (.rule p.lhs)
  pure (lhs ++ " -> " ++ rhs ++ "\n")

/-- All productions, one line each. -/
def text (g : Grammar) : Except Fault String := do
  let lines ← g.productions.mapM g.productionText
  pure (String.join lines)

end Grammar

end LexChart
