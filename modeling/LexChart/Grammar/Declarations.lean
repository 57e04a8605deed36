import LexChart.Expr.Terminals
import LexChart.Grammar.Normalize
set_option autoImplicit false

/-!
# Declaring a grammar

A grammar is declared step by step: lex rules by a pattern or by the only text that they match,
rules by one body after the other, names of lex rules whose matches are dropped, and the rule to
start from.  Names of lex rules and of rules are kept apart as they are declared.

`Declarations.build` resolves the names in all bodies, gives every literal text in them a lex rule,
and flattens the bodies into productions.  A literal is matched by the first lex rule that is
declared by the same text, or by a new one named after it.
-/

namespace LexChart

/-- A leaf of a rule body. -/
inductive Term where
  /-- A lex rule by its name. -/
  | lex (name : String)
  /-- A rule by its name. -/
  | rule (name : String)
  /-- A literal character. -/
  | char (c : Char)
  /-- A literal text. -/
  | spelling (text : String)
  deriving DecidableEq

/-- The leaf as it is printed: a name, or a quoted literal. -/
def Term.text : Term → String
  | .lex name => name
  | .rule name => name
  | .char c => Text.quotedBareChar c
  | .spelling text => Text.quotedString text.toList

/-- The body of a rule. -/
abbrev RuleBody : Type := Expr Term

/-- What is declared so far. -/
structure Declarations where
  lexRules : List LexRule := []
  /-- Rules with all their bodies, in the order of their first ones. -/
  rules : List (String × List RuleBody) := []
  ignored : List String := []
  start : Option String := none

namespace Declarations

/-- Nothing declared. -/
def empty : Declarations := {}

/-- A lex rule has this name. -/
def hasLexRule (d : Declarations) (name : String) : Bool := d.lexRules.any fun r => r.name = name

/-- A rule has this name. -/
def hasRule (d : Declarations) (name : String) : Bool := d.rules.any fun r => r.1 = name

/-- The name is free for a lex rule. -/
def checkLexName (d : Declarations) (name : String) : Except Diagnostic Unit :=
  if d.hasLexRule name then .error ⟨.duplicatedLexRule name, none⟩
  else if d.hasRule name then .error ⟨.duplicatedRule name, none⟩
  else .ok ()

/-- A list of lex rules with one more behind them. -/
def appendLexRule (lexRules : List LexRule) (name : String) (pattern : Pattern)
    (spelling : Option String) : List LexRule :=
  lexRules ++ [⟨lexRules.length, name, pattern, spelling, false⟩]

/-- Declares a lex rule by a pattern. -/
def addLexPattern (d : Declarations) (name pattern : String) : Except Diagnostic Declarations := do
  d.checkLexName name
  let pattern ← Pattern.parse pattern
  pure { d with lexRules := appendLexRule d.lexRules name pattern none }

/-- Declares a lex rule by the only text that it matches. -/
def addLexSpelling (d : Declarations) (name spelling : String) :
    Except Diagnostic Declarations := do
  d.checkLexName name
  pure { d with
    lexRules := appendLexRule d.lexRules name (.ofSpelling spelling.toList) (some spelling) }

/-- Declares a lex rule by the only character that it matches. -/
def addLexChar (d : Declarations) (name : String) (c : Char) : Except Diagnostic Declarations :=
  d.addLexSpelling name (String.singleton c)

/-- The rules with one more body for a name, which is declared with its first body. -/
def appendBody (name : String) (body : RuleBody) :
    List (String × List RuleBody) → List (String × List RuleBody)
  | [] => [(name, [body])]
  | (other, bodies) :: rest =>
    if other = name then (other, bodies ++ [body]) :: rest
    else (other, bodies) :: appendBody name body rest

/-- Declares a rule, or one more body of it. -/
def addRule (d : Declarations) (name : String) (body : RuleBody) :
    Except Diagnostic Declarations :=
  if d.hasLexRule name then .error ⟨.duplicatedRule name, none⟩
  else .ok { d with rules := appendBody name body d.rules }

/-- Has the matches of a lex rule dropped. -/
def ignore (d : Declarations) (name : String) : Declarations :=
  { d with ignored := d.ignored ++ [name] }

/-- Sets the rule to start from. -/
def setStart (d : Declarations) (name : String) : Declarations := { d with start := some name }

/-! ## Resolving names -/

/-- Marks the first lex rule of a name as ignored. -/
def markIgnored (name : String) : List LexRule → Except Diagnostic (List LexRule)
  | [] => .error ⟨.unknownLexRule name, none⟩
  | r :: rest =>
    if r.name = name then .ok ({ r with ignored := true } :: rest)
    else (markIgnored name rest).map (r :: ·)

/-- The name of the lex rule of a literal: a quoted character, or a quoted text. -/
def literalName (spelling : String) : String :=
  match spelling.toList with
  | [c] => Text.quotedBareChar c
  | text => Text.quotedString text

/-- Actions that may add lex rules for literals. -/
abbrev Resolving : Type → Type := StateT (List LexRule) (Except Diagnostic)

/-- The lex rule that matches a literal. -/
def literal (spelling : String) : Resolving Nat := fun lexRules =>
  match lexRules.find? fun r => r.spelling = some spelling with
  | some r => .ok (r.id, lexRules)
  | none =>
    .ok (lexRules.length,
      appendLexRule lexRules (literalName spelling) (.ofSpelling spelling.toList) (some spelling))

/-- The symbol that a leaf refers to, given the names of all rules. -/
def resolve (ruleNames : List String) : Term → Resolving Symbol
  | .lex name => do
    match (← get).findIdx? fun r => r.name = name with
    | some id => pure (.lex id)
    | none => throw ⟨.unknownLexRule name, none⟩
  | .rule name =>
    match ruleNames.findIdx? (· = name) with
    | some id => pure (.rule id)
    | none => throw ⟨.unknownRule name, none⟩
  | .char c => Symbol.lex <$> literal (String.singleton c)
  | .spelling text => Symbol.lex <$> literal text

/-- The body of a rule over symbols: the choice of all bodies declared for it. -/
def resolveBody (ruleNames : List String) (bodies : List RuleBody) : Resolving (Expr Symbol) :=
  (Expr.choice bodies).simplify.mapTerminals (resolve ruleNames)

/-- The bodies of all rules over symbols. -/
def resolveBodies (ruleNames : List String) :
    List (String × List RuleBody) → Resolving (List (String × Expr Symbol))
  | [] => pure []
  | (name, bodies) :: rest => do
    let body ← resolveBody ruleNames bodies
    let rest ← resolveBodies ruleNames rest
    pure ((name, body) :: rest)

/-- The number of the start rule. -/
def startRule (d : Declarations) : Except Diagnostic Nat :=
  match d.start with
  | none => .error ⟨.missingStartRule, none⟩
  | some name =>
    match d.rules.findIdx? fun r => r.1 = name with
    | some id => .ok id
    | none => .error ⟨.unknownRule name, none⟩

/-- The declared lex rules, those whose matches are to be dropped marked. -/
def markedLexRules (d : Declarations) : Except Diagnostic (List LexRule) :=
  d.ignored.foldlM (fun lexRules name => markIgnored name lexRules) d.lexRules

/-- What is declared, with its names resolved: the bodies of all rules, all lex rules, and the
number of the start rule.  Of several mistakes the first one is reported: an unknown name among the
ignored ones, a missing or unknown start rule, and then the unknown names in the bodies from left to
right. -/
def resolved (d : Declarations) :
    Except Diagnostic (List (String × Expr Symbol) × List LexRule × Nat) := do
  let lexRules ← d.markedLexRules
  let start ← d.startRule
  let (bodies, lexRules) ← (resolveBodies (d.rules.map Prod.fst) d.rules).run lexRules
  pure (bodies, lexRules, start)

/-- The grammar that is declared, or what is wrong with its names.  A repetition that is too large
for any grammar is a fault. -/
def build (d : Declarations) : Except Fault (Except Diagnostic Grammar) :=
  match d.resolved with
  | .error mistake => .ok (.error mistake)
  | .ok (bodies, lexRules, start) => do
    Grammar.checkBodies bodies
    pure (.ok ⟨lexRules, Grammar.markNullable (Grammar.flatten bodies), start⟩)

end Declarations

end LexChart
