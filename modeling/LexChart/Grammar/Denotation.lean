import LexChart.Expr.Language
import LexChart.Grammar.Declarations
set_option autoImplicit false

/-!
# What declarations mean

`Declared` says which declarations can come about step by step.  Their rules denote languages of
tokens that are given without any productions: the least ones such that every word of a body of a
rule is a word of the rule, when a leaf of a body that names a rule stands for the language of that
rule, and any other leaf for the one token of its lex rule.
-/

namespace LexChart.Declarations

/-- Declarations made one after the other, beginning with none. -/
inductive Declared : Declarations → Prop where
  | empty : Declared empty
  | lexPattern {d e : Declarations} {name pattern : String} : Declared d →
      d.addLexPattern name pattern = .ok e → Declared e
  | lexSpelling {d e : Declarations} {name spelling : String} : Declared d →
      d.addLexSpelling name spelling = .ok e → Declared e
  | rule {d e : Declarations} {name : String} {body : RuleBody} : Declared d →
      d.addRule name body = .ok e → Declared e
  | ignore {d : Declarations} (name : String) : Declared d → Declared (d.ignore name)
  | start {d : Declarations} (name : String) : Declared d → Declared (d.setStart name)

/-- A language of tokens for each rule, by its name. -/
abbrev Meaning : Type := String → Language Nat

/-- The one-token words of the first lex rule with a property. -/
def tokenOf (lexRules : List LexRule) (p : LexRule → Bool) : Language Nat :=
  {w | ∃ id, lexRules.findIdx? p = some id ∧ w = [id]}

/-- The words of a leaf of a body, given the lex rules of the grammar and the words of the rules. -/
def termLanguage (lexRules : List LexRule) (meaning : Meaning) : Term → Language Nat
  | .lex name => tokenOf lexRules fun r => r.name = name
  | .rule name => meaning name
  | .char c => tokenOf lexRules fun r => r.spelling = some (String.singleton c)
  | .spelling text => tokenOf lexRules fun r => r.spelling = some text

/-- Every word of a body of a rule is a word of the rule. -/
def Meaning.Fits (meaning : Meaning) (d : Declarations) (lexRules : List LexRule) : Prop :=
  ∀ name bodies, (name, bodies) ∈ d.rules → ∀ body ∈ bodies,
    ∀ w ∈ body.language (termLanguage lexRules meaning), w ∈ meaning name

/-- The words of a declared rule: those it has in every meaning that fits. -/
def language (d : Declarations) (lexRules : List LexRule) (name : String) : Language Nat :=
  {w | ∀ meaning : Meaning, meaning.Fits d lexRules → w ∈ meaning name}

/-- The language of a rule is the least one. -/
theorem mem_of_mem_language {d : Declarations} {lexRules : List LexRule} {meaning : Meaning}
    (h : meaning.Fits d lexRules) {name : String} {w : List Nat}
    (hw : w ∈ d.language lexRules name) : w ∈ meaning name := hw meaning h

end LexChart.Declarations
