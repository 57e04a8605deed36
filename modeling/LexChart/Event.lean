import LexChart.Diagnostic
set_option autoImplicit false

/-!
# What is worth a line in a log

Events of the constructions and of the recognition, each with its level and its line.
-/

namespace LexChart

/-- How important an event is. -/
inductive Level where
  | trace
  | debug
  | warn
  deriving DecidableEq

/-- The name of a level. -/
def Level.text : Level → String
  | .trace => "TRACE"
  | .debug => "DEBUG"
  | .warn => "WARN"

/-- Something that happened. -/
inductive Event where
  /-- An automaton was made deterministic. -/
  | determinized (nfaStates dfaStates : Nat)
  /-- The lex rules were joined into one automaton. -/
  | lexerBuilt (rules dfaStates : Nat)
  | grammarBuilt (lexRules rules productions : Nat)
  /-- The references between rules were resolved. -/
  | networkBuilt (rules states : Nat)
  | machineBuilt (nfaStates dfaStates : Nat)
  /-- A token is read. -/
  | tokenRead (name : String) (location : Nat)
  /-- A token cannot follow those before it. -/
  | tokenRejected (name : String) (location : Nat) (expecting : List String)
  /-- Something wrong with the text was passed over. -/
  | skipped (diagnostic : Diagnostic)
  deriving DecidableEq

namespace Event

/-- How important the event is. -/
def level : Event → Level
  | tokenRead _ _ => .trace
  | skipped _ => .warn
  | _ => .debug

/-- The line for the event. -/
def message : Event → String
  | determinized nfaStates dfaStates =>
    "subset construction: " ++ toString nfaStates ++ " NFA states, " ++ toString dfaStates ++
      " DFA states"
  | lexerBuilt rules dfaStates =>
    "lexer: " ++ toString rules ++ " rules, " ++ toString dfaStates ++ " DFA states"
  | grammarBuilt lexRules rules productions =>
    "grammar: " ++ toString lexRules ++ " lex rules, " ++ toString rules ++ " rules, " ++
      toString productions ++ " productions"
  | networkBuilt rules states =>
    "earley nfa: " ++ toString rules ++ " rules, " ++ toString states ++ " states"
  | machineBuilt nfaStates dfaStates =>
    "earley dfa: " ++ toString nfaStates ++ " NFA states, " ++ toString dfaStates ++ " DFA states"
  | tokenRead name location => "pulse " ++ name ++ " at " ++ toString location
  | tokenRejected name location expecting =>
    "rejected " ++ name ++ " at " ++ toString location ++ ", expecting " ++
      Text.commaSeparated expecting
  | skipped diagnostic => "skipped " ++ diagnostic.message

end Event

end LexChart
