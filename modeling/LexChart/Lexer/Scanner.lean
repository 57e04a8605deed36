import LexChart.Automaton.Dispatch
import LexChart.Automaton.Fragment
import LexChart.Pattern.Reader
set_option autoImplicit false

/-!
# Scanning with many patterns at once

A lexer joins the patterns of all lex rules into one deterministic automaton.  The rules are
numbered in the order in which they are given, which is also their priority.

A scanner walks through that automaton one character at a time and captures every rule that matches
the characters read so far.  After a character without a transition it is stuck for good.
-/

namespace LexChart

/-- The automaton of some lex rules. -/
structure Lexer where
  dfa : Dfa Interval
  tables : Dispatch
  /-- For each rule, whether its matches are dropped. -/
  ignored : List Bool

namespace Lexer

/-- The automaton with the pattern of a rule reached from `root` and final for that rule. -/
def addRule (root : Nat) (nfa : Nfa Interval) (pattern : Pattern) (rule : Nat) : Nfa Interval :=
  let (nfa, fragment) := nfa.build CharClass.intervals pattern
  (nfa.modifyState root fun s => s.addTransition (.null fragment.entry)).modifyState fragment.exit
    fun s => { s with accept := some rule }

/-- One automaton for all patterns, which starts in state zero. -/
def nfa (patterns : List Pattern) : Nfa Interval :=
  let (nfa, root) := Nfa.empty.addState
  patterns.zipIdx.foldl (fun nfa (pattern, rule) => addRule root nfa pattern rule) nfa

/-- The lexer of some rules, each with its pattern and whether its matches are dropped. -/
def ofRules (rules : List (Pattern × Bool)) : Except Fault Lexer := do
  let dfa ← Dfa.build (nfa (rules.map Prod.fst)) 0
  pure ⟨dfa, .ofDfa dfa, rules.map Prod.snd⟩

/-- The number of rules. -/
def size (lexer : Lexer) : Nat := lexer.ignored.length

/-- The matches of the rule are dropped. -/
def isIgnored (lexer : Lexer) (rule : Nat) : Bool := lexer.ignored.getD rule false

/-- The transition that leaves a state with a character. -/
@[inline]
def step (lexer : Lexer) (id : Nat) (c : Char) : Except Fault (Option (DfaTransition Interval)) :=
  lexer.tables.step lexer.dfa id c

end Lexer

/-- A rule that matches the characters scanned so far. -/
structure Capture where
  /-- The characters that it matches, the last one first. -/
  reversed : List Char
  completion : Completion
  deriving DecidableEq

namespace Capture

/-- The rule that matches. -/
def rule (c : Capture) : Nat := c.completion.rule

/-- The characters that it matches. -/
def spelling (c : Capture) : List Char := c.reversed.reverse

end Capture

/-- A walk through the automaton of a lexer.  What it collects is kept with the last one first, so
that a step costs the same however far the walk has come. -/
structure Scanner where
  /-- The state reached, unless the scanner is stuck. -/
  state : Option Nat := some Dfa.start
  /-- The characters accepted so far, the last one first. -/
  reversed : List Char := []
  /-- All captures, the last one first. -/
  found : List Capture := []
  deriving DecidableEq

namespace Scanner

/-- The scanner before the first character. -/
def fresh : Scanner := {}

/-- The scanner can still accept a character. -/
def canContinue (s : Scanner) : Bool := s.state.isSome

/-- The characters accepted so far. -/
def spelling (s : Scanner) : List Char := s.reversed.reverse

/-- All captures in the order in which they were made. -/
def captures (s : Scanner) : List Capture := s.found.reverse

/-- The scanner after a transition with a character. -/
@[inline]
def follow (s : Scanner) (t : DfaTransition Interval) (c : Char) : Scanner :=
  let reversed := c :: s.reversed
  { state := some t.target
    reversed := reversed
    found := t.completions.foldl (fun found completion => ⟨reversed, completion⟩ :: found) s.found }

/-- Feeds one character, and says whether it was accepted. -/
@[inline]
def scan (lexer : Lexer) (s : Scanner) (c : Char) : Except Fault (Scanner × Bool) :=
  match s.state with
  | none => .ok (s, false)
  | some id => do
    match ← lexer.step id c with
    | none => pure ({ s with state := none }, false)
    | some t => pure (s.follow t c, true)

/-- The longest spelling captured and the rules that capture it, by priority. -/
def longestMatch (s : Scanner) : Option (List Char × List Nat) :=
  s.found.head?.map fun longest =>
    let length := longest.reversed.length
    let captures := s.found.takeWhile fun c => c.reversed.length = length
    (longest.spelling, ascending (captures.map Capture.rule))

end Scanner

end LexChart
