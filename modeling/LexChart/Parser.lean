import LexChart.Event
import LexChart.Lexer.Tokenizer
import LexChart.Recognizer.Basic
set_option autoImplicit false

/-!
# Parsing a text

A parser cuts a text into lexemes and reads them as tokens one after the other.  A lexeme that
several lex rules match is read as the first one that can come next, if this is wanted and there is
one, and as the one of highest priority otherwise.  A character that no lex rule matches ends the
parse or is passed over and kept as a diagnostic.

Beside its answer, every parse gives the events on the way to it.
-/

namespace LexChart

/-- What to do with a character that no lex rule matches. -/
inductive BadTokenPolicy where
  /-- Stop at the first one. -/
  | fail
  /-- Pass over it and keep a diagnostic. -/
  | skip
  deriving DecidableEq

/-- The choices of a caller. -/
structure ParseOptions where
  badTokens : BadTokenPolicy := .fail
  /-- Read a lexeme as the first of its candidates that can come next, rather than as the one of
  highest priority. -/
  preferExpected : Bool := true
  deriving DecidableEq

/-- The automata of a grammar, made once for any number of texts. -/
structure Parser where
  grammar : Grammar
  lexer : Lexer
  machine : Machine
  options : ParseOptions

/-- The outcome of a successful parse. -/
structure Recognition where
  tokens : List Lexeme
  chart : Chart
  /-- The bad characters passed over. -/
  diagnostics : List Diagnostic

/-- Nothing was passed over. -/
def Recognition.isClean (r : Recognition) : Bool := r.diagnostics.isEmpty

/-! ## Events -/

/-- The event of a grammar that was built. -/
def Grammar.events (g : Grammar) : List Event :=
  [.grammarBuilt g.lexRules.length g.rules.length g.productions.length]

/-- The event of an automaton that was made deterministic. -/
def Dfa.events {L : Type} (nfa : Nfa L) (dfa : Dfa L) : List Event :=
  [.determinized nfa.size dfa.size]

/-- The events of a lexer that was built from some patterns. -/
def Lexer.events (patterns : List Pattern) (lexer : Lexer) : List Event :=
  Dfa.events (Lexer.nfa patterns) lexer.dfa ++ [.lexerBuilt lexer.size lexer.dfa.size]

/-- The event of a network that was built. -/
def RuleNetwork.events (net : RuleNetwork) : List Event :=
  [.networkBuilt net.fragments.length net.nfa.size]

/-- The events of a network and the machine that was built from it. -/
def Machine.events (net : RuleNetwork) (m : Machine) : List Event :=
  net.events ++ [.machineBuilt net.nfa.size m.size]

/-- The events of a token that is read at a location, given the outcome. -/
def Machine.tokenEvents (m : Machine) (location token : Nat)
    (outcome : Except Diagnostic Recognizer) : List Event :=
  .tokenRead (m.lexName token) location ::
    match outcome with
    | .error ⟨.noViableContinuation location got expected, _⟩ =>
      [.tokenRejected got location expected.names]
    | _ => []

/-! ## Building a parser -/

namespace Parser

/-- The patterns of all lex rules, each with whether its matches are dropped. -/
def lexRulesOf (g : Grammar) : List (Pattern × Bool) :=
  g.lexRules.map fun r => (r.pattern, r.ignored)

/-- The parser of a grammar. -/
def ofGrammar (g : Grammar) (options : ParseOptions) : Except Fault Parser := do
  let lexer ← Lexer.ofRules (lexRulesOf g)
  let machine ← Machine.ofGrammar g
  pure ⟨g, lexer, machine, options⟩

/-- The events of building the parser of a grammar. -/
def events (p : Parser) : Except Fault (List Event) := do
  let net ← RuleNetwork.ofGrammar p.grammar
  pure (p.lexer.events (p.grammar.lexRules.map LexRule.pattern) ++ p.machine.events net)

/-! ## Parsing -/

/-- A parse on its way. -/
structure Progress where
  recognizer : Recognizer
  tokens : Array Lexeme := #[]
  diagnostics : Array Diagnostic := #[]

/-- An answer and the events so far. -/
abbrev Traced (α : Type) : Type := Array Event × α

/-- The first of some lex rules whose tokens can come next. -/
def firstExpected (r : Recognizer) : List Nat → Except Fault (Option Nat)
  | [] => .ok none
  | rule :: rest => do
    if ← r.canAdvance rule then pure (some rule) else firstExpected r rest

/-- The lexeme read as the lex rule that the options choose. -/
def readAs (options : ParseOptions) (r : Recognizer) (l : Lexeme) : Except Fault Lexeme :=
  if options.preferExpected && l.isAmbiguous then do
    let rule ← firstExpected r l.candidates
    pure ((rule.bind l.choose?).getD l)
  else .ok l

/-- Reads one lexeme as a token.  A diagnostic ends the parse. -/
def readLexeme (options : ParseOptions) (events : Array Event) (p : Progress) (l : Lexeme) :
    Except Fault (Traced (Except Diagnostic Progress)) := do
  let ⟨r, tokens, diagnostics⟩ := p
  let l ← readAs options r l
  let m := r.machine
  let location := r.location
  let outcome ← r.advance location l.rule
  let events := events ++ m.tokenEvents location l.rule outcome
  match outcome with
  | .ok r => pure (events, .ok ⟨r, tokens.push l, diagnostics⟩)
  | .error d => pure (events, .error { d with span := some l.span })

/-- Goes on with a lexeme or a bad character.  A diagnostic ends the parse. -/
def readItem (options : ParseOptions) (events : Array Event) (p : Progress) :
    Except Diagnostic Lexeme → Except Fault (Traced (Except Diagnostic Progress))
  | .ok l => readLexeme options events p l
  | .error d =>
    match options.badTokens with
    | .fail => .ok (events, .error d)
    | .skip => .ok (events.push (.skipped d), .ok { p with diagnostics := p.diagnostics.push d })

/-- The answer once all of the text up to `stop` is read. -/
def finish (p : Progress) (stop : Span) : Except Fault (Except Diagnostic Recognition) := do
  if ← p.recognizer.isAccepted then
    pure (.ok ⟨p.tokens.toList, p.recognizer.chart, p.diagnostics.toList⟩)
  else
    let expected ← p.recognizer.expectedNames
    pure (.error ⟨.unexpectedEnd expected, some stop⟩)

/-- Goes on with at most `limit` items of a text, up to one that ends the parse.  The text behind
that one is never looked at. -/
def readText (lexer : Lexer) (options : ParseOptions) :
    Nat → Array Event → Progress → Tokenizer →
      Except Fault (Traced (Except Diagnostic Recognition))
  | 0, events, p, t => (finish p t.span).map (events, ·)
  | limit + 1, events, p, t => do
    match ← t.next lexer with
    | (none, t) => (finish p t.span).map (events, ·)
    | (some item, t) =>
      match ← readItem options events p item with
      | (events, .ok p) => readText lexer options limit events p t
      | (events, .error d) => pure (events, .error d)

/-- Parses a text, and tells the events on the way.  Every item is at least one character long. -/
def parseWithEvents (p : Parser) (text : List Char) :
    Except Fault (Except Diagnostic Recognition × List Event) := do
  let start ← Recognizer.ofMachine p.machine
  let (events, answer) ←
    readText p.lexer p.options (text.length + 1) #[] { recognizer := start } (.ofText text)
  pure (answer, events.toList)

/-- Parses a text. -/
def parse (p : Parser) (text : List Char) : Except Fault (Except Diagnostic Recognition) :=
  (p.parseWithEvents text).map Prod.fst

/-- The start rule derives the tokens of a text. -/
def recognizes (p : Parser) (text : List Char) : Except Fault Bool :=
  (p.parse text).map fun answer => answer.toOption.isSome

end Parser

end LexChart
