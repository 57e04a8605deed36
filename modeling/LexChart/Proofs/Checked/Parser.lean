import LexChart.Proofs.Checked.Machine
import LexChart.Proofs.Checked.Patterns
import LexChart.Proofs.Checked.Recognizer
import LexChart.Proofs.Checked.Tokens
import LexChart.Proofs.Parsing
set_option autoImplicit false

/-!
# Nothing breaks off

Everything from a grammar to the answer for a text, checked: every state, set, rule, transition,
place of a table and piece of a text is looked up where it may be missing, every difference of two
numbers may be below zero, and every loop has a limit before which it has to end.

For a grammar that was built, all of it has a value, which is what the library answers.  So what is
looked up is there, and no loop is cut short by its limit.
-/

namespace LexChart.Checked

open Recognizer (ofMachine)

/-- `Parser.Progress`, with a chart that grows in place. -/
structure Course where
  chart : Chart
  tokens : Array Lexeme := #[]
  diagnostics : Array Diagnostic := #[]

/-- `Parser.firstExpected`, checked. -/
def firstExpected (m : Machine) (chart : Chart) : List Nat → Option (Option Nat)
  | [] => some none
  | rule :: rest => do
    if ← canAdvance m chart rule then some (some rule) else firstExpected m chart rest

/-- `Parser.readAs`, checked. -/
def readAs (parser : Parser) (chart : Chart) (l : Lexeme) : Option Lexeme :=
  if parser.options.preferExpected && l.isAmbiguous then do
    let rule ← firstExpected parser.machine chart l.candidates
    some ((rule.bind l.choose?).getD l)
  else some l

/-- `Parser.readLexeme`, checked. -/
def readLexeme (parser : Parser) (p : Course) (l : Lexeme) :
    Option (Except Diagnostic Course) := do
  let l ← readAs parser p.chart l
  let location ← lastLocation p.chart
  match ← advance parser.machine p.chart location l.rule with
  | .ok chart => some (.ok ⟨chart, p.tokens.push l, p.diagnostics⟩)
  | .error d => some (.error { d with span := some l.span })

/-- `Parser.readItem`, checked. -/
def readItem (parser : Parser) (p : Course) :
    Except Diagnostic Lexeme → Option (Except Diagnostic Course)
  | .ok l => readLexeme parser p l
  | .error d =>
    match parser.options.badTokens with
    | .fail => some (.error d)
    | .skip => some (.ok { p with diagnostics := p.diagnostics.push d })

/-- `Parser.finish`, checked. -/
def finish (m : Machine) (p : Course) (stop : Span) : Option (Except Diagnostic Recognition) := do
  if ← isAccepted m p.chart then
    some (.ok ⟨p.tokens.toList, p.chart, p.diagnostics.toList⟩)
  else
    let expected ← expectedNames m p.chart
    some (.error ⟨.unexpectedEnd expected, some stop⟩)

/-- `Parser.readText`, which has to come to the end of the parse before the limit. -/
def readText (parser : Parser) :
    Nat → Course → Tokenizer → Option (Except Diagnostic Recognition)
  | 0, _, _ => none
  | limit + 1, p, t => do
    match ← next parser.lexer (t.rest.length + 1) t with
    | (none, t) => finish parser.machine p t.span
    | (some item, t) =>
      match ← readItem parser p item with
      | .ok p => readText parser limit p t
      | .error d => some (.error d)

/-- `Parser.parse`, checked. -/
def parse (parser : Parser) (text : List Char) : Option (Except Diagnostic Recognition) := do
  let chart ← startChart parser.machine
  readText parser (text.length + 1) { chart } (.ofText text)

/-- `Parser.ofGrammar`, checked. -/
def parserOf (g : Grammar) (options : ParseOptions) : Option Parser := do
  let lexer ← lexerOf (Parser.lexRulesOf g)
  let net ← network g
  let machine ← machineOf net g
  some ⟨g, lexer, machine, options⟩

/-! ## One item -/

/-- What is read of a text, apart from the recognizer that keeps the chart. -/
def courseOf (p : Parser.Progress) : Course := ⟨p.recognizer.chart, p.tokens, p.diagnostics⟩

/-- What holds of a parse between two items. -/
structure Goes (parser : Parser) (p : Parser.Progress) : Prop where
  valid : p.recognizer.Valid
  machine_eq : p.recognizer.machine = parser.machine

theorem firstExpected_eq {r : Recognizer} (valid : r.Valid) {rules : List Nat} {found : Option Nat}
    (h : Parser.firstExpected r rules = .ok found) :
    firstExpected r.machine r.chart rules = some found := by
  induction rules with
  | nil =>
    cases h
    rfl
  | cons rule rest ih =>
    obtain ⟨answer, hanswer, h⟩ := bind_eq_ok_iff.1 h
    refine Option.bind_eq_some_iff.2 ⟨answer, canAdvance_eq valid hanswer, ?_⟩
    cases answer with
    | true =>
      cases h
      rfl
    | false => exact ih h

section

variable {parser : Parser} {p : Parser.Progress}

theorem readAs_eq (h : Goes parser p) {l token : Lexeme}
    (htoken : Parser.readAs parser.options p.recognizer l = .ok token) :
    readAs parser p.recognizer.chart l = some token := by
  unfold Parser.readAs at htoken
  unfold readAs
  split at htoken
  · rename_i hchoice
    rw [if_pos hchoice]
    obtain ⟨found, hfound, htoken⟩ := bind_eq_ok_iff.1 htoken
    cases htoken
    rw [← h.machine_eq]
    exact Option.bind_eq_some_iff.2 ⟨found, firstExpected_eq h.valid hfound, rfl⟩
  · rename_i hchoice
    rw [if_neg hchoice]
    cases htoken
    rfl

theorem readLexeme_eq (h : Goes parser p) {l : Lexeme} {events events' : Array Event}
    {outcome : Except Diagnostic Parser.Progress}
    (hread : Parser.readLexeme parser.options events p l = .ok (events', outcome)) :
    readLexeme parser (courseOf p) l = some (outcome.map courseOf) ∧
      ∀ p', outcome = .ok p' → Goes parser p' := by
  obtain ⟨r, tokens, diagnostics⟩ := p
  obtain ⟨token, htoken, hread⟩ := bind_eq_ok_iff.1 hread
  obtain ⟨found, hfound, hread⟩ := bind_eq_ok_iff.1 hread
  have hadvance := advance_eq h.valid hfound
  rw [h.machine_eq] at hadvance
  have hchecked : ∀ answer : Except Diagnostic Course,
      (match found.map Recognizer.chart with
        | .ok chart => some (.ok ⟨chart, tokens.push token, diagnostics⟩)
        | .error d => some (.error { d with span := some token.span })) = some answer →
      readLexeme parser (courseOf ⟨r, tokens, diagnostics⟩) l = some answer :=
    fun answer hanswer => Option.bind_eq_some_iff.2 ⟨token, readAs_eq h htoken,
      Option.bind_eq_some_iff.2 ⟨_, lastLocation_eq h.valid,
        Option.bind_eq_some_iff.2 ⟨_, hadvance, hanswer⟩⟩⟩
  cases found with
  | error d =>
    cases hread
    exact ⟨hchecked _ rfl, fun p' heq => nomatch heq⟩
  | ok r' =>
    cases hread
    refine ⟨hchecked _ rfl, fun p' heq => ?_⟩
    cases heq
    obtain ⟨next, hnext, hspec⟩ :=
      Recognizer.advance_of_scans h.valid (Recognizer.scans_of_advance h.valid hfound)
    obtain rfl := Except.ok.inj (Except.ok.inj (hfound.symm.trans hnext))
    exact ⟨h.valid.push hspec, h.machine_eq⟩

theorem readItem_eq (h : Goes parser p) {item : Except Diagnostic Lexeme}
    {events events' : Array Event} {outcome : Except Diagnostic Parser.Progress}
    (hread : Parser.readItem parser.options events p item = .ok (events', outcome)) :
    readItem parser (courseOf p) item = some (outcome.map courseOf) ∧
      ∀ p', outcome = .ok p' → Goes parser p' := by
  cases item with
  | ok l => exact readLexeme_eq h hread
  | error d =>
    unfold Parser.readItem at hread
    unfold readItem
    dsimp only at hread ⊢
    cases hpolicy : parser.options.badTokens with
    | fail =>
      rw [hpolicy] at hread
      cases hread
      exact ⟨rfl, fun p' heq => nomatch heq⟩
    | skip =>
      rw [hpolicy] at hread
      cases hread
      refine ⟨rfl, fun p' heq => ?_⟩
      cases heq
      exact ⟨h.valid, h.machine_eq⟩

/-! ## The whole text -/

theorem finish_eq (h : Goes parser p) {stop : Span} {answer : Except Diagnostic Recognition}
    (hfinish : Parser.finish p stop = .ok answer) :
    finish parser.machine (courseOf p) stop = some answer := by
  obtain ⟨accepted, haccepted, hfinish⟩ := bind_eq_ok_iff.1 hfinish
  rw [← h.machine_eq]
  refine Option.bind_eq_some_iff.2 ⟨accepted, isAccepted_eq h.valid haccepted, ?_⟩
  cases accepted with
  | true =>
    cases hfinish
    rfl
  | false =>
    obtain ⟨expected, hexpected, hfinish⟩ := bind_eq_ok_iff.1 hfinish
    cases hfinish
    exact Option.bind_eq_some_iff.2 ⟨expected, expectedNames_eq h.valid hexpected, rfl⟩

/-- Every item shortens the text, so the limit is never met. -/
theorem readText_eq {rules : LexRules} (hruns : parser.lexer.Runs rules)
    (hdrops : parser.lexer.Drops rules) {limit : Nat} {t : Tokenizer}
    (hlimit : t.rest.length < limit) (h : Goes parser p) {events events' : Array Event}
    {answer : Except Diagnostic Recognition}
    (hread : Parser.readText parser.lexer parser.options limit events p t =
      .ok (events', answer)) :
    readText parser limit (courseOf p) t = some answer := by
  induction limit generalizing t p events with
  | zero => exact absurd hlimit (Nat.not_lt_zero _)
  | succ limit ih =>
    obtain ⟨⟨item, behind⟩, hnext, hread⟩ := bind_eq_ok_iff.1 hread
    have hfound := next_eq hruns hdrops (Nat.lt_succ_self t.rest.length) hnext
    refine Option.bind_eq_some_iff.2 ⟨(item, behind), hfound, ?_⟩
    cases item with
    | none =>
      obtain ⟨answer', hfinish, heq⟩ := map_eq_ok_iff.1 hread
      cases heq
      exact finish_eq h hfinish
    | some item =>
      obtain ⟨⟨events₁, outcome⟩, hitem, hread⟩ := bind_eq_ok_iff.1 hread
      obtain ⟨hchecked, hgoes⟩ := readItem_eq h hitem
      refine Option.bind_eq_some_iff.2 ⟨_, hchecked, ?_⟩
      cases outcome with
      | error d =>
        cases hread
        rfl
      | ok p' =>
        obtain ⟨found, behind', hnext', hfinds⟩ := Tokenizer.next_ok hruns hdrops t
        obtain ⟨rfl, rfl⟩ := Prod.mk.inj (Except.ok.inj (hnext'.symm.trans hnext))
        exact ih (Nat.lt_of_lt_of_le hfinds.1 (Nat.le_of_lt_succ hlimit)) (hgoes p' rfl) hread

theorem parse_eq {rules : LexRules} (hlexer : Lexer.ofRules rules = .ok parser.lexer)
    (closed : parser.machine.Closed) {text : List Char} {answer : Except Diagnostic Recognition}
    (h : parser.parse text = .ok answer) : parse parser text = some answer := by
  obtain ⟨⟨_, log⟩, hparse, rfl⟩ := map_eq_ok_iff.1 h
  obtain ⟨start, hstart, hparse⟩ := bind_eq_ok_iff.1 hparse
  obtain ⟨⟨events, answer⟩, htext, hparse⟩ := bind_eq_ok_iff.1 hparse
  cases hparse
  obtain ⟨start', hstart', hmachine, valid, -⟩ := Recognizer.ofMachine_ok closed
  obtain rfl := Except.ok.inj (hstart.symm.trans hstart')
  refine Option.bind_eq_some_iff.2 ⟨_, startChart_eq closed hstart, ?_⟩
  exact readText_eq (Lexer.runs_of_ofRules hlexer) (Lexer.drops_of_ofRules hlexer)
    (Nat.lt_succ_self text.length) ⟨valid, hmachine⟩ htext

end

/-! ## The whole way -/

/-- A parser is made without breaking off. -/
theorem parserOf_eq {g : Grammar} (wellFormed : g.WellFormed) (nullable : g.NullableExact)
    {options : ParseOptions} {parser : Parser} (h : Parser.ofGrammar g options = .ok parser) :
    parserOf g options = some parser := by
  obtain ⟨lexer, hlexer, h⟩ := bind_eq_ok_iff.1 h
  obtain ⟨machine, hmachine, h⟩ := bind_eq_ok_iff.1 h
  cases h
  obtain ⟨net, hnet, hmachine⟩ := bind_eq_ok_iff.1 hmachine
  obtain ⟨net', hnet', represents⟩ := RuleNetwork.ofGrammar_ok wellFormed
  obtain rfl := Except.ok.inj (hnet.symm.trans hnet')
  have hlimit := Machine.lt_sizeLimit_of_ofNetwork hmachine
  exact Option.bind_eq_some_iff.2 ⟨lexer, lexerOf_eq hlexer, Option.bind_eq_some_iff.2
    ⟨net, network_eq wellFormed hnet, Option.bind_eq_some_iff.2
      ⟨machine, machineOf_eq represents nullable hlimit hmachine, rfl⟩⟩⟩

/-- Every difference of two intervals is taken and every pattern is read without breaking off.  For
a grammar that was built, if it fits in memory, a parser is made without breaking off, and it comes
to an answer for every text without breaking off.  These are the intervals, the patterns, the parser
and the answers of the library. -/
theorem pipeline_never_breaks_off :
    (∀ a b, minus a b = some (Interval.minus a b)) ∧
    (∀ pattern, parsePattern pattern = some (Pattern.parse pattern)) ∧
    ∀ d g, Declarations.Declared d → d.build = .ok (.ok g) →
      (Lexer.nfaOf (Parser.lexRulesOf g)).size < sizeLimit → g.stateCount < sizeLimit →
      ∀ options, ∃ parser, parserOf g options = some parser ∧
        Parser.ofGrammar g options = .ok parser ∧
        ∀ text, ∃ answer, parse parser text = some answer ∧ parser.parse text = .ok answer := by
  refine ⟨minus_eq, parsePattern_eq, fun d g declared built hlexer hsize options => ?_⟩
  have wellFormed := Declarations.wellFormed_of_build declared built
  have nullable := nullableExact_of_build declared built
  obtain ⟨parser, hparser⟩ := Parser.ofGrammar_ok wellFormed nullable options hlexer hsize
  refine ⟨parser, parserOf_eq wellFormed nullable hparser, hparser, fun text => ?_⟩
  obtain ⟨-, hanswers⟩ := Parser.parse_exact declared built options
  obtain ⟨-, answer, -, hanswer, -⟩ := hanswers parser hparser text
  obtain ⟨lexer, hlexer, hparser⟩ := bind_eq_ok_iff.1 hparser
  obtain ⟨machine, hmachine, hparser⟩ := bind_eq_ok_iff.1 hparser
  cases hparser
  obtain ⟨net, -, simulates⟩ := Machine.simulates_of_ofGrammar wellFormed nullable hmachine
  exact ⟨answer, parse_eq hlexer simulates.closed_states hanswer, hanswer⟩

/-- Texts of parentheses, an empty one included. -/
theorem pipeline_never_breaks_off_balanced : ∃ g parser,
    Declarations.balanced.build = .ok (.ok g) ∧ parserOf g {} = some parser ∧
    (∃ answer, parse parser ['(', ')'] = some answer) ∧
    ∃ answer, parse parser [] = some answer := by
  obtain ⟨g, built, -, -, hsize, -⟩ := Recognizer.generates_balanced
  have hlexer : (Lexer.nfaOf (Parser.lexRulesOf g)).size < sizeLimit := by
    rw [Parser.lexRulesOf_balanced built]
    decide
  obtain ⟨parser, hparser, -, hanswers⟩ :=
    pipeline_never_breaks_off.2.2 _ g Declarations.declared_balanced built hlexer hsize {}
  obtain ⟨answer, hanswer, -⟩ := hanswers ['(', ')']
  obtain ⟨answer', hanswer', -⟩ := hanswers []
  exact ⟨g, parser, built, hparser, ⟨answer, hanswer⟩, answer', hanswer'⟩

end LexChart.Checked
