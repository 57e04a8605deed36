import LexChart.Parser
import LexChart.Proofs.Lexer.Tokens
import LexChart.Proofs.Recognizer.Exactness
set_option autoImplicit false

/-!
# What a parse says about the text

A parse reads the items that maximal munch cuts a text into, one after the other.  Between two items
the recognizer has read one token for each lexeme, and each token is its lexeme read as one of its
candidates.  A parse stops early only at a bad character that it does not pass over, or at a lexeme
with a candidate that cannot come next.

So the tokens of a successful parse are the lexemes of the text, and the start rule derives them.
Where the lexemes leave no choice and the start rule derives them, nothing stops the parse.
-/

namespace LexChart

/-- The lexeme is read as one of its candidates. -/
def Lexeme.IsReadAs (l token : Lexeme) : Prop := ∃ rule ∈ l.candidates, token = { l with rule }

/-- The lexemes among some items. -/
def lexemesOf (items : List (Except Diagnostic Lexeme)) : List Lexeme :=
  items.filterMap fun
    | .ok l => some l
    | .error _ => none

/-- The diagnostics of the bad characters among some items. -/
def badOf (items : List (Except Diagnostic Lexeme)) : List Diagnostic :=
  items.filterMap fun
    | .ok _ => none
    | .error d => some d

section

variable (before : List (Except Diagnostic Lexeme))

@[simp] theorem lexemesOf_concat_ok (l : Lexeme) :
    lexemesOf (before ++ [.ok l]) = lexemesOf before ++ [l] := by
  simp [lexemesOf]

@[simp] theorem lexemesOf_concat_error (d : Diagnostic) :
    lexemesOf (before ++ [.error d]) = lexemesOf before := by
  simp [lexemesOf]

@[simp] theorem badOf_concat_ok (l : Lexeme) : badOf (before ++ [.ok l]) = badOf before := by
  simp [badOf]

@[simp] theorem badOf_concat_error (d : Diagnostic) :
    badOf (before ++ [.error d]) = badOf before ++ [d] := by
  simp [badOf]

end

/-- The lexemes of maximal munch have candidates, which are the rules that match them, and are read
as the first one. -/
theorem LexRules.Munches.candidates {rules : LexRules} {cursor : Cursor} {text : List Char}
    {items : List (Except Diagnostic Lexeme)} (h : rules.Munches cursor text items) :
    ∀ l ∈ lexemesOf items, l.rule ∈ l.candidates ∧ rules.IsCandidates l.spelling l.candidates := by
  induction h with
  | done => exact fun l hl => nomatch hl
  | bad _ _ ih => exact ih
  | dropped _ _ _ ih => exact ih
  | lexeme _ hcandidates _ ih =>
    exact List.forall_mem_cons.2 ⟨⟨List.mem_cons_self, hcandidates⟩, ih⟩

namespace Parser

open Recognizer

variable {g : Grammar} {options : ParseOptions} {p : Progress}
  {before items : List (Except Diagnostic Lexeme)}

/-- The lex rules of the tokens read so far. -/
def Progress.rules (p : Progress) : List Nat := p.tokens.toList.map Lexeme.rule

/-- What holds of a parse between two items. -/
structure Progress.HasRead (g : Grammar) (options : ParseOptions)
    (items : List (Except Diagnostic Lexeme)) (p : Progress) : Prop where
  reached : ReachedBy g p.rules p.recognizer
  tokens : List.Forall₂ Lexeme.IsReadAs (lexemesOf items) p.tokens.toList
  diagnostics : p.diagnostics.toList = badOf items
  clean : options.badTokens = .fail → badOf items = []

/-- An item that may stop the parse. -/
inductive Progress.Stops (g : Grammar) (options : ParseOptions) (p : Progress) :
    Except Diagnostic Lexeme → Prop where
  | bad (d : Diagnostic) : options.badTokens = .fail → Stops g options p (.error d)
  | rejected {l : Lexeme} {rule : Nat} : rule ∈ l.candidates → ¬ g.Continues p.rules rule →
      Stops g options p (.ok l)

/-! ## One item -/

theorem firstExpected_ok {r : Recognizer} (valid : r.Valid) (rules : List Nat) :
    ∃ found, firstExpected r rules = .ok found ∧ ∀ rule, found = some rule → rule ∈ rules := by
  induction rules with
  | nil => exact ⟨none, rfl, fun rule h => nomatch h⟩
  | cons first rest ih =>
    obtain ⟨answer, hanswer, -⟩ := canAdvance_ok valid first
    unfold firstExpected
    rw [hanswer]
    cases answer with
    | true => exact ⟨some first, rfl, fun rule h => Option.some.inj h ▸ List.mem_cons_self⟩
    | false =>
      obtain ⟨found, hfound, hmem⟩ := ih
      exact ⟨found, hfound, fun rule h => List.mem_cons_of_mem first (hmem rule h)⟩

/-- Whatever the options are, a lexeme is read as one of its candidates. -/
theorem readAs_ok {r : Recognizer} (valid : r.Valid) (options : ParseOptions) {l : Lexeme}
    (hl : l.rule ∈ l.candidates) :
    ∃ token, readAs options r l = .ok token ∧ l.IsReadAs token := by
  have hself : l.IsReadAs l := ⟨l.rule, hl, rfl⟩
  unfold readAs
  split
  · obtain ⟨found, hfound, hmem⟩ := firstExpected_ok valid l.candidates
    refine ⟨_, bind_eq_ok_iff.2 ⟨found, hfound, rfl⟩, ?_⟩
    cases found with
    | none => exact hself
    | some rule =>
      have hrule := hmem rule rfl
      have hchoose : l.choose? rule = some { l with rule } := if_pos hrule
      rw [Option.bind_some, hchoose]
      exact ⟨rule, hrule, rfl⟩
  · exact ⟨l, rfl, hself⟩

/-- What reading a lexeme answers, by what the recognizer answers to the token. -/
theorem readLexeme_eq {l token : Lexeme} {outcome : Except Diagnostic Recognizer}
    (htoken : readAs options p.recognizer l = .ok token)
    (houtcome : p.recognizer.advance p.recognizer.location token.rule = .ok outcome)
    (events : Array Event) : ∃ events', readLexeme options events p l = .ok (events',
      match outcome with
      | .ok r => .ok ⟨r, p.tokens.push token, p.diagnostics⟩
      | .error d => .error { d with span := some token.span }) := by
  obtain ⟨r, tokens, diagnostics⟩ := p
  refine ⟨events ++ r.machine.tokenEvents r.location token.rule outcome, ?_⟩
  refine bind_eq_ok_iff.2 ⟨token, htoken, bind_eq_ok_iff.2 ⟨outcome, houtcome, ?_⟩⟩
  cases outcome with
  | ok next => rfl
  | error d => rfl

section

variable (wellFormed : g.WellFormed) (nullable : g.NullableExact)
include wellFormed nullable

/-- A lexeme is read as a token, or one of its candidates cannot come next. -/
theorem readLexeme_ok (h : p.HasRead g options before) {l : Lexeme} (hl : l.rule ∈ l.candidates)
    (events : Array Event) :
    ∃ events' outcome, readLexeme options events p l = .ok (events', outcome) ∧
      match outcome with
      | .ok next => next.HasRead g options (before ++ [.ok l])
      | .error _ => p.Stops g options (.ok l) := by
  obtain ⟨net, agrees, hend⟩ := h.reached.agrees wellFormed nullable
  obtain ⟨token, htoken, hread⟩ := readAs_ok agrees.valid options hl
  by_cases hscans : p.recognizer.Scans token.rule
  · obtain ⟨next, hnext, -⟩ := advance_of_scans agrees.valid hscans
    obtain ⟨events', heq⟩ := readLexeme_eq htoken hnext events
    refine ⟨events', _, heq, ?_⟩
    have hrules : (p.tokens.push token).toList.map Lexeme.rule = p.rules ++ [token.rule] := by
      simp [Progress.rules]
    refine ⟨?_, ?_, ?_, ?_⟩
    · unfold Progress.rules
      rw [hrules]
      exact h.reached.concat hnext
    · rw [lexemesOf_concat_ok, Array.toList_push]
      exact List.rel_append h.tokens (.cons hread .nil)
    · rw [badOf_concat_ok]
      exact h.diagnostics
    · rw [badOf_concat_ok]
      exact h.clean
  · obtain ⟨expected, hexpected, -⟩ := expected_ok agrees.valid
    have hrejected := advance_of_not_scans agrees.valid hscans hexpected
    obtain ⟨events', heq⟩ := readLexeme_eq htoken hrejected events
    refine ⟨events', _, heq, ?_⟩
    obtain ⟨rule, hrule, rfl⟩ := hread
    exact .rejected hrule fun hcontinues =>
      hscans ((agrees.scans_iff_continues hend rule).2 hcontinues)

/-- An item is read, or it stops the parse. -/
theorem readItem_ok (h : p.HasRead g options before) (item : Except Diagnostic Lexeme)
    (hitem : ∀ l, item = .ok l → l.rule ∈ l.candidates) (events : Array Event) :
    ∃ events' outcome, readItem options events p item = .ok (events', outcome) ∧
      match outcome with
      | .ok next => next.HasRead g options (before ++ [item])
      | .error _ => p.Stops g options item := by
  cases item with
  | ok l => exact readLexeme_ok wellFormed nullable h (hitem l rfl) events
  | error d =>
    unfold readItem
    dsimp only
    cases hpolicy : options.badTokens with
    | fail => exact ⟨events, .error d, rfl, .bad d hpolicy⟩
    | skip =>
      refine ⟨_, _, rfl, h.reached, ?_, ?_, fun hfail => ?_⟩
      · rw [lexemesOf_concat_error]
        exact h.tokens
      · rw [badOf_concat_error, Array.toList_push, h.diagnostics]
      · rw [hpolicy] at hfail
        cases hfail

/-! ## The whole text -/

/-- The end of a text is accepted if the start rule derives the tokens. -/
theorem finish_ok (h : p.HasRead g options items) (stop : Span) :
    ∃ answer, finish p stop = .ok answer ∧
      match answer with
      | .ok result => g.Generates g.start p.rules ∧
          result = ⟨p.tokens.toList, p.recognizer.chart, p.diagnostics.toList⟩
      | .error _ => ¬ g.Generates g.start p.rules := by
  obtain ⟨net, agrees, hend⟩ := h.reached.agrees wellFormed nullable
  obtain ⟨accepted, haccepted, hiff⟩ := agrees.completesStartAt_ok (Nat.le_refl _)
  rw [hend, List.take_length] at hiff
  cases accepted with
  | true =>
    refine ⟨_, bind_eq_ok_iff.2 ⟨true, haccepted, rfl⟩, hiff.1 rfl, rfl⟩
  | false =>
    obtain ⟨expected, hexpected, -⟩ := expected_ok agrees.valid
    have hnames : p.recognizer.expectedNames = .ok ⟨expected.map p.recognizer.machine.lexName⟩ :=
      bind_eq_ok_iff.2 ⟨expected, hexpected, rfl⟩
    refine ⟨_, bind_eq_ok_iff.2 ⟨false, haccepted, bind_eq_ok_iff.2 ⟨_, hnames, rfl⟩⟩, ?_⟩
    exact fun hgenerates => Bool.false_ne_true (hiff.2 hgenerates)

end

/-- How a parse ends: it has read all items and the start rule derives the tokens, or some item stops
it, or the start rule does not derive the tokens of all items. -/
def Ends (g : Grammar) (options : ParseOptions) (items : List (Except Diagnostic Lexeme)) :
    Except Diagnostic Recognition → Prop
  | .ok result => ∃ p : Progress, p.HasRead g options items ∧ g.Generates g.start p.rules ∧
      result = ⟨p.tokens.toList, p.recognizer.chart, p.diagnostics.toList⟩
  | .error _ =>
    (∃ before item after, items = before ++ item :: after ∧
      ∃ p : Progress, p.HasRead g options before ∧ p.Stops g options item) ∨
    ∃ p : Progress, p.HasRead g options items ∧ ¬ g.Generates g.start p.rules

/-- What is read of a text is what maximal munch says, up to the item that ends the parse. -/
theorem readText_ok (wellFormed : g.WellFormed) (nullable : g.NullableExact) {lexer : Lexer}
    {rules : LexRules} (hruns : lexer.Runs rules) (hdrops : lexer.Drops rules)
    (limit : Nat) (t : Tokenizer) (hlimit : t.rest.length < limit)
    (hmunches : rules.Munches t.cursor t.rest items) (h : p.HasRead g options before)
    (events : Array Event) :
    ∃ events' answer, readText lexer options limit events p t = .ok (events', answer) ∧
      Ends g options (before ++ items) answer := by
  -- Every item shortens the text, so the limit is never met.
  induction limit generalizing t p before items events with
  | zero => exact absurd hlimit (Nat.not_lt_zero _)
  | succ limit ih =>
    obtain ⟨found, behind, hnext, hfinds⟩ := Tokenizer.next_ok hruns hdrops t
    have hcandidates := hmunches.candidates
    cases found with
    | none =>
      obtain rfl := (hfinds.2 items).1 hmunches
      rw [List.append_nil]
      obtain ⟨answer, hfinish, hanswer⟩ := finish_ok wellFormed nullable h behind.span
      refine ⟨events, answer, bind_eq_ok_iff.2 ⟨_, hnext, ?_⟩, ?_⟩
      · exact map_eq_ok_iff.2 ⟨answer, hfinish, rfl⟩
      · cases answer with
        | ok result => exact ⟨p, h, hanswer⟩
        | error d => exact .inr ⟨p, h, hanswer⟩
    | some item =>
      obtain ⟨hshorter, hiff⟩ := hfinds
      obtain ⟨more, rfl, hmore⟩ := (hiff items).1 hmunches
      have hitem : ∀ l, item = .ok l → l.rule ∈ l.candidates := by
        rintro l rfl
        exact (hcandidates l List.mem_cons_self).1
      obtain ⟨events', outcome, hread, houtcome⟩ :=
        readItem_ok wellFormed nullable h item hitem events
      cases outcome with
      | ok next =>
        obtain ⟨events'', answer, hrest, hends⟩ :=
          ih behind (by omega) hmore houtcome events'
        rw [← List.append_cons] at hends
        refine ⟨events'', answer, bind_eq_ok_iff.2 ⟨_, hnext, ?_⟩, hends⟩
        exact bind_eq_ok_iff.2 ⟨_, hread, hrest⟩
      | error d =>
        refine ⟨events', .error d, bind_eq_ok_iff.2 ⟨_, hnext, ?_⟩, .inl ?_⟩
        · exact bind_eq_ok_iff.2 ⟨_, hread, rfl⟩
        · exact ⟨before, item, more, rfl, p, h, houtcome⟩

/-- Without a choice the tokens are the lexemes, read as their only candidates. -/
theorem rules_of_single {lexemes tokens : List Lexeme} {rules : List Nat}
    (h : List.Forall₂ Lexeme.IsReadAs lexemes tokens)
    (hsingle : lexemes.map Lexeme.candidates = rules.map fun rule => [rule]) :
    tokens.map Lexeme.rule = rules := by
  induction h generalizing rules with
  | nil =>
    rw [List.map_nil, eq_comm, List.map_eq_nil_iff] at hsingle
    exact hsingle.symm
  | @cons l token _ _ hread _ ih =>
    cases rules with
    | nil => cases hsingle
    | cons rule rest =>
      obtain ⟨hfirst, hrest⟩ := List.cons.inj hsingle
      obtain ⟨chosen, hchosen, rfl⟩ := hread
      rw [hfirst] at hchosen
      rw [List.map_cons, ih hrest, List.mem_singleton.1 hchosen]

/-- A parse ends well where the lexemes leave no choice, the start rule derives them, and bad
characters are passed over or there are none. -/
theorem Ends.exists_ok {answer : Except Diagnostic Recognition} (h : Ends g options items answer)
    (hpolicy : options.badTokens = .skip ∨ badOf items = []) {rules : List Nat}
    (hsingle : (lexemesOf items).map Lexeme.candidates = rules.map fun rule => [rule])
    (hgenerates : g.Generates g.start rules) : ∃ result, answer = .ok result := by
  cases answer with
  | ok result => exact ⟨result, rfl⟩
  | error d =>
    exfalso
    rcases h with ⟨before, item, after, rfl, p, hread, hstops⟩ | ⟨p, hread, hnot⟩
    · cases hstops with
      | bad d hfail =>
        rcases hpolicy with hskip | hnone
        · rw [hfail] at hskip
          cases hskip
        · simp [badOf] at hnone
      | @rejected l rule hrule hnot =>
        have hsplit : lexemesOf (before ++ .ok l :: after) =
            lexemesOf before ++ l :: lexemesOf after := by
          simp [lexemesOf]
        rw [hsplit, List.map_append, List.map_cons] at hsingle
        obtain ⟨first, rest, rfl, hfirst, hrest⟩ := List.append_eq_map_iff.1 hsingle
        obtain ⟨only, others, rfl, honly, -⟩ := List.map_eq_cons_iff.1 hrest
        rw [← honly, List.mem_singleton] at hrule
        -- The tokens so far and the only candidate begin what the start rule derives.
        have hbefore : p.rules = first := rules_of_single hread.tokens hfirst.symm
        refine hnot ⟨others.map .lex, ?_⟩
        unfold Grammar.Generates at hgenerates
        rwa [List.map_append, List.map_cons, ← hbefore, ← hrule] at hgenerates
    · have hrules : p.rules = rules := rules_of_single hread.tokens hsingle
      exact hnot (hrules ▸ hgenerates)

/-- What a successful parse says about the items of its text. -/
structure Explains (g : Grammar) (options : ParseOptions)
    (items : List (Except Diagnostic Lexeme)) (result : Recognition) : Prop where
  tokens : List.Forall₂ Lexeme.IsReadAs (lexemesOf items) result.tokens
  matched : ∀ token ∈ result.tokens, token.rule ∈ token.candidates ∧
    ∃ rule, g.lexRules[token.rule]? = some rule ∧ rule.ignored = false ∧
      token.spelling ∈ Expr.language CharClass.words rule.pattern
  derived : g.Generates g.start (result.tokens.map Lexeme.rule)
  sets : result.chart.size = result.tokens.length + 1
  diagnostics : result.diagnostics = badOf items
  clean : options.badTokens = .fail → result.diagnostics = []

/-- A candidate is a lex rule that is not ignored and matches the spelling. -/
theorem exists_rule_of_candidate {w : List Char} {candidates : List Nat}
    (h : LexRules.IsCandidates (lexRulesOf g) w candidates) {rule : Nat} (hrule : rule ∈ candidates) :
    ∃ r, g.lexRules[rule]? = some r ∧ r.ignored = false ∧
      w ∈ Expr.language CharClass.words r.pattern := by
  obtain ⟨⟨-, pattern, ignored, hsome, hw⟩, hkept⟩ := (h.2 rule).1 hrule
  have hsome' := hsome
  unfold lexRulesOf at hsome'
  rw [List.getElem?_map, Option.map_eq_some_iff] at hsome'
  obtain ⟨r, hr, heq⟩ := hsome'
  cases heq
  refine ⟨r, hr, Bool.eq_false_iff.2 fun hignored => ?_, hw⟩
  rw [hignored] at hsome
  exact hkept _ hsome

theorem Progress.HasRead.explains (wellFormed : g.WellFormed) (nullable : g.NullableExact)
    {cursor : Cursor} {text : List Char}
    (hmunches : LexRules.Munches (lexRulesOf g) cursor text items)
    (h : p.HasRead g options items) (hgenerates : g.Generates g.start p.rules) :
    Explains g options items ⟨p.tokens.toList, p.recognizer.chart, p.diagnostics.toList⟩ := by
  obtain ⟨net, agrees, hend⟩ := h.reached.agrees wellFormed nullable
  refine
    { tokens := h.tokens
      matched := fun token htoken => ?_
      derived := hgenerates
      sets := ?_
      diagnostics := h.diagnostics
      clean := fun hfail => h.diagnostics.trans (h.clean hfail) }
  · obtain ⟨l, hl, rule, hrule, rfl⟩ := forall₂_mem_right h.tokens htoken
    exact ⟨hrule, exists_rule_of_candidate (hmunches.candidates l hl).2 hrule⟩
  · rw [← agrees.valid.location_succ, hend]
    simp [Progress.rules]

/-- The parser of a grammar answers for every text. -/
theorem parse_ok (wellFormed : g.WellFormed) (nullable : g.NullableExact) {parser : Parser}
    (hparser : ofGrammar g options = .ok parser) {text : List Char}
    (hmunches : LexRules.Munches (lexRulesOf g) .start text items) :
    ∃ answer, parser.parse text = .ok answer ∧ Ends g options items answer := by
  obtain ⟨lexer, hlexer, hparser⟩ := bind_eq_ok_iff.1 hparser
  obtain ⟨machine, hmachine, hparser⟩ := bind_eq_ok_iff.1 hparser
  cases hparser
  obtain ⟨net, -, simulates⟩ := Machine.simulates_of_ofGrammar wellFormed nullable hmachine
  obtain ⟨start, hstart, -⟩ := ofMachine_ok simulates.closed_states
  have hread : Progress.HasRead g options [] { recognizer := start } :=
    ⟨⟨machine, start, hmachine, hstart, .nil start⟩, .nil, rfl, fun _ => rfl⟩
  obtain ⟨events, answer, htext, hends⟩ := readText_ok wellFormed nullable
    (Lexer.runs_of_ofRules hlexer) (Lexer.drops_of_ofRules hlexer) (text.length + 1)
    (.ofText text) (Nat.lt_succ_self _) hmunches hread #[]
  refine ⟨answer, map_eq_ok_iff.2 ⟨(answer, events.toList), ?_, rfl⟩, hends⟩
  exact bind_eq_ok_iff.2 ⟨start, hstart, bind_eq_ok_iff.2 ⟨_, htext, rfl⟩⟩

/-- There is a parser for every grammar whose automata fit in memory. -/
theorem ofGrammar_ok (wellFormed : g.WellFormed) (nullable : g.NullableExact)
    (options : ParseOptions) (hlexer : (Lexer.nfaOf (lexRulesOf g)).size < sizeLimit)
    (hsize : g.stateCount < sizeLimit) : ∃ parser, ofGrammar g options = .ok parser := by
  obtain ⟨lexer, hlexer, -⟩ := Lexer.ofRules_ok hlexer
  obtain ⟨machine, hmachine⟩ := Machine.ofGrammar_ok wellFormed nullable hsize
  exact ⟨_, bind_eq_ok_iff.2 ⟨lexer, hlexer, bind_eq_ok_iff.2 ⟨machine, hmachine, rfl⟩⟩⟩

/-- There is a parser for every grammar that was built, if it fits in memory.  It answers for every
text.  A successful answer explains the items that maximal munch cuts the text into; and the answer
is successful where the lexemes among them have one candidate each, the start rule derives these, and
bad characters are passed over or there are none. -/
theorem parse_exact {d : Declarations} (declared : Declarations.Declared d)
    (built : d.build = .ok (.ok g)) (options : ParseOptions) :
    ((Lexer.nfaOf (lexRulesOf g)).size < sizeLimit → g.stateCount < sizeLimit →
      ∃ parser, ofGrammar g options = .ok parser) ∧
    ∀ parser, ofGrammar g options = .ok parser → ∀ text, ∃ items answer,
      (∀ found, LexRules.Munches (lexRulesOf g) .start text found ↔ found = items) ∧
      parser.parse text = .ok answer ∧
      (∀ result, answer = .ok result → Explains g options items result) ∧
      ∀ rules, (lexemesOf items).map Lexeme.candidates = (rules.map fun rule => [rule]) →
        (options.badTokens = .skip ∨ badOf items = []) → g.Generates g.start rules →
          ∃ result, answer = .ok result := by
  have wellFormed := Declarations.wellFormed_of_build declared built
  have nullable := nullableExact_of_build declared built
  refine ⟨ofGrammar_ok wellFormed nullable options, fun parser hparser text => ?_⟩
  obtain ⟨lexer, hlexer, -⟩ := bind_eq_ok_iff.1 hparser
  obtain ⟨found, -, -, -, hmunches⟩ :=
    Tokenizer.itemsWithin_ok (Lexer.runs_of_ofRules hlexer) (Lexer.drops_of_ofRules hlexer) _
      (.ofText text) (Nat.lt_succ_self _)
  have hitems := (hmunches _).2 rfl
  obtain ⟨answer, hanswer, hends⟩ := parse_ok wellFormed nullable hparser hitems
  refine ⟨_, answer, hmunches, hanswer, ?_, fun rules hsingle hpolicy hgenerates => ?_⟩
  · rintro result rfl
    obtain ⟨p, hread, hgenerates, rfl⟩ := hends
    exact hread.explains wellFormed nullable hitems hgenerates
  · exact hends.exists_ok hpolicy hsingle hgenerates

/-- The lex rules of balanced parentheses are one for each parenthesis. -/
theorem lexRulesOf_balanced {g : Grammar} (built : Declarations.balanced.build = .ok (.ok g)) :
    lexRulesOf g = LexRules.ofChars [('(', false), (')', false)] := by
  have hbuilt : ∃ g', Declarations.balanced.build = .ok (.ok g') ∧
      lexRulesOf g' = LexRules.ofChars [('(', false), (')', false)] := ⟨_, rfl, rfl⟩
  obtain ⟨g', hg', hrules⟩ := hbuilt
  rw [built] at hg'
  cases hg'
  exact hrules

/-- A pair of parentheses is parsed into two tokens. -/
theorem parse_exact_balanced : ∃ g parser result, Declarations.balanced.build = .ok (.ok g) ∧
    ofGrammar g {} = .ok parser ∧ parser.parse ['(', ')'] = .ok (.ok result) ∧
    result.tokens.length = 2 ∧ result.chart.size = 3 ∧ result.diagnostics = [] := by
  obtain ⟨g, built, -, -, hsize, -, hpair⟩ := generates_balanced
  have hrules := lexRulesOf_balanced built
  obtain ⟨hexists, hall⟩ := parse_exact Declarations.declared_balanced built {}
  obtain ⟨parser, hparser⟩ := hexists (by rw [hrules]; decide) hsize
  obtain ⟨items, answer, hmunches, hanswer, hexplains, hcomplete⟩ :=
    hall parser hparser ['(', ')']
  have hopen := LexRules.isCandidates_ofChars [('(', false), (')', false)] '('
  have hclose := LexRules.isCandidates_ofChars [('(', false), (')', false)] ')'
  have hitems : [.ok ⟨0, [0], ['('], ⟨⟨1, 0⟩, ⟨1, 1⟩⟩⟩, .ok ⟨1, [1], [')'], ⟨⟨1, 1⟩, ⟨1, 2⟩⟩⟩] =
      items := by
    rw [← hmunches, hrules]
    exact .lexeme (w := ['(']) (LexRules.isLongest_ofChars ⟨false, by decide⟩ _) hopen
      (.lexeme (w := [')']) (LexRules.isLongest_ofChars ⟨false, by decide⟩ _) hclose (.done _))
  subst hitems
  obtain ⟨result, rfl⟩ := hcomplete [0, 1] rfl (.inr rfl) hpair
  have hresult := hexplains result rfl
  have hlength : result.tokens.length = 2 := hresult.tokens.length_eq.symm
  have hsets := hresult.sets
  rw [hlength] at hsets
  exact ⟨g, parser, result, built, hparser, hanswer, hlength, hsets, hresult.diagnostics⟩

end Parser

end LexChart
