import LexChart.Proofs.Parsing
set_option autoImplicit false

/-!
# Parses under other options

The options decide what becomes of an ambiguous lexeme and of a bad character, and of nothing else.
A lexeme that was read as its candidate of highest priority is read in the same way where expected
candidates are preferred, because that candidate was one that could come next.  So two parses of a
text under different options go through the same steps for as long as neither of them stops, and
`readText_extends` says when one of them goes on wherever the other does.
-/

namespace LexChart

namespace Recognizer

/-- A token that is read is one that could come next. -/
theorem canAdvance_of_advance {r s : Recognizer} {token : Nat}
    (h : r.advance r.location token = .ok (.ok s)) : r.canAdvance token = .ok true := by
  unfold advance at h
  rw [if_neg fun hne => hne rfl] at h
  obtain ⟨set, hset, h⟩ := bind_eq_ok_iff.1 h
  obtain ⟨items, hitems, h⟩ := bind_eq_ok_iff.1 h
  have hsome : items.isEmpty = false := by
    rw [← Bool.not_eq_true]
    intro hempty
    rw [if_pos hempty] at h
    obtain ⟨expected, -, h⟩ := bind_eq_ok_iff.1 h
    cases h
  unfold canAdvance
  refine bind_eq_ok_iff.2 ⟨set, hset, bind_eq_ok_iff.2 ⟨items, hitems, ?_⟩⟩
  rw [hsome]
  rfl

end Recognizer

/-- A lexeme is cut from the text as its candidate of highest priority. -/
theorem Tokenizer.head?_of_next {lexer : Lexer} {t behind : Tokenizer} {l : Lexeme}
    (h : t.next lexer = .ok (some (.ok l), behind)) : l.candidates.head? = some l.rule := by
  fun_induction t.next lexer with
  | case1 => cases h
  | case2 => cases h
  | case3 => cases h
  | case4 t s first others ahead hread spelling rules hmatch length last hnone ih => exact ih h
  | case5 t s first others ahead hread spelling rules hmatch length last hsome =>
    simp only [Except.ok.injEq, Prod.mk.injEq, Option.some.injEq] at h
    obtain ⟨rfl, -⟩ := h
    cases hkept : rules.filter fun rule => !lexer.isIgnored rule with
    | nil => exact absurd hkept hsome
    | cons rule rest => rfl

namespace Parser

variable {options more : ParseOptions} {p next : Progress} {events events' : Array Event}

/-! ## One item -/

/-- A lexeme that is read under some options is read in the same way where expected candidates are
preferred. -/
theorem readAs_extends (hprefers : options.preferExpected = true → more.preferExpected = true)
    {r s : Recognizer} {l token : Lexeme} (hfirst : l.candidates.head? = some l.rule)
    (htoken : readAs options r l = .ok token)
    (hread : r.advance r.location token.rule = .ok (.ok s)) : readAs more r l = .ok token := by
  cases hoptions : options.preferExpected with
  | true =>
    unfold readAs at htoken ⊢
    rw [hprefers hoptions]
    rwa [hoptions] at htoken
  | false =>
    have hself : token = l := by
      unfold readAs at htoken
      rw [hoptions, Bool.false_and, if_neg Bool.false_ne_true] at htoken
      exact (Except.ok.inj htoken).symm
    subst hself
    unfold readAs
    split
    · -- The first candidate can come next, so it is the first one that can.
      obtain ⟨rest, hcandidates⟩ := List.head?_eq_some_iff.1 hfirst
      have hexpected : firstExpected r token.candidates = .ok (some token.rule) := by
        rw [hcandidates]
        unfold firstExpected
        rw [Recognizer.canAdvance_of_advance hread]
        rfl
      have hchoose : token.choose? token.rule = some token := by
        apply if_pos
        rw [hcandidates]
        exact List.mem_cons_self
      rw [hexpected]
      show Except.ok ((token.choose? token.rule).getD token) = _
      rw [hchoose]
      rfl
    · rfl

theorem readLexeme_extends (hprefers : options.preferExpected = true → more.preferExpected = true)
    {l : Lexeme} (hfirst : l.candidates.head? = some l.rule)
    (h : readLexeme options events p l = .ok (events', .ok next)) :
    readLexeme more events p l = .ok (events', .ok next) := by
  obtain ⟨r, tokens, diagnostics⟩ := p
  obtain ⟨token, htoken, h⟩ := bind_eq_ok_iff.1 h
  obtain ⟨outcome, houtcome, h⟩ := bind_eq_ok_iff.1 h
  cases outcome with
  | error d => cases h
  | ok s =>
    have htoken' := readAs_extends hprefers hfirst htoken houtcome
    exact bind_eq_ok_iff.2 ⟨token, htoken', bind_eq_ok_iff.2 ⟨.ok s, houtcome, h⟩⟩

/-- A bad character that is passed over is kept behind the diagnostics so far, and a lexeme adds
none. -/
theorem diagnostics_of_readItem {item : Except Diagnostic Lexeme}
    (h : readItem options events p item = .ok (events', .ok next)) :
    match item with
    | .ok _ => next.diagnostics.toList = p.diagnostics.toList
    | .error d => options.badTokens = .skip ∧
        next.diagnostics.toList = p.diagnostics.toList ++ [d] := by
  cases item with
  | ok l =>
    obtain ⟨r, tokens, diagnostics⟩ := p
    obtain ⟨token, -, h⟩ := bind_eq_ok_iff.1 h
    obtain ⟨outcome, -, h⟩ := bind_eq_ok_iff.1 h
    cases outcome with
    | error d => cases h
    | ok s =>
      cases h
      rfl
  | error d =>
    unfold readItem at h
    cases hpolicy : options.badTokens with
    | fail => simp [hpolicy] at h
    | skip =>
      simp only [hpolicy] at h
      cases h
      exact ⟨rfl, Array.toList_push⟩

/-- An item that is read under some options is read in the same way under others that prefer
expected candidates if those do, and that pass over the item if it is a bad character. -/
theorem readItem_extends (hprefers : options.preferExpected = true → more.preferExpected = true)
    {item : Except Diagnostic Lexeme}
    (hfirst : ∀ l, item = .ok l → l.candidates.head? = some l.rule)
    (hskips : ∀ d, item = .error d → more.badTokens = options.badTokens)
    (h : readItem options events p item = .ok (events', .ok next)) :
    readItem more events p item = .ok (events', .ok next) := by
  cases item with
  | ok l => exact readLexeme_extends hprefers (hfirst l rfl) h
  | error d =>
    unfold readItem at h ⊢
    rwa [hskips d rfl]

/-! ## The whole text -/

theorem diagnostics_of_finish {stop : Span} {result : Recognition}
    (h : finish p stop = .ok (.ok result)) : result.diagnostics = p.diagnostics.toList := by
  obtain ⟨accepted, -, h⟩ := bind_eq_ok_iff.1 h
  cases accepted with
  | true =>
    cases h
    rfl
  | false =>
    obtain ⟨expected, -, h⟩ := bind_eq_ok_iff.1 h
    cases h

/-- The diagnostics of the answer are those of the bad characters that were passed over, of which
there are none where a bad character ends the parse. -/
theorem diagnostics_of_readText {lexer : Lexer} {limit : Nat} {t : Tokenizer} {result : Recognition}
    (h : readText lexer options limit events p t = .ok (events', .ok result)) :
    ∃ passed, result.diagnostics = p.diagnostics.toList ++ passed ∧
      (options.badTokens = .fail → passed = []) := by
  induction limit generalizing events p t with
  | zero =>
    obtain ⟨answer, hfinish, heq⟩ := map_eq_ok_iff.1 h
    cases heq
    exact ⟨[], by rw [diagnostics_of_finish hfinish, List.append_nil], fun _ => rfl⟩
  | succ limit ih =>
    obtain ⟨⟨found, behind⟩, -, h⟩ := bind_eq_ok_iff.1 h
    cases found with
    | none =>
      obtain ⟨answer, hfinish, heq⟩ := map_eq_ok_iff.1 h
      cases heq
      exact ⟨[], by rw [diagnostics_of_finish hfinish, List.append_nil], fun _ => rfl⟩
    | some item =>
      obtain ⟨⟨events₁, outcome⟩, hitem, h⟩ := bind_eq_ok_iff.1 h
      cases outcome with
      | error d => cases h
      | ok next =>
        obtain ⟨passed, heq, hclean⟩ := ih h
        have hstep := diagnostics_of_readItem hitem
        cases item with
        | ok l =>
          dsimp only at hstep
          exact ⟨passed, by rw [heq, hstep], hclean⟩
        | error d =>
          obtain ⟨hskip, hstep⟩ := hstep
          refine ⟨d :: passed, by rw [heq, hstep, List.append_assoc, List.singleton_append], ?_⟩
          intro hfail
          rw [hfail] at hskip
          cases hskip

/-- A text that is parsed under some options is parsed in the same way under others that prefer
expected candidates if those do, unless a bad character is passed over that the others do not pass
over. -/
theorem readText_extends (hprefers : options.preferExpected = true → more.preferExpected = true)
    {lexer : Lexer} {limit : Nat} {t : Tokenizer} {result : Recognition}
    (hskips : more.badTokens = options.badTokens ∨ result.diagnostics = [])
    (h : readText lexer options limit events p t = .ok (events', .ok result)) :
    readText lexer more limit events p t = .ok (events', .ok result) := by
  induction limit generalizing events p t with
  | zero => exact h
  | succ limit ih =>
    obtain ⟨⟨found, behind⟩, hnext, h⟩ := bind_eq_ok_iff.1 h
    refine bind_eq_ok_iff.2 ⟨_, hnext, ?_⟩
    cases found with
    | none => exact h
    | some item =>
      obtain ⟨⟨events₁, outcome⟩, hitem, h⟩ := bind_eq_ok_iff.1 h
      cases outcome with
      | error d => cases h
      | ok next =>
        have hrest : readText lexer options limit events₁ next behind =
            .ok (events', .ok result) := h
        have hpolicy : ∀ d, item = .error d → more.badTokens = options.badTokens := by
          rintro d rfl
          rcases hskips with heq | hclean
          · exact heq
          · -- A bad character that was passed over would be among the diagnostics.
            obtain ⟨-, hstep⟩ := diagnostics_of_readItem hitem
            obtain ⟨passed, hpassed, -⟩ := diagnostics_of_readText hrest
            rw [hclean, hstep] at hpassed
            simp at hpassed
        have hfirst : ∀ l, item = .ok l → l.candidates.head? = some l.rule := by
          rintro l rfl
          exact Tokenizer.head?_of_next hnext
        refine bind_eq_ok_iff.2 ⟨_, readItem_extends hprefers hfirst hpolicy hitem, ?_⟩
        exact ih hrest

/-! ## Parsers of one grammar -/

/-- The parser of a grammar under some options parses a text. -/
def Parses (g : Grammar) (options : ParseOptions) (text : List Char) (result : Recognition) :
    Prop :=
  ∃ parser, ofGrammar g options = .ok parser ∧ parser.parse text = .ok (.ok result)

/-- The parsers of a grammar under different options read a text with the same automata. -/
theorem parses_iff {g : Grammar} {text : List Char} {result : Recognition} :
    Parses g options text result ↔ ∃ lexer machine start events,
      Lexer.ofRules (lexRulesOf g) = .ok lexer ∧ Machine.ofGrammar g = .ok machine ∧
      Recognizer.ofMachine machine = .ok start ∧
      readText lexer options (text.length + 1) #[] { recognizer := start } (.ofText text) =
        .ok (events, .ok result) := by
  constructor
  · rintro ⟨parser, hparser, hparse⟩
    obtain ⟨lexer, hlexer, hparser⟩ := bind_eq_ok_iff.1 hparser
    obtain ⟨machine, hmachine, hparser⟩ := bind_eq_ok_iff.1 hparser
    cases hparser
    obtain ⟨⟨answer, trace⟩, hparse, heq⟩ := map_eq_ok_iff.1 hparse
    obtain ⟨start, hstart, hparse⟩ := bind_eq_ok_iff.1 hparse
    obtain ⟨⟨events, answer'⟩, hread, hparse⟩ := bind_eq_ok_iff.1 hparse
    cases hparse
    cases heq
    exact ⟨lexer, machine, start, events, hlexer, hmachine, hstart, hread⟩
  · rintro ⟨lexer, machine, start, events, hlexer, hmachine, hstart, hread⟩
    refine ⟨⟨g, lexer, machine, options⟩,
      bind_eq_ok_iff.2 ⟨lexer, hlexer, bind_eq_ok_iff.2 ⟨machine, hmachine, rfl⟩⟩, ?_⟩
    refine map_eq_ok_iff.2 ⟨(.ok result, events.toList), ?_, rfl⟩
    exact bind_eq_ok_iff.2 ⟨start, hstart, bind_eq_ok_iff.2 ⟨_, hread, rfl⟩⟩

variable {g : Grammar} {text : List Char} {result : Recognition}

theorem Parses.extends (h : Parses g options text result)
    (hprefers : options.preferExpected = true → more.preferExpected = true)
    (hskips : more.badTokens = options.badTokens ∨ result.diagnostics = []) :
    Parses g more text result := by
  obtain ⟨lexer, machine, start, events, hlexer, hmachine, hstart, hread⟩ := parses_iff.1 h
  have hread' := readText_extends hprefers hskips hread
  exact parses_iff.2 ⟨lexer, machine, start, events, hlexer, hmachine, hstart, hread'⟩

theorem Parses.clean (h : Parses g options text result) (hfail : options.badTokens = .fail) :
    result.diagnostics = [] := by
  obtain ⟨lexer, machine, start, events, -, -, -, hread⟩ := parses_iff.1 h
  obtain ⟨passed, heq, hclean⟩ := diagnostics_of_readText hread
  rw [heq, hclean hfail]
  rfl

/-- A text that is parsed without a preference for expected candidates is parsed with it, with the
same result.  A text is parsed where bad characters are not allowed exactly if it is parsed where
they are passed over and there are none, with the same result. -/
theorem options_extend (g : Grammar) (text : List Char) (result : Recognition) :
    (∀ policy, Parses g { badTokens := policy, preferExpected := false } text result →
      Parses g { badTokens := policy, preferExpected := true } text result) ∧
    ∀ prefer, Parses g { badTokens := .fail, preferExpected := prefer } text result ↔
      Parses g { badTokens := .skip, preferExpected := prefer } text result ∧
        result.diagnostics = [] := by
  refine ⟨fun policy h => h.extends (fun _ => rfl) (.inl rfl), fun prefer => ⟨fun h => ?_, ?_⟩⟩
  · have hclean := h.clean rfl
    exact ⟨h.extends id (.inr hclean), hclean⟩
  · rintro ⟨h, hclean⟩
    exact h.extends id (.inr hclean)

/-- A letter that two lex rules match, either of which is a whole text. -/
def doubled : Declarations where
  lexRules := [⟨0, "first", .ofSpelling ['a'], some "a", false⟩,
    ⟨1, "second", .ofSpelling ['a'], some "a", false⟩]
  rules := [("s", [.terminal (.lex "first"), .terminal (.lex "second")])]
  start := some "s"

theorem declared_doubled : Declarations.Declared doubled := by
  have hfirst : Declarations.empty.addLexSpelling "first" "a" =
      .ok { lexRules := [⟨0, "first", .ofSpelling ['a'], some "a", false⟩] } := rfl
  have hsecond : Declarations.addLexSpelling
      { lexRules := [⟨0, "first", .ofSpelling ['a'], some "a", false⟩] } "second" "a" =
      .ok { lexRules := doubled.lexRules } := rfl
  have hbody : Declarations.addRule { lexRules := doubled.lexRules } "s"
      (.terminal (.lex "first")) =
      .ok { lexRules := doubled.lexRules, rules := [("s", [.terminal (.lex "first")])] } := rfl
  have hother : Declarations.addRule
      { lexRules := doubled.lexRules, rules := [("s", [.terminal (.lex "first")])] } "s"
      (.terminal (.lex "second")) =
      .ok { lexRules := doubled.lexRules, rules := doubled.rules } := rfl
  exact (((Declarations.Declared.empty.lexSpelling hfirst).lexSpelling hsecond).rule hbody
    |>.rule hother).start "s"

/-- Both readings of the letter are derived, so it is parsed without any preference. -/
theorem exists_parses_doubled : ∃ g result, doubled.build = .ok (.ok g) ∧
    Parses g { badTokens := .fail, preferExpected := false } ['a'] result ∧
      result.tokens.map Lexeme.candidates = [[0, 1]] := by
  have hgrammar : ∃ g, doubled.build = .ok (.ok g) ∧ g.start = 0 ∧ g.stateCount < sizeLimit ∧
      lexRulesOf g = LexRules.ofChars [('a', false), ('a', false)] ∧
      ∀ p ∈ ([⟨0, [.lex 0]⟩, ⟨0, [.lex 1]⟩] : List Production), p ∈ g.productions :=
    ⟨_, rfl, rfl, by decide, rfl, by decide⟩
  obtain ⟨g, built, hstart, hsize, hrules, hproductions⟩ := hgrammar
  have wellFormed := Declarations.wellFormed_of_build declared_doubled built
  have nullable := nullableExact_of_build declared_doubled built
  have hgenerates : ∀ rule ∈ [0, 1], g.Generates g.start [rule] := by
    intro rule hrule
    have hp : (⟨0, [.lex rule]⟩ : Production) ∈ g.productions := by
      apply hproductions
      simpa using hrule
    rw [hstart]
    exact .step (.produce ⟨0, [.lex rule]⟩ [] [] hp) (.refl _)
  have hmunches : LexRules.Munches (lexRulesOf g) .start ['a']
      [.ok ⟨0, [0, 1], ['a'], ⟨⟨1, 0⟩, ⟨1, 1⟩⟩⟩] := by
    rw [hrules]
    exact .lexeme (w := ['a']) (LexRules.isLongest_ofChars ⟨false, by decide⟩ _)
      (LexRules.isCandidates_ofChars [('a', false), ('a', false)] 'a') (.done _)
  obtain ⟨parser, hparser⟩ := ofGrammar_ok wellFormed nullable
    { badTokens := .fail, preferExpected := false } (by rw [hrules]; decide) hsize
  obtain ⟨answer, hanswer, hends⟩ := parse_ok wellFormed nullable hparser hmunches
  cases answer with
  | ok result =>
    obtain ⟨p, hread, -, rfl⟩ := hends
    obtain ⟨token, rest, ⟨rule, -, rfl⟩, hrest, heq⟩ := List.forall₂_cons_left_iff.1 hread.tokens
    cases hrest
    refine ⟨g, _, built, ⟨parser, hparser, hanswer⟩, ?_⟩
    show p.tokens.toList.map Lexeme.candidates = _
    rw [heq]
    rfl
  | error d =>
    exfalso
    rcases hends with ⟨before, item, after, hsplit, p, hread, hstops⟩ | ⟨p, hread, hnot⟩
    · obtain ⟨rfl, heq⟩ | ⟨rest, -, hrest⟩ := List.cons_eq_append_iff.1 hsplit
      · cases heq
        have hnone : p.tokens.toList = [] := List.forall₂_nil_left_iff.1 hread.tokens
        cases hstops with
        | rejected hrule hnot =>
          apply hnot
          unfold Progress.rules
          rw [hnone]
          exact ⟨[], hgenerates _ hrule⟩
      · simp at hrest
    · obtain ⟨token, rest, ⟨rule, hrule, rfl⟩, hrest, heq⟩ :=
        List.forall₂_cons_left_iff.1 hread.tokens
      cases hrest
      apply hnot
      unfold Progress.rules
      rw [heq]
      exact hgenerates rule hrule

/-- An ambiguous lexeme is parsed under all options in the same way. -/
theorem options_extend_doubled : ∃ g result, doubled.build = .ok (.ok g) ∧
    result.tokens.map Lexeme.candidates = [[0, 1]] ∧ ∀ policy prefer,
      Parses g { badTokens := policy, preferExpected := prefer } ['a'] result := by
  obtain ⟨g, result, built, hparses, hcandidates⟩ := exists_parses_doubled
  obtain ⟨hprefers, hpolicy⟩ := options_extend g ['a'] result
  refine ⟨g, result, built, hcandidates, fun policy prefer => ?_⟩
  have hskips := ((hpolicy false).1 hparses).1
  cases policy <;> cases prefer
  · exact hparses
  · exact hprefers .fail hparses
  · exact hskips
  · exact hprefers .skip hskips

end Parser

end LexChart
