import LexChart.Parser
import LexChart.Proofs.Grammar.Built
import LexChart.Proofs.Lexer.Tokens
set_option autoImplicit false

/-!
# Literals as tokens

A literal in a body can be read from a text if the lex rule that it resolves to is not ignored: the
text of the literal is then cut off as one lexeme, with the lex rule among its candidates.

A lex rule that is made for a literal is never ignored.  A literal of a text that a lex rule is
declared by shares that lex rule, and is not told from it any more: if the name of the lex rule is
ignored, so is the literal.
-/

namespace LexChart

/-! ## Texts that a rule matches as a whole -/

namespace LexRules

variable {rules : LexRules} {w : List Char} {rule : Nat}

theorem exists_isCandidates (rules : LexRules) (w : List Char) :
    ∃ candidates, rules.IsCandidates w candidates := by
  classical
  refine ⟨(List.range rules.length).filter fun rule =>
    rules.Matches rule w ∧ ∀ pattern, rules[rule]? ≠ some (pattern, true),
    List.pairwise_lt_range.filter _, fun rule => ?_⟩
  rw [List.mem_filter, List.mem_range, decide_eq_true_eq, and_iff_right_iff_imp]
  rintro ⟨⟨-, pattern, ignored, hrule, -⟩, -⟩
  exact (List.getElem?_eq_some_iff.1 hrule).1

/-- Nothing longer than the text can be matched in it. -/
theorem isLongest_of_matches (h : rules.Matches rule w) : rules.IsLongest w w :=
  ⟨List.prefix_rfl, ⟨rule, h⟩, fun _ _ hv _ => hv.length_le⟩

/-- A text that a rule matches as a whole is one lexeme, unless the rule is dropped. -/
theorem exists_munches_of_matches (h : rules.Matches rule w)
    (hkept : ∀ pattern, rules[rule]? ≠ some (pattern, true)) :
    ∃ l : Lexeme, l.spelling = w ∧ rule ∈ l.candidates ∧ rules.Munches .start w [.ok l] := by
  obtain ⟨candidates, hcandidates⟩ := exists_isCandidates rules w
  have hmem : rule ∈ candidates := (hcandidates.2 rule).2 ⟨h, hkept⟩
  have hlongest : rules.IsLongest (w ++ []) w := by
    rw [List.append_nil]
    exact isLongest_of_matches h
  cases candidates with
  | nil => cases hmem
  | cons first others =>
    have hmunches := Munches.lexeme hlongest hcandidates (.done (Cursor.start.advanceAll w))
    rw [List.append_nil] at hmunches
    exact ⟨_, rfl, hmem, hmunches⟩

end LexRules

/-- The text is cut into one lexeme, which is all of the text and may be read as the lex rule. -/
def Lexer.ReadsWhole (lexer : Lexer) (text : List Char) (rule : Nat) : Prop :=
  ∃ found last l, (Tokenizer.ofText text).items lexer = .ok (found, last) ∧
    last.next lexer = .ok (none, last) ∧ found.map Prod.fst = [.ok l] ∧
    l.spelling = text ∧ rule ∈ l.candidates

/-- By maximal munch there is only that lexeme. -/
theorem Lexer.readsWhole_iff {rules : LexRules} {lexer : Lexer} (h : ofRules rules = .ok lexer)
    {text : List Char} {rule : Nat} : lexer.ReadsWhole text rule ↔
      ∃ l : Lexeme, l.spelling = text ∧ rule ∈ l.candidates ∧
        rules.Munches .start text [.ok l] := by
  obtain ⟨found, last, hitems, hlast, hmunches⟩ := Tokenizer.itemsWithin_ok (runs_of_ofRules h)
    (drops_of_ofRules h) _ (Tokenizer.ofText text) (Nat.lt_succ_self _)
  constructor
  · rintro ⟨found', last', l, hitems', -, hfound, hspelling, hmem⟩
    obtain ⟨rfl, -⟩ := Prod.mk.inj (Except.ok.inj (hitems'.symm.trans hitems))
    exact ⟨l, hspelling, hmem, (hmunches _).2 hfound.symm⟩
  · rintro ⟨l, hspelling, hmem, hl⟩
    exact ⟨found, last, l, hitems, Tokenizer.next_of_rest_nil hlast, ((hmunches _).1 hl).symm,
      hspelling, hmem⟩

namespace Declarations

variable {d : Declarations} {g : Grammar}

/-! ## The lex rule of a literal -/

/-- The lex rule that a literal resolves to: the first one of its text, which matches this text and
nothing else.  It is ignored if it is a declared one whose name is ignored. -/
structure StandsFor (d : Declarations) (g : Grammar) (spelling : String) (id : Nat) (r : LexRule) :
    Prop where
  getElem?_eq : g.lexRules[id]? = some r
  spelling_eq : r.spelling = some spelling
  first : ∀ k < id, ∀ other, g.lexRules[k]? = some other → other.spelling ≠ some spelling
  language_eq : Expr.language CharClass.words r.pattern = {spelling.toList}
  ignored_iff : r.ignored = true ↔ ∃ declared,
    d.lexRules.find? (fun r => r.spelling = some spelling) = some declared ∧
      declared.name ∈ d.ignored

/-- The first lex rule of a text is the first declared one if there is one, and one that is made for
a literal otherwise. -/
theorem Parts.ignored_iff (declared : Declared d) {more : List LexRule}
    {first generated : List Rule} (parts : Parts d g more first generated) {spelling : String}
    {r : LexRule} (h : g.lexRules.find? (fun r => r.spelling = some spelling) = some r) :
    r.ignored = true ↔ ∃ declared,
      d.lexRules.find? (fun r => r.spelling = some spelling) = some declared ∧
        declared.name ∈ d.ignored := by
  have hsame : (fun r => decide (r.spelling = some spelling)) ∘ ignoring d.ignored =
      fun r : LexRule => decide (r.spelling = some spelling) := rfl
  rw [parts.lexRules_eq, List.find?_append, List.find?_map, hsame] at h
  cases hfind : d.lexRules.find? fun r => decide (r.spelling = some spelling) with
  | some found =>
    rw [hfind] at h
    obtain rfl : ignoring d.ignored found = r := by simpa using h
    have hfresh := (declared.fresh found (List.mem_of_find?_eq_some hfind)).not_ignored
    simp [ignoring, hfresh]
  | none =>
    rw [hfind] at h
    have hmem : r ∈ more := List.mem_of_find?_eq_some (by simpa using h)
    obtain ⟨_, -, hmade, -⟩ := parts.supplied.made r hmem
    simp [hmade.not_ignored]

theorem exists_standsFor (declared : Declared d) (h : d.build = .ok (.ok g)) {spelling : String}
    {id : Nat} (hid : g.lexRules.findIdx? (fun r => r.spelling = some spelling) = some id) :
    ∃ r, StandsFor d g spelling id r := by
  obtain ⟨more, first, generated, parts⟩ := exists_parts declared h
  obtain ⟨hlt, hspelled, hbefore⟩ := List.findIdx?_eq_some_iff_getElem.1 hid
  have hspelling : g.lexRules[id].spelling = some spelling := by simpa using hspelled
  have hfirst : ∀ k < id, ∀ other, g.lexRules[k]? = some other →
      other.spelling ≠ some spelling := by
    intro k hk other hother
    obtain ⟨_, rfl⟩ := List.getElem?_eq_some_iff.1 hother
    simpa using hbefore k hk
  have hfind : g.lexRules.find? (fun r => r.spelling = some spelling) = some g.lexRules[id] := by
    refine List.find?_eq_some_iff_getElem.2 ⟨hspelled, id, hlt, rfl, fun k hk => ?_⟩
    simpa using hbefore k hk
  have hlanguage := (faithful_of_build declared h).language_eq _ (List.getElem_mem hlt) _ hspelling
  exact ⟨g.lexRules[id], List.getElem?_eq_getElem hlt, hspelling, hfirst, hlanguage,
    parts.ignored_iff declared hfind⟩

/-- A literal that is not empty matches its own text. -/
theorem StandsFor.matches {spelling : String} {id : Nat} {r : LexRule}
    (h : StandsFor d g spelling id r) (hne : spelling ≠ "") :
    LexRules.Matches (Parser.lexRulesOf g) id spelling.toList := by
  refine ⟨by simpa using hne, r.pattern, r.ignored, ?_, ?_⟩
  · rw [Parser.lexRulesOf, List.getElem?_map, h.getElem?_eq, Option.map_some]
  · rw [h.language_eq]
    rfl

/-- After any calls that a grammar can be built from, every literal in a body resolves to the first
lex rule of its text.  If this one is not ignored and the literal is not empty, the tokenizer of the
lex rules reads the text of the literal as one lexeme, with the lex rule among its candidates. -/
theorem literals_reach_tokens (calls : List Call) {g : Grammar}
    (h : (declaredBy calls).build = .ok (.ok g)) :
    (∃ bodies, (declaredBy calls).resolved = .ok (bodies, g.lexRules, g.start) ∧
      g.rules = Grammar.markNullable (Grammar.flatten bodies) ∧
      ∀ (position : Nat) spelling,
        (declaredBy calls).leaves[position]?.bind Term.literal? = some spelling →
        ∃ id r, LiteralAt (declaredBy calls).leaves (symbolsOf bodies) position spelling id ∧
          StandsFor (declaredBy calls) g spelling id r ∧
          (spelling ≠ "" → r.ignored = false → ∀ lexer,
            Lexer.ofRules (Parser.lexRulesOf g) = .ok lexer →
              lexer.ReadsWhole spelling.toList id)) ∧
    ((Lexer.nfaOf (Parser.lexRulesOf g)).size < sizeLimit →
      ∃ lexer, Lexer.ofRules (Parser.lexRulesOf g) = .ok lexer) := by
  have declared := declared_declaredBy calls
  obtain ⟨bodies, hresolved, -, hrules⟩ := build_eq_ok_iff.1 h
  have hall := forall₂_leaves (forall₂_of_resolved declared hresolved).1
  refine ⟨⟨bodies, hresolved, hrules, fun position spelling hleaf => ?_⟩, fun hsize => ?_⟩
  · obtain ⟨t, ht, hliteral⟩ := Option.bind_eq_some_iff.1 hleaf
    obtain ⟨s, hs, hrefers⟩ := forall₂_getElem?_left hall ht
    obtain ⟨id, rfl, hid⟩ := hrefers.findIdx?_of_literal hliteral
    obtain ⟨r, hr⟩ := exists_standsFor declared h hid
    refine ⟨id, r, ⟨hleaf, hs⟩, hr, fun hne hkept lexer hlexer => ?_⟩
    rw [Lexer.readsWhole_iff hlexer]
    refine LexRules.exists_munches_of_matches (hr.matches hne) fun pattern hdropped => ?_
    rw [Parser.lexRulesOf, List.getElem?_map, hr.getElem?_eq, Option.map_some, hkept] at hdropped
    cases hdropped
  · obtain ⟨lexer, hlexer, -⟩ := Lexer.ofRules_ok hsize
    exact ⟨lexer, hlexer⟩

/-- Both parentheses are read, the one that a lex rule is declared by and the one that has a lex rule
made for it. -/
theorem literals_reach_tokens_parentheses : ∃ g lexer,
    (declaredBy parentheses).build = .ok (.ok g) ∧
    Lexer.ofRules (Parser.lexRulesOf g) = .ok lexer ∧
    ∀ spelling ∈ ["(", ")"], ∃ id r, StandsFor (declaredBy parentheses) g spelling id r ∧
      lexer.ReadsWhole spelling.toList id := by
  obtain ⟨⟨bodies, -, -, hliterals⟩, hexists⟩ := literals_reach_tokens parentheses rfl
  obtain ⟨lexer, hlexer⟩ := hexists (by decide)
  refine ⟨_, lexer, rfl, hlexer, fun spelling hspelling => ?_⟩
  have hleaf : spelling ≠ "" ∧ ∃ position : Nat,
      (declaredBy parentheses).leaves[position]?.bind Term.literal? = some spelling := by
    rcases List.mem_pair.1 hspelling with rfl | rfl
    · exact ⟨by decide, 0, rfl⟩
    · exact ⟨by decide, 2, rfl⟩
  obtain ⟨hne, position, hposition⟩ := hleaf
  obtain ⟨id, r, -, hr, hreads⟩ := hliterals position spelling hposition
  have hkept : r.ignored = false := by
    refine Bool.eq_false_iff.2 fun hignored => ?_
    obtain ⟨_, -, hname⟩ := hr.ignored_iff.1 hignored
    cases hname
  exact ⟨id, r, hr, hreads hne hkept lexer hlexer⟩

/-- A lex rule of one character that is ignored, and a rule with this character as a literal. -/
def ignoredLiteral : List Call :=
  [.lexChar "plus" '+', .rule "s" (.terminal (.char '+')), .ignore "plus", .setStart "s"]

/-- The literal resolves to the lex rule that is ignored, and nothing is read from its text. -/
theorem not_readsWhole_ignoredLiteral : ∃ g bodies lexer,
    (declaredBy ignoredLiteral).build = .ok (.ok g) ∧
    (declaredBy ignoredLiteral).resolved = .ok (bodies, g.lexRules, g.start) ∧
    LiteralAt (declaredBy ignoredLiteral).leaves (symbolsOf bodies) 0 "+" 0 ∧
    g.lexRules[0]?.map LexRule.ignored = some true ∧
    Lexer.ofRules (Parser.lexRulesOf g) = .ok lexer ∧
    ∀ rule, ¬ lexer.ReadsWhole "+".toList rule := by
  let rules := LexRules.ofChars [('+', true)]
  have hsize : (Lexer.nfaOf rules).size < sizeLimit := by decide
  obtain ⟨lexer, hlexer, -⟩ := Lexer.ofRules_ok hsize
  refine ⟨_, _, lexer, rfl, rfl, ⟨rfl, rfl⟩, rfl, hlexer, fun rule hreads => ?_⟩
  obtain ⟨l, -, -, hmunches⟩ := (Lexer.readsWhole_iff hlexer).1 hreads
  have hlongest : rules.IsLongest (['+'] ++ []) ['+'] :=
    LexRules.isLongest_ofChars ⟨true, by decide⟩ []
  have hdropped : rules.IsCandidates ['+'] [] := LexRules.isCandidates_ofChars [('+', true)] '+'
  obtain ⟨more, hmore, hitems⟩ := (LexRules.munches_longest_iff hlongest hdropped).1 hmunches
  rw [LexRules.munches_nil_iff.1 hmore] at hitems
  cases hitems

end Declarations

end LexChart
