import LexChart.Proofs.Charset.Partition
import LexChart.Proofs.Grammar.Calls
import LexChart.Proofs.Grammar.Declared
import LexChart.Proofs.Grammar.Generated
set_option autoImplicit false

/-!
# Grammars as they are built

A grammar that was built is well-formed, its declared lex rules and rules come first, and what was
added stands behind them: lex rules for literals, and generated rules.  Literals of the same text,
and no others, share a lex rule.  `Faithful` puts this together.
-/

namespace LexChart

open scoped Computability

/-! ## Patterns of one text -/

/-- The words of characters in a row. -/
theorem prod_language_chars (text : List Char) :
    (text.map fun c => ({[c]} : Language Char)).prod = {text} := by
  induction text with
  | nil => rfl
  | cons c rest ih =>
    rw [List.map_cons, List.prod_cons, ih]
    ext w
    rw [Language.mem_mul]
    constructor
    · rintro ⟨_, rfl, _, rfl, rfl⟩
      exact rfl
    · rintro rfl
      exact ⟨[c], rfl, rest, rfl, rfl⟩

/-- The pattern of a text matches it, and nothing else. -/
theorem Pattern.language_ofSpelling (text : List Char) :
    Expr.language CharClass.words (Pattern.ofSpelling text) = {text} := by
  have hchar : ∀ c, (CharClass.char c).words = {[c]} := by
    intro c
    ext w
    show (∃ d, w = [d] ∧ d = c) ↔ w = [c]
    simp
  unfold Pattern.ofSpelling
  rw [Expr.language_simplify, Expr.sequence, Expr.language, Repetition.language_once,
    Expr.languageOfParts_sequence, List.map_map, ← prod_language_chars]
  refine congrArg List.prod (List.map_congr_left fun c _ => ?_)
  exact (Expr.language_terminal _).trans (hchar c)

namespace Declarations

variable {d : Declarations} {g : Grammar}

/-! ## Literals -/

/-- The symbols in some bodies from left to right. -/
def symbolsOf (bodies : List (String × Expr Symbol)) : List Symbol :=
  bodies.flatMap fun body => body.2.terminals

theorem forall₂_flatMap {α β γ δ : Type} {r : α → β → Prop} {r' : γ → δ → Prop} {f : α → List γ}
    {f' : β → List δ} (h : ∀ a b, r a b → List.Forall₂ r' (f a) (f' b)) {as : List α}
    {bs : List β} (hall : List.Forall₂ r as bs) :
    List.Forall₂ r' (as.flatMap f) (bs.flatMap f') := by
  induction hall with
  | nil => exact .nil
  | cons hab _ ih => exact List.rel_append (h _ _ hab) ih

/-- Each leaf refers to the symbol at its place. -/
theorem forall₂_leaves {lexRules : List LexRule} {names : List String}
    {rules : List (String × List RuleBody)} {bodies : List (String × Expr Symbol)}
    (hall : List.Forall₂ (Resolved lexRules names) rules bodies) :
    List.Forall₂ (Refers lexRules names) (leavesOf rules) (symbolsOf bodies) := by
  refine forall₂_flatMap (fun rule body h => ?_) hall
  have hterminals := Expr.Related.forall₂_terminals _ _ h.related
  rwa [Expr.terminals_simplify, Expr.choice, Expr.terminals_node] at hterminals

/-- The leaf at a position is a literal, and became the symbol of a lex rule. -/
structure LiteralAt (leaves : List Term) (symbols : List Symbol) (position : Nat)
    (spelling : String) (id : Nat) : Prop where
  leaf : leaves[position]?.bind Term.literal? = some spelling
  symbol : symbols[position]? = some (.lex id)

theorem Refers.findIdx?_of_literal {lexRules : List LexRule} {names : List String} {t : Term}
    {s : Symbol} (h : Refers lexRules names t s) {spelling : String}
    (ht : t.literal? = some spelling) :
    ∃ id, s = .lex id ∧ lexRules.findIdx? (fun r => r.spelling = some spelling) = some id := by
  cases h with
  | lex hid => cases ht
  | rule hid => cases ht
  | char hid =>
    cases ht
    exact ⟨_, rfl, hid⟩
  | spelling hid =>
    cases ht
    exact ⟨_, rfl, hid⟩

/-- Literals of the same text, and no others, became the same lex rule: the first declared one of
this text if there is one. -/
structure SharesLiterals (declared : List LexRule) (leaves : List Term) (symbols : List Symbol) :
    Prop where
  found : ∀ (position : Nat) spelling, leaves[position]?.bind Term.literal? = some spelling →
    ∃ id, LiteralAt leaves symbols position spelling id
  shared : ∀ position position' spelling spelling' id id',
    LiteralAt leaves symbols position spelling id →
    LiteralAt leaves symbols position' spelling' id' → (id = id' ↔ spelling = spelling')
  declared : ∀ position spelling id first, LiteralAt leaves symbols position spelling id →
    declared.findIdx? (fun r => r.spelling = some spelling) = some first → id = first

theorem sharesLiterals_of_forall₂ {declared lexRules : List LexRule} {names : List String}
    {leaves : List Term} {symbols : List Symbol}
    (hdeclared : ∀ spelling first,
      declared.findIdx? (fun r => r.spelling = some spelling) = some first →
      lexRules.findIdx? (fun r => r.spelling = some spelling) = some first)
    (hall : List.Forall₂ (Refers lexRules names) leaves symbols) :
    SharesLiterals declared leaves symbols := by
  have hleaf : ∀ (position : Nat) spelling, leaves[position]?.bind Term.literal? = some spelling →
      ∃ id, symbols[position]? = some (Symbol.lex id) ∧
        lexRules.findIdx? (fun r => r.spelling = some spelling) = some id := by
    intro position spelling h
    obtain ⟨t, ht, hliteral⟩ := Option.bind_eq_some_iff.1 h
    obtain ⟨s, hs, hrefers⟩ := forall₂_getElem?_left hall ht
    obtain ⟨id, rfl, hid⟩ := hrefers.findIdx?_of_literal hliteral
    exact ⟨id, hs, hid⟩
  have hfound : ∀ {position spelling id}, LiteralAt leaves symbols position spelling id →
      lexRules.findIdx? (fun r => r.spelling = some spelling) = some id := by
    intro position spelling id h
    obtain ⟨id', hsymbol, hid⟩ := hleaf position spelling h.leaf
    rw [h.symbol] at hsymbol
    cases hsymbol
    exact hid
  constructor
  case found =>
    intro position spelling h
    obtain ⟨id, hsymbol, -⟩ := hleaf position spelling h
    exact ⟨id, h, hsymbol⟩
  case shared =>
    intro position position' spelling spelling' id id' h h'
    have hid := hfound h
    have hid' := hfound h'
    constructor
    · rintro rfl
      obtain ⟨_, hspelled, -⟩ := List.findIdx?_eq_some_iff_getElem.1 hid
      obtain ⟨_, hspelled', -⟩ := List.findIdx?_eq_some_iff_getElem.1 hid'
      simp only [decide_eq_true_eq] at hspelled hspelled'
      exact Option.some.inj (hspelled.symm.trans hspelled')
    · rintro rfl
      exact Option.some.inj (hid.symm.trans hid')
  case declared =>
    intro position spelling id first h hfirst
    exact Option.some.inj ((hfound h).symm.trans (hdeclared spelling first hfirst))

/-! ## Built grammars -/

/-- A grammar is what was declared, and what had to be added to it. -/
structure Faithful (d : Declarations) (g : Grammar) : Prop where
  wellFormed : g.WellFormed
  start : ∃ name, d.start = some name ∧ (d.rules.map Prod.fst).findIdx? (· = name) = some g.start
  lexRules : g.lexRules.take d.lexRules.length = d.lexRules.map (ignoring d.ignored)
  rules : (g.rules.take d.rules.length).map Rule.name = d.rules.map Prod.fst
  generated_iff : ∀ (id : Nat) (r : Rule), g.rules[id]? = some r →
    (r.generated = true ↔ d.rules.length ≤ id)
  language_eq : ∀ r ∈ g.lexRules, ∀ spelling, r.spelling = some spelling →
    Expr.language CharClass.words r.pattern = {spelling.toList}
  literals : ∃ bodies, d.resolved = .ok (bodies, g.lexRules, g.start) ∧
    g.rules = Grammar.markNullable (Grammar.flatten bodies) ∧
    SharesLiterals d.lexRules d.leaves (symbolsOf bodies)

theorem map_fst_of_resolved {lexRules : List LexRule} {names : List String}
    {rules : List (String × List RuleBody)} {bodies : List (String × Expr Symbol)}
    (hall : List.Forall₂ (Resolved lexRules names) rules bodies) :
    bodies.map Prod.fst = rules.map Prod.fst := by
  induction hall with
  | nil => rfl
  | cons h _ ih => rw [List.map_cons, List.map_cons, h.name_eq, ih]

/-- Lex rules with a text have the pattern of it, declared or made for a literal. -/
theorem pattern_of_supplied {declared more : List LexRule} {ignored spellings : List String}
    (hfresh : ∀ r ∈ declared, Fresh r)
    (supplied : Supplied (declared.map (ignoring ignored)) more spellings) :
    ∀ r ∈ declared.map (ignoring ignored) ++ more, ∀ spelling, r.spelling = some spelling →
      r.pattern = .ofSpelling spelling.toList := by
  intro r hr spelling hspelling
  rcases List.mem_append.1 hr with hr | hr
  · obtain ⟨r', hr', rfl⟩ := List.mem_map.1 hr
    exact (hfresh r' hr').pattern_eq spelling hspelling
  · obtain ⟨other, -, hmade, -⟩ := supplied.made r hr
    obtain rfl : other = spelling := Option.some.inj (hmade.spelling_eq.symm.trans hspelling)
    exact hmade.pattern_eq

/-- The lex rules and the rules of a grammar, each list with the declared ones first. -/
structure Parts (d : Declarations) (g : Grammar) (more : List LexRule)
    (declared generated : List Rule) : Prop where
  lexRules_eq : g.lexRules = d.lexRules.map (ignoring d.ignored) ++ more
  supplied : Supplied (d.lexRules.map (ignoring d.ignored)) more (literals d.leaves)
  rules_eq : g.rules = declared ++ generated
  named : Grammar.Named (d.rules.map Prod.fst) declared generated

theorem exists_parts (declared : Declared d) (h : d.build = .ok (.ok g)) :
    ∃ more first generated, Parts d g more first generated := by
  obtain ⟨bodies, hresolved, -, hrules⟩ := build_eq_ok_iff.1 h
  obtain ⟨-, -, -, hlexRules⟩ := (exists_resolved_iff declared).1 ⟨bodies, hresolved⟩
  have hall := (forall₂_of_resolved declared hresolved).1
  obtain ⟨more, hmore, supplied⟩ :=
    exists_withLiterals (d.lexRules.map (ignoring d.ignored)) (literals d.leaves)
  obtain ⟨first, generated, hsplit, named⟩ := Grammar.exists_named_markNullable_flatten bodies
  rw [map_fst_of_resolved hall] at named
  exact ⟨more, first, generated, hlexRules.trans hmore, supplied, hrules.trans hsplit, named⟩

section

variable {more : List LexRule} {first generated : List Rule}

theorem Parts.length_declared (parts : Parts d g more first generated) :
    first.length = d.rules.length := by
  rw [← List.length_map (f := Rule.name), parts.named.declared_names, List.length_map]

theorem Parts.take_lexRules (parts : Parts d g more first generated) :
    g.lexRules.take d.lexRules.length = d.lexRules.map (ignoring d.ignored) := by
  rw [parts.lexRules_eq]
  exact List.take_left' (List.length_map _)

theorem Parts.drop_lexRules (parts : Parts d g more first generated) :
    g.lexRules.drop d.lexRules.length = more := by
  rw [parts.lexRules_eq]
  exact List.drop_left' (List.length_map _)

theorem Parts.take_rules (parts : Parts d g more first generated) :
    g.rules.take d.rules.length = first := by
  rw [parts.rules_eq]
  exact List.take_left' parts.length_declared

theorem Parts.drop_rules (parts : Parts d g more first generated) :
    g.rules.drop d.rules.length = generated := by
  rw [parts.rules_eq]
  exact List.drop_left' parts.length_declared

end

theorem faithful_of_build (declared : Declared d) (h : d.build = .ok (.ok g)) : Faithful d g := by
  obtain ⟨bodies, hresolved, -, hrules⟩ := build_eq_ok_iff.1 h
  obtain ⟨-, hstart, -, -⟩ := (exists_resolved_iff declared).1 ⟨bodies, hresolved⟩
  obtain ⟨hall, -, -⟩ := forall₂_of_resolved declared hresolved
  obtain ⟨more, first, generated, parts⟩ := exists_parts declared h
  constructor
  case wellFormed => exact wellFormed_of_build declared h
  case start => exact startRule_eq_ok_iff.1 hstart
  case lexRules => exact parts.take_lexRules
  case rules =>
    rw [parts.take_rules]
    exact parts.named.declared_names
  case generated_iff =>
    intro id r hr
    rw [parts.rules_eq] at hr
    rw [parts.named.generated_iff hr, List.length_map]
  case language_eq =>
    intro r hr spelling hspelling
    rw [parts.lexRules_eq] at hr
    rw [pattern_of_supplied declared.fresh parts.supplied r hr spelling hspelling]
    exact Pattern.language_ofSpelling spelling.toList
  case literals =>
    refine ⟨bodies, hresolved, hrules, sharesLiterals_of_forall₂ ?_ (forall₂_leaves hall)⟩
    intro spelling first hfirst
    rw [parts.lexRules_eq]
    refine (List.prefix_append _ more).findIdx?_eq_some ?_
    rw [List.findIdx?_map]
    exact hfirst

/-- A refused call changes nothing, the accepted ones are recorded in their order, and a grammar
that is built then is what they declare. -/
theorem built_faithful (calls : List Call) :
    (∀ (call : Call) refusal e, call.perform.runOn (declaredBy calls) = (.error refusal, e) →
      e = declaredBy calls) ∧
    Records (accepted calls) (declaredBy calls) ∧
    ∀ g, (declaredBy calls).build = .ok (.ok g) → Faithful (declaredBy calls) g :=
  ⟨fun _ _ _ h => Call.eq_of_refused h, records_declaredBy calls,
    fun _ h => faithful_of_build (declared_declaredBy calls) h⟩

/-- Calls that declare balanced parentheses, one of which is refused. -/
def parentheses : List Call :=
  [.rule "s" balancedBody, .lexSpelling "s" "x", .lexChar "(" '(', .setStart "s"]

/-- Balanced parentheses are built as they are declared. -/
theorem built_faithful_parentheses :
    (∃ refusal e, (Call.rule "(" balancedBody).perform.runOn (declaredBy parentheses) =
      (.error refusal, e) ∧ e = declaredBy parentheses) ∧
    ∃ g, (declaredBy parentheses).build = .ok (.ok g) ∧ Faithful (declaredBy parentheses) g := by
  obtain ⟨hrefused, -, hbuilt⟩ := built_faithful parentheses
  have hcall : (Call.rule "(" balancedBody).perform.runOn (declaredBy parentheses) =
      (.error ⟨.duplicatedRule "(", none⟩, declaredBy parentheses) := rfl
  exact ⟨⟨_, _, hcall, hrefused _ _ _ hcall⟩, _, rfl, hbuilt _ rfl⟩

end Declarations

end LexChart
