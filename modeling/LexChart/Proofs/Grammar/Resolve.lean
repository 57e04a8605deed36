import LexChart.Grammar.Denotation
import LexChart.Proofs.Answers
import LexChart.Proofs.Expr.Language
import LexChart.Proofs.Grammar.Interpretation
set_option autoImplicit false

/-!
# Resolved names

While the bodies are resolved, lex rules are only added behind those that there are, so that a leaf
that was resolved early still refers to the same lex rule in the end.  `Resolves` says this of an
action, and what holds of its answer for all lex rules that the actions after it may leave.  The
words of a leaf are then those of its symbol, as soon as names and numbers of rules go together.
-/

namespace LexChart.Declarations

/-! ## Lex rules -/

/-- Every lex rule has its position as its number. -/
def Numbered (lexRules : List LexRule) : Prop :=
  ∀ (k : Nat) (r : LexRule), lexRules[k]? = some r → r.id = k

theorem Numbered.append {lexRules : List LexRule} (h : Numbered lexRules) {r : LexRule}
    (hr : r.id = lexRules.length) : Numbered (lexRules ++ [r]) := by
  intro k r' hk
  rcases getElem?_concat_eq_some_iff.1 hk with hk | ⟨rfl, rfl⟩
  · exact h k r' hk
  · exact hr

theorem Numbered.markIgnored {name : String} {lexRules marked : List LexRule}
    (h : Numbered lexRules) (hmark : markIgnored name lexRules = .ok marked) : Numbered marked := by
  have hids : marked.map LexRule.id = lexRules.map LexRule.id := by
    clear h
    induction lexRules generalizing marked with
    | nil => cases hmark
    | cons r rest ih =>
      unfold Declarations.markIgnored at hmark
      split at hmark
      · cases hmark
        rfl
      · obtain ⟨marked', hmarked, rfl⟩ := map_eq_ok_iff.1 hmark
        rw [List.map_cons, List.map_cons, ih hmarked]
  intro k r hk
  have hid : (lexRules.map LexRule.id)[k]? = some r.id := by
    rw [← hids, List.getElem?_map, hk]
    rfl
  rw [List.getElem?_map] at hid
  obtain ⟨r', hr', heq⟩ := Option.map_eq_some_iff.1 hid
  rw [← heq]
  exact h k r' hr'

/-- The first lex rule with a property is the one at its position. -/
theorem Numbered.findIdx?_eq_id {lexRules : List LexRule} (h : Numbered lexRules)
    {p : LexRule → Bool} {r : LexRule} (hr : lexRules.find? p = some r) :
    lexRules.findIdx? p = some r.id := by
  obtain ⟨hp, k, hk, hget, hbefore⟩ := List.find?_eq_some_iff_getElem.1 hr
  have hid := h k r (List.getElem?_eq_some_iff.2 ⟨hk, hget⟩)
  rw [List.findIdx?_eq_some_iff_getElem, hid]
  refine ⟨hk, ?_, fun j hj => ?_⟩
  · rw [hget]
    exact hp
  · have hnot := hbefore j hj
    rw [Bool.not_eq_true'] at hnot
    exact Bool.not_eq_true _ ▸ hnot

theorem tokenOf_eq {lexRules : List LexRule} {p : LexRule → Bool} {id : Nat}
    (h : lexRules.findIdx? p = some id) : tokenOf lexRules p = {[id]} := by
  ext w
  constructor
  · rintro ⟨id', hid, rfl⟩
    rw [h] at hid
    cases hid
    rfl
  · intro hw
    exact ⟨id, h, hw⟩

/-! ## What a leaf refers to -/

/-- A symbol is the one that a leaf refers to, given the lex rules and the names of the rules. -/
inductive Refers (lexRules : List LexRule) (names : List String) : Term → Symbol → Prop where
  | lex {name : String} {id : Nat} :
      lexRules.findIdx? (fun r => r.name = name) = some id →
        Refers lexRules names (.lex name) (.lex id)
  | rule {name : String} {id : Nat} :
      names.findIdx? (· = name) = some id → Refers lexRules names (.rule name) (.rule id)
  | char {c : Char} {id : Nat} :
      lexRules.findIdx? (fun r => r.spelling = some (String.singleton c)) = some id →
      Refers lexRules names (.char c) (.lex id)
  | spelling {text : String} {id : Nat} :
      lexRules.findIdx? (fun r => r.spelling = some text) = some id →
      Refers lexRules names (.spelling text) (.lex id)

theorem lt_of_findIdx? {α : Type} {p : α → Bool} {xs : List α} {id : Nat}
    (h : xs.findIdx? p = some id) : id < xs.length :=
  (List.findIdx?_eq_some_iff_getElem.1 h).1

variable {names : List String}

theorem Refers.within {lexRules : List LexRule} {t : Term} {s : Symbol}
    (h : Refers lexRules names t s) : s.Within lexRules.length names.length := by
  cases h with
  | lex hid => exact lt_of_findIdx? hid
  | rule hid => exact lt_of_findIdx? hid
  | char hid => exact lt_of_findIdx? hid
  | spelling hid => exact lt_of_findIdx? hid

/-- A meaning of the names and an interpretation of the numbers give each rule the same words. -/
def Meaning.Matches (meaning : Meaning) (names : List String) (i : Interpretation) : Prop :=
  ∀ name id, names.findIdx? (· = name) = some id → meaning name = i id

/-- A leaf has the words of its symbol. -/
theorem Refers.termLanguage_eq {lexRules : List LexRule} {meaning : Meaning} {i : Interpretation}
    (hmatches : meaning.Matches names i) {t : Term} {s : Symbol} (h : Refers lexRules names t s) :
    termLanguage lexRules meaning t = i.symbol s := by
  cases h with
  | lex hid => exact tokenOf_eq hid
  | rule hid => exact hmatches _ _ hid
  | char hid => exact tokenOf_eq hid
  | spelling hid => exact tokenOf_eq hid

/-! ## What an action resolves -/

/-- An action only adds lex rules, and its answer is right for all lex rules that begin with those
that it leaves. -/
def Resolves {α : Type} (action : Resolving α) (right : List LexRule → α → Prop) : Prop :=
  ∀ (before after : List LexRule) (answer : α), action.run before = .ok (answer, after) →
    before <+: after ∧ (Numbered before → Numbered after ∧
      ∀ final : List LexRule, after <+: final → right final answer)

section

variable {α β : Type} {action : Resolving α} {right : List LexRule → α → Prop}

theorem Resolves.imp {right' : List LexRule → α → Prop} (h : Resolves action right)
    (himp : ∀ final answer, right final answer → right' final answer) : Resolves action right' := by
  intro before after answer hrun
  obtain ⟨hbegins, hright⟩ := h before after answer hrun
  refine ⟨hbegins, fun hnumbered => ?_⟩
  obtain ⟨hnumbered', hanswer⟩ := hright hnumbered
  exact ⟨hnumbered', fun final hfinal => himp final answer (hanswer final hfinal)⟩

theorem resolves_pure (answer : α) :
    Resolves (pure answer) fun _ answer' => answer' = answer := by
  intro before after answer' hrun
  cases hrun
  exact ⟨List.prefix_rfl, fun hnumbered => ⟨hnumbered, fun _ _ => rfl⟩⟩

/-- The answer of the first action stays right while the second one runs. -/
theorem Resolves.bind {next : α → Resolving β} {right' : α → List LexRule → β → Prop}
    (h : Resolves action right) (hnext : ∀ a, Resolves (next a) (right' a)) :
    Resolves (action >>= next) fun final answer =>
      ∃ a, right final a ∧ right' a final answer := by
  intro before after answer hrun
  rw [StateT.run_bind] at hrun
  obtain ⟨⟨a, middle⟩, hfirst, hsecond⟩ := bind_eq_ok_iff.1 hrun
  obtain ⟨hbegins, hright⟩ := h before middle a hfirst
  obtain ⟨hbegins', hright'⟩ := hnext a middle after answer hsecond
  refine ⟨hbegins.trans hbegins', fun hnumbered => ?_⟩
  obtain ⟨hnumbered', ha⟩ := hright hnumbered
  obtain ⟨hnumbered'', hanswer⟩ := hright' hnumbered'
  exact ⟨hnumbered'', fun final hfinal =>
    ⟨a, ha final (hbegins'.trans hfinal), hanswer final hfinal⟩⟩

end

/-- The lex rule of a literal is the first one that is declared by its text. -/
theorem resolves_literal (spelling : String) :
    Resolves (literal spelling) fun final id =>
      final.findIdx? (fun r => r.spelling = some spelling) = some id := by
  intro before after id hrun
  unfold literal at hrun
  rw [StateT.run] at hrun
  split at hrun
  · rename_i r hfind
    cases hrun
    exact ⟨List.prefix_rfl, fun hnumbered =>
      ⟨hnumbered, fun final hfinal => hfinal.findIdx?_eq_some (hnumbered.findIdx?_eq_id hfind)⟩⟩
  · rename_i hfind
    cases hrun
    refine ⟨List.prefix_append _ _, fun hnumbered => ⟨hnumbered.append rfl, fun final hfinal => ?_⟩⟩
    refine hfinal.findIdx?_eq_some ?_
    have hnone : before.findIdx? (fun r => decide (r.spelling = some spelling)) = none := by
      rw [List.findIdx?_eq_none_iff]
      rw [List.find?_eq_none] at hfind
      exact fun r hr => Bool.eq_false_iff.2 (hfind r hr)
    rw [appendLexRule, List.findIdx?_append, hnone]
    simp [List.findIdx?_cons]

theorem resolves_resolve (names : List String) (t : Term) :
    Resolves (resolve names t) fun final s => Refers final names t s := by
  cases t with
  | lex name =>
    intro before after s hrun
    rw [resolve, StateT.run_bind, StateT.run_get, pure_bind] at hrun
    split at hrun
    · rename_i id hfind
      cases hrun
      exact ⟨List.prefix_rfl, fun hnumbered =>
        ⟨hnumbered, fun final hfinal => .lex (hfinal.findIdx?_eq_some hfind)⟩⟩
    · cases hrun
  | rule name =>
    rw [resolve]
    split
    · rename_i id hfind
      exact (resolves_pure _).imp fun final s hs => hs ▸ .rule hfind
    · intro before after s hrun
      cases hrun
  | char c =>
    refine ((resolves_literal (String.singleton c)).bind fun id =>
      resolves_pure (Symbol.lex id)).imp ?_
    rintro final s ⟨id, hid, rfl⟩
    exact .char hid
  | spelling text =>
    refine ((resolves_literal text).bind fun id => resolves_pure (Symbol.lex id)).imp ?_
    rintro final s ⟨id, hid, rfl⟩
    exact .spelling hid

mutual

/-- The terminals of a resolved expression are the symbols that the leaves refer to. -/
theorem resolves_mapTerminals (names : List String) : ∀ e : Expr Term,
    Resolves (e.mapTerminals (resolve names)) fun final e' => Expr.Related (Refers final names) e e'
  | .leaf marks t => by
    refine ((resolves_resolve names t).bind fun s => resolves_pure (Expr.leaf marks s)).imp ?_
    rintro final _ ⟨s, hs, rfl⟩
    exact .leaf marks hs
  | .node marks join parts => by
    refine ((resolves_mapTerminalsOfParts names parts).bind fun parts' =>
      resolves_pure (Expr.node marks join parts')).imp ?_
    rintro final _ ⟨parts', hparts, rfl⟩
    exact .node marks join hparts

theorem resolves_mapTerminalsOfParts (names : List String) : ∀ parts : List (Expr Term),
    Resolves (Expr.mapTerminalsOfParts (resolve names) parts) fun final parts' =>
      List.Forall₂ (Expr.Related (Refers final names)) parts parts'
  | [] => (resolves_pure []).imp fun _ _ h => h ▸ .nil
  | part :: rest => by
    refine ((resolves_mapTerminals names part).bind fun part' =>
      (resolves_mapTerminalsOfParts names rest).bind fun rest' =>
        resolves_pure (part' :: rest')).imp ?_
    rintro final _ ⟨part', hpart, rest', hrest, rfl⟩
    exact .cons hpart hrest

end

/-- A resolved body belongs to a rule: it has the name of the rule, and it is the choice of the
bodies declared for it. -/
structure Resolved (lexRules : List LexRule) (names : List String)
    (declared : String × List RuleBody) (resolved : String × Expr Symbol) : Prop where
  name_eq : resolved.1 = declared.1
  related : Expr.Related (Refers lexRules names) (Expr.choice declared.2).simplify resolved.2

theorem resolves_resolveBodies (names : List String) (rules : List (String × List RuleBody)) :
    Resolves (resolveBodies names rules) fun final bodies =>
      List.Forall₂ (Resolved final names) rules bodies := by
  induction rules with
  | nil => exact (resolves_pure []).imp fun _ _ h => h ▸ .nil
  | cons rule rest ih =>
    refine ((resolves_mapTerminals names (Expr.choice rule.2).simplify).bind fun body =>
      ih.bind fun bodies => resolves_pure ((rule.1, body) :: bodies)).imp ?_
    rintro final _ ⟨body, hbody, bodies, hbodies, rfl⟩
    exact .cons ⟨rfl, hbody⟩ hbodies

/-- The words of a resolved body are those of the bodies declared for its rule. -/
theorem Resolved.mem_language_iff {lexRules : List LexRule} {meaning : Meaning} {i : Interpretation}
    (hmatches : meaning.Matches names i) {declared : String × List RuleBody}
    {resolved : String × Expr Symbol}
    (h : Resolved lexRules names declared resolved) {w : List Nat} :
    w ∈ resolved.2.language i.symbol ↔
      ∃ body ∈ declared.2, w ∈ body.language (termLanguage lexRules meaning) := by
  have heq := Expr.Related.language_eq (fun _ _ href => Refers.termLanguage_eq hmatches href) _ _
    h.related
  rw [← heq, Expr.language_simplify, Expr.choice, Expr.language, Repetition.language_once,
    Expr.mem_languageOfParts_choice]

/-! ## Declared grammars -/

theorem map_fst_appendBody (name : String) (body : RuleBody)
    (rules : List (String × List RuleBody)) :
    (appendBody name body rules).map Prod.fst =
      if name ∈ rules.map Prod.fst then rules.map Prod.fst else rules.map Prod.fst ++ [name] := by
  induction rules with
  | nil => rfl
  | cons rule rest ih =>
    unfold appendBody
    split
    · rename_i heq
      rw [List.map_cons, if_pos (heq ▸ List.mem_cons_self), heq]
      simp [heq]
    · rename_i hne
      rw [List.map_cons, ih, List.map_cons]
      simp only [List.mem_cons, Ne.symm hne, false_or]
      split <;> rfl

/-- What holds while nothing is declared, and is kept by each way to declare more, holds of all
declarations. -/
theorem Declared.keeps {d : Declarations} (h : Declared d) (holds : Declarations → Prop)
    (nothing : holds Declarations.empty)
    (lexRule : ∀ d name pattern spelling, holds d → d.checkLexName name = .ok () →
      (∀ text, spelling = some text → pattern = .ofSpelling text.toList) →
      holds { d with lexRules := appendLexRule d.lexRules name pattern spelling })
    (rule : ∀ d name body, holds d → d.hasLexRule name ≠ true →
      holds { d with rules := appendBody name body d.rules })
    (ignored : ∀ d names, holds d → holds { d with ignored := names })
    (start : ∀ d name, holds d → holds { d with start := name }) : holds d := by
  induction h with
  | empty => exact nothing
  | lexPattern _ hadd ih =>
    obtain ⟨⟨⟩, hcheck, hadd⟩ := bind_eq_ok_iff.1 hadd
    obtain ⟨pattern, -, hadd⟩ := bind_eq_ok_iff.1 hadd
    cases hadd
    exact lexRule _ _ pattern none ih hcheck fun text h => nomatch h
  | @lexSpelling _ _ name spelling _ hadd ih =>
    obtain ⟨⟨⟩, hcheck, hadd⟩ := bind_eq_ok_iff.1 hadd
    cases hadd
    exact lexRule _ name _ (some spelling) ih hcheck fun text h => by rw [Option.some.inj h]
  | rule _ hadd ih =>
    unfold addRule at hadd
    split at hadd
    · cases hadd
    · rename_i hlex
      cases hadd
      exact rule _ _ _ ih hlex
  | ignore _ _ ih => exact ignored _ _ ih
  | start _ _ ih => exact start _ _ ih

/-- The lex rules are numbered, and no two rules have the same name. -/
theorem Declared.numbered_nodup {d : Declarations} (h : Declared d) :
    Numbered d.lexRules ∧ (d.rules.map Prod.fst).Nodup := by
  refine h.keeps (fun d => Numbered d.lexRules ∧ (d.rules.map Prod.fst).Nodup)
    ⟨fun k r hr => (nomatch hr), List.nodup_nil⟩ ?lexRule ?rule (fun _ _ ih => ih) fun _ _ ih => ih
  case lexRule => exact fun d name pattern spelling ih _ _ => ⟨ih.1.append rfl, ih.2⟩
  case rule =>
    intro d name body ih _
    refine ⟨ih.1, ?_⟩
    dsimp only
    rw [map_fst_appendBody]
    split
    · exact ih.2
    · rename_i hname
      exact List.nodup_append.2 ⟨ih.2, List.nodup_singleton _, fun a ha b hb heq =>
        hname (List.mem_singleton.1 hb ▸ heq ▸ ha)⟩

theorem numbered_foldlM_markIgnored {ignored : List String} {lexRules marked : List LexRule}
    (h : Numbered lexRules)
    (hmark : ignored.foldlM (fun lexRules name => markIgnored name lexRules) lexRules =
      .ok marked) :
    Numbered marked := by
  induction ignored generalizing lexRules with
  | nil =>
    cases hmark
    exact h
  | cons name rest ih =>
    rw [List.foldlM_cons] at hmark
    obtain ⟨next, hnext, hmark⟩ := bind_eq_ok_iff.1 hmark
    exact ih (h.markIgnored hnext) hmark

/-- What was resolved belongs to the declared rules, and the start rule is one of them. -/
theorem forall₂_of_resolved {d : Declarations} (declared : Declared d)
    {bodies : List (String × Expr Symbol)} {lexRules : List LexRule} {start : Nat}
    (h : d.resolved = .ok (bodies, lexRules, start)) :
    List.Forall₂ (Resolved lexRules (d.rules.map Prod.fst)) d.rules bodies ∧
      Numbered lexRules ∧ start < bodies.length := by
  obtain ⟨marked, hmarked, h⟩ := bind_eq_ok_iff.1 h
  obtain ⟨start', hstart, h⟩ := bind_eq_ok_iff.1 h
  obtain ⟨⟨bodies', lexRules'⟩, hrun, h⟩ := bind_eq_ok_iff.1 h
  cases h
  have hnumbered := numbered_foldlM_markIgnored declared.numbered_nodup.1 hmarked
  obtain ⟨-, hright⟩ := resolves_resolveBodies _ _ _ _ _ hrun
  obtain ⟨hnumbered', hbodies⟩ := hright hnumbered
  have hall := hbodies _ List.prefix_rfl
  refine ⟨hall, hnumbered', ?_⟩
  rw [← hall.length_eq]
  unfold startRule at hstart
  split at hstart
  · cases hstart
  · split at hstart
    · rename_i id hfind
      cases hstart
      exact lt_of_findIdx? hfind
    · cases hstart

/-- A grammar is built from what its declarations resolve to. -/
theorem build_eq_ok_iff {d : Declarations} {g : Grammar} : d.build = .ok (.ok g) ↔
    ∃ bodies : List (String × Expr Symbol), d.resolved = .ok (bodies, g.lexRules, g.start) ∧
      Grammar.checkBodies bodies = .ok () ∧
      g.rules = Grammar.markNullable (Grammar.flatten bodies) := by
  unfold build
  cases d.resolved with
  | error refusal => simp
  | ok resolved =>
    obtain ⟨bodies, lexRules, start⟩ := resolved
    dsimp only
    constructor
    · intro h
      obtain ⟨⟨⟩, hfits, h⟩ := bind_eq_ok_iff.1 h
      cases h
      exact ⟨bodies, rfl, hfits, rfl⟩
    · rintro ⟨bodies', hresolved, hfits, hrules⟩
      obtain ⟨rfl, rfl, rfl⟩ : bodies = bodies' ∧ lexRules = g.lexRules ∧ start = g.start := by
        simpa using hresolved
      refine bind_eq_ok_iff.2 ⟨(), hfits, ?_⟩
      rw [← hrules]
      rfl

/-- What a grammar that could be built was built from. -/
theorem exists_resolved_of_build {d : Declarations} (declared : Declared d) {g : Grammar}
    (h : d.build = .ok (.ok g)) : ∃ bodies : List (String × Expr Symbol),
      List.Forall₂ (Resolved g.lexRules (d.rules.map Prod.fst)) d.rules bodies ∧
      Numbered g.lexRules ∧ g.start < bodies.length ∧
      g.rules = Grammar.markNullable (Grammar.flatten bodies) := by
  obtain ⟨bodies, hresolved, -, hrules⟩ := build_eq_ok_iff.1 h
  obtain ⟨hall, hnumbered, hstart⟩ := forall₂_of_resolved declared hresolved
  exact ⟨bodies, hall, hnumbered, hstart, hrules⟩

end LexChart.Declarations
