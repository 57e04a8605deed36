import LexChart.Proofs.Expr.Terminals
import LexChart.Proofs.Grammar.Resolve
set_option autoImplicit false

/-!
# Lex rules of literals

The leaves of the bodies are resolved from left to right.  A leaf that is a literal has a lex rule
added, unless there is one of its text, and a name is looked for among all lex rules that there are
when its turn comes.  `Visits` says of an action that it does just that to a list of leaves.

So the lex rules of a grammar are the declared ones, the ignored ones marked, and one more for each
literal text that none of them is declared by.
-/

namespace LexChart

/-- The text of a literal leaf. -/
def Term.literal? : Term → Option String
  | .lex _ => none
  | .rule _ => none
  | .char c => some (String.singleton c)
  | .spelling text => some text

namespace Declarations

/-- The texts of the literals among some leaves. -/
def literals (leaves : List Term) : List String := leaves.filterMap Term.literal?

/-- The leaves of all bodies from left to right. -/
def leavesOf (rules : List (String × List RuleBody)) : List Term :=
  rules.flatMap fun rule => rule.2.flatMap Expr.terminals

/-- The leaves of all declared bodies from left to right. -/
def leaves (d : Declarations) : List Term := leavesOf d.rules

/-! ## Lex rules that are added -/

/-- A lex rule is declared by the text. -/
def Spells (lexRules : List LexRule) (spelling : String) : Prop :=
  ∃ r ∈ lexRules, r.spelling = some spelling

instance (lexRules : List LexRule) (spelling : String) : Decidable (Spells lexRules spelling) :=
  inferInstanceAs (Decidable (∃ r ∈ lexRules, r.spelling = some spelling))

/-- The lex rules with one for a literal. -/
def withLiteral (lexRules : List LexRule) (spelling : String) : List LexRule :=
  if Spells lexRules spelling then lexRules
  else appendLexRule lexRules (literalName spelling) (.ofSpelling spelling.toList) (some spelling)

/-- The lex rules with one for each literal. -/
def withLiterals (lexRules : List LexRule) (spellings : List String) : List LexRule :=
  spellings.foldl withLiteral lexRules

/-- A lex rule that is made for a literal. -/
structure ForLiteral (r : LexRule) (spelling : String) : Prop where
  name_eq : r.name = literalName spelling
  pattern_eq : r.pattern = .ofSpelling spelling.toList
  spelling_eq : r.spelling = some spelling
  not_ignored : r.ignored = false

/-- Some lex rules, and behind them new ones: each of these is made for a literal that no lex rule
before it is declared by, and there is a lex rule for every literal. -/
structure Supplied (lexRules more : List LexRule) (spellings : List String) : Prop where
  made : ∀ r ∈ more, ∃ spelling ∈ spellings, ForLiteral r spelling ∧ ¬ Spells lexRules spelling
  nodup : (more.map LexRule.spelling).Nodup
  spells : ∀ spelling ∈ spellings, Spells (lexRules ++ more) spelling

theorem exists_withLiteral (lexRules : List LexRule) (spelling : String) :
    ∃ more, withLiteral lexRules spelling = lexRules ++ more ∧
      Supplied lexRules more [spelling] := by
  unfold withLiteral
  split
  · rename_i hspells
    refine ⟨[], (List.append_nil _).symm, fun r hr => (nomatch hr), List.nodup_nil, ?_⟩
    simpa using hspells
  · rename_i hspells
    refine ⟨_, rfl, ?_, List.nodup_singleton _, ?_⟩
    · intro r hr
      rw [List.mem_singleton.1 hr]
      exact ⟨spelling, List.mem_singleton_self _, ⟨rfl, rfl, rfl, rfl⟩, hspells⟩
    · simp [Spells]

/-- What is supplied in two steps is supplied at once. -/
theorem Supplied.append {lexRules first second : List LexRule} {spellings others : List String}
    (h : Supplied lexRules first spellings) (h' : Supplied (lexRules ++ first) second others) :
    Supplied lexRules (first ++ second) (spellings ++ others) := by
  have hapart : ∀ r ∈ first, ∀ r' ∈ second, r.spelling ≠ r'.spelling := by
    intro r hr r' hr' heq
    obtain ⟨spelling, -, hmade, hfree⟩ := h'.made r' hr'
    exact hfree ⟨r, List.mem_append_right _ hr, heq.trans hmade.spelling_eq⟩
  constructor
  case made =>
    intro r hr
    rcases List.mem_append.1 hr with hr | hr
    · obtain ⟨spelling, hmem, hmade, hfree⟩ := h.made r hr
      exact ⟨spelling, List.mem_append_left _ hmem, hmade, hfree⟩
    · obtain ⟨spelling, hmem, hmade, hfree⟩ := h'.made r hr
      refine ⟨spelling, List.mem_append_right _ hmem, hmade, fun ⟨r', hr', heq⟩ => ?_⟩
      exact hfree ⟨r', List.mem_append_left _ hr', heq⟩
  case nodup =>
    rw [List.map_append, List.nodup_append]
    refine ⟨h.nodup, h'.nodup, fun a ha b hb => ?_⟩
    obtain ⟨r, hr, rfl⟩ := List.mem_map.1 ha
    obtain ⟨r', hr', rfl⟩ := List.mem_map.1 hb
    exact hapart r hr r' hr'
  case spells =>
    intro spelling hmem
    rw [← List.append_assoc]
    rcases List.mem_append.1 hmem with hmem | hmem
    · obtain ⟨r, hr, heq⟩ := h.spells spelling hmem
      exact ⟨r, List.mem_append_left _ hr, heq⟩
    · exact h'.spells spelling hmem

theorem exists_withLiterals (lexRules : List LexRule) (spellings : List String) :
    ∃ more, withLiterals lexRules spellings = lexRules ++ more ∧
      Supplied lexRules more spellings := by
  induction spellings generalizing lexRules with
  | nil =>
    exact ⟨[], (List.append_nil _).symm, fun r hr => (nomatch hr), List.nodup_nil,
      fun spelling h => (nomatch h)⟩
  | cons spelling rest ih =>
    obtain ⟨first, hfirst, supplied⟩ := exists_withLiteral lexRules spelling
    obtain ⟨second, hsecond, supplied'⟩ := ih (lexRules ++ first)
    refine ⟨first ++ second, ?_, supplied.append supplied'⟩
    rw [withLiterals, List.foldl_cons, hfirst, ← List.append_assoc]
    exact hsecond

theorem withLiterals_append (lexRules : List LexRule) (spellings others : List String) :
    withLiterals lexRules (spellings ++ others) =
      withLiterals (withLiterals lexRules spellings) others :=
  List.foldl_append ..

/-- A name is that of a lex rule, or of a literal that no lex rule is declared by. -/
theorem exists_name_withLiterals_iff {lexRules : List LexRule} {spellings : List String}
    {name : String} : (∃ r ∈ withLiterals lexRules spellings, r.name = name) ↔
      (∃ r ∈ lexRules, r.name = name) ∨
        ∃ spelling ∈ spellings, ¬ Spells lexRules spelling ∧ literalName spelling = name := by
  obtain ⟨more, hmore, supplied⟩ := exists_withLiterals lexRules spellings
  rw [hmore]
  constructor
  · rintro ⟨r, hr, rfl⟩
    rcases List.mem_append.1 hr with hr | hr
    · exact .inl ⟨r, hr, rfl⟩
    · obtain ⟨spelling, hmem, hmade, hfree⟩ := supplied.made r hr
      exact .inr ⟨spelling, hmem, hfree, hmade.name_eq.symm⟩
  · rintro (⟨r, hr, rfl⟩ | ⟨spelling, hmem, hfree, rfl⟩)
    · exact ⟨r, List.mem_append_left _ hr, rfl⟩
    · obtain ⟨r, hr, heq⟩ := supplied.spells spelling hmem
      refine ⟨r, hr, ?_⟩
      rcases List.mem_append.1 hr with hold | hnew
      · exact absurd ⟨r, hold, heq⟩ hfree
      · obtain ⟨other, -, hmade, -⟩ := supplied.made r hnew
        rw [hmade.name_eq, ← Option.some.inj (hmade.spelling_eq.symm.trans heq)]

theorem literals_append (first second : List Term) :
    literals (first ++ second) = literals first ++ literals second :=
  List.filterMap_append ..

/-! ## Leaves one after the other -/

/-- What a leaf refers to is there: a lex rule or a rule of its name.  A literal always has a lex
rule. -/
def Known (names : List String) (lexRules : List LexRule) : Term → Prop
  | .lex name => ∃ r ∈ lexRules, r.name = name
  | .rule name => name ∈ names
  | .char _ => True
  | .spelling _ => True

/-- What each leaf refers to is there when its turn comes. -/
def AllKnown (names : List String) (lexRules : List LexRule) (leaves : List Term) : Prop :=
  ∀ before t after, leaves = before ++ t :: after →
    Known names (withLiterals lexRules (literals before)) t

variable {names : List String}

theorem allKnown_nil (names : List String) (lexRules : List LexRule) :
    AllKnown names lexRules [] := by
  intro before t after h
  simp at h

theorem allKnown_singleton {lexRules : List LexRule} {t : Term} :
    AllKnown names lexRules [t] ↔ Known names lexRules t := by
  constructor
  · exact fun h => h [] t [] rfl
  · intro h before t' after heq
    cases before with
    | nil =>
      obtain ⟨rfl, -⟩ := List.cons.inj heq
      exact h
    | cons t'' before => simp at heq

theorem allKnown_append {lexRules : List LexRule} {first second : List Term} :
    AllKnown names lexRules (first ++ second) ↔ AllKnown names lexRules first ∧
      AllKnown names (withLiterals lexRules (literals first)) second := by
  constructor
  · refine fun h => ⟨fun before t after heq => ?_, fun before t after heq => ?_⟩
    · exact h before t (after ++ second) (by simp [heq])
    · have hknown := h (first ++ before) t after (by simp [heq])
      rwa [literals_append, withLiterals_append] at hknown
  · rintro ⟨hfirst, hsecond⟩ before t after heq
    rcases List.append_eq_append_iff.1 heq with ⟨more, rfl, hmore⟩ | ⟨more, hmore, hafter⟩
    · rw [literals_append, withLiterals_append]
      exact hsecond more t after hmore
    · cases more with
      | nil =>
        rw [List.append_nil] at hmore
        rw [← hmore]
        exact hsecond [] t after hafter.symm
      | cons t' more =>
        obtain ⟨rfl, -⟩ := List.cons.inj hafter
        exact hfirst before t more hmore

/-- An action resolves some leaves one after the other: it succeeds exactly if what they refer to is
there, and leaves a lex rule for each literal. -/
def Visits {α : Type} (names : List String) (action : Resolving α) (leaves : List Term) : Prop :=
  ∀ before after : List LexRule, (∃ answer, action.run before = .ok (answer, after)) ↔
    AllKnown names before leaves ∧ after = withLiterals before (literals leaves)

section

variable {α β : Type} {action : Resolving α} {leaves : List Term}

theorem visits_pure (names : List String) (answer : α) :
    Visits names (pure answer : Resolving α) [] := by
  intro before after
  constructor
  · rintro ⟨answer', h⟩
    cases h
    exact ⟨allKnown_nil names before, rfl⟩
  · rintro ⟨-, rfl⟩
    exact ⟨answer, rfl⟩

theorem Visits.bind (h : Visits names action leaves) {next : α → Resolving β} {more : List Term}
    (hnext : ∀ a, Visits names (next a) more) :
    Visits names (action >>= next) (leaves ++ more) := by
  intro before after
  rw [allKnown_append, literals_append, withLiterals_append]
  constructor
  · rintro ⟨answer, hrun⟩
    rw [StateT.run_bind] at hrun
    obtain ⟨⟨a, middle⟩, hfirst, hsecond⟩ := bind_eq_ok_iff.1 hrun
    obtain ⟨hknown, rfl⟩ := (h before middle).1 ⟨a, hfirst⟩
    obtain ⟨hknown', rfl⟩ := (hnext a _ after).1 ⟨answer, hsecond⟩
    exact ⟨⟨hknown, hknown'⟩, rfl⟩
  · rintro ⟨⟨hknown, hknown'⟩, rfl⟩
    obtain ⟨a, hfirst⟩ := (h before _).2 ⟨hknown, rfl⟩
    obtain ⟨answer, hsecond⟩ := (hnext a _ _).2 ⟨hknown', rfl⟩
    refine ⟨answer, ?_⟩
    rw [StateT.run_bind]
    exact bind_eq_ok_iff.2 ⟨_, hfirst, hsecond⟩

/-- An action that only makes something of the answer of another one visits the same leaves. -/
theorem Visits.bind_pure (h : Visits names action leaves) (f : α → β) :
    Visits names (action >>= fun a => pure (f a)) leaves := by
  have hbind := h.bind fun a => visits_pure names (f a)
  rwa [List.append_nil] at hbind

end

theorem run_literal (spelling : String) (lexRules : List LexRule) :
    ∃ id, (literal spelling).run lexRules = .ok (id, withLiteral lexRules spelling) := by
  unfold literal withLiteral
  rw [StateT.run]
  cases hfind : lexRules.find? fun r => decide (r.spelling = some spelling) with
  | some r =>
    have hspells : Spells lexRules spelling :=
      ⟨r, List.mem_of_find?_eq_some hfind, by simpa using List.find?_some hfind⟩
    rw [if_pos hspells]
    exact ⟨r.id, rfl⟩
  | none =>
    have hfree : ¬ Spells lexRules spelling := by
      rintro ⟨r, hr, heq⟩
      exact List.find?_eq_none.1 hfind r hr (decide_eq_true heq)
    rw [if_neg hfree]
    exact ⟨lexRules.length, rfl⟩

/-- A literal always has a lex rule. -/
theorem visits_literal {t : Term} {spelling : String} (ht : t.literal? = some spelling)
    (hknown : ∀ lexRules, Known names lexRules t) : Visits names (literal spelling) [t] := by
  intro before after
  obtain ⟨id, hrun⟩ := run_literal spelling before
  have hafter : withLiterals before (literals [t]) = withLiteral before spelling := by
    rw [literals, List.filterMap_cons, ht]
    rfl
  rw [allKnown_singleton, hafter]
  constructor
  · rintro ⟨id', hrun'⟩
    rw [hrun] at hrun'
    cases hrun'
    exact ⟨hknown before, rfl⟩
  · rintro ⟨-, rfl⟩
    exact ⟨id, hrun⟩

theorem exists_findIdx?_iff {α : Type} {p : α → Bool} {xs : List α} :
    (∃ id, xs.findIdx? p = some id) ↔ ∃ x ∈ xs, p x = true := by
  rw [← Option.isSome_iff_exists, List.findIdx?_isSome, List.any_eq_true]

theorem exists_map_findIdx?_iff {α β : Type} {p : α → Bool} {xs : List α} (f : Nat → β) :
    (∃ b, (xs.findIdx? p).map f = some b) ↔ ∃ x ∈ xs, p x = true := by
  rw [← exists_findIdx?_iff]
  simp only [Option.map_eq_some_iff, exists_comm, exists_eq_right']

/-- A leaf that is looked up leaves the lex rules as they are. -/
theorem visits_lookup {t : Term} (ht : t.literal? = none) {action : Resolving Symbol}
    {refusal : Diagnostic} (found : List LexRule → Option Symbol)
    (hknown : ∀ lexRules, Known names lexRules t ↔ ∃ s, found lexRules = some s)
    (hrun : ∀ lexRules, action.run lexRules = match found lexRules with
      | some s => .ok (s, lexRules)
      | none => .error refusal) : Visits names action [t] := by
  intro before after
  have hafter : withLiterals before (literals [t]) = before := by
    rw [literals, List.filterMap_cons, ht]
    rfl
  rw [allKnown_singleton, hafter, hknown, hrun]
  cases found before with
  | some s =>
    constructor
    · rintro ⟨s', h⟩
      cases h
      exact ⟨⟨s, rfl⟩, rfl⟩
    · rintro ⟨-, rfl⟩
      exact ⟨s, rfl⟩
  | none => simp

theorem visits_resolve (names : List String) (t : Term) : Visits names (resolve names t) [t] := by
  cases t with
  | lex name =>
    apply visits_lookup rfl fun lexRules =>
      (lexRules.findIdx? fun r => r.name = name).map Symbol.lex
    · intro lexRules
      rw [exists_map_findIdx?_iff]
      simp [Known]
    · intro lexRules
      rw [resolve, StateT.run_bind, StateT.run_get, pure_bind]
      cases lexRules.findIdx? fun r => decide (r.name = name) <;> rfl
  | rule name =>
    apply visits_lookup rfl fun _ => (names.findIdx? (· = name)).map Symbol.rule
    · intro lexRules
      rw [exists_map_findIdx?_iff]
      simp [Known]
    · intro lexRules
      rw [resolve]
      cases names.findIdx? fun other => decide (other = name) <;> rfl
  | char c =>
    have hvisits : Visits names (literal (String.singleton c)) [.char c] :=
      visits_literal rfl fun _ => trivial
    exact hvisits.bind_pure Symbol.lex
  | spelling text =>
    have hvisits : Visits names (literal text) [.spelling text] :=
      visits_literal rfl fun _ => trivial
    exact hvisits.bind_pure Symbol.lex

mutual

/-- The terminals of an expression are resolved from left to right. -/
theorem visits_mapTerminals (names : List String) : ∀ e : Expr Term,
    Visits names (e.mapTerminals (resolve names)) e.terminals
  | .leaf marks t => (visits_resolve names t).bind_pure (Expr.leaf marks)
  | .node marks join parts =>
    (visits_mapTerminalsOfParts names parts).bind_pure (Expr.node marks join)

theorem visits_mapTerminalsOfParts (names : List String) : ∀ parts : List (Expr Term),
    Visits names (Expr.mapTerminalsOfParts (resolve names) parts) (Expr.terminalsOfParts parts)
  | [] => visits_pure names []
  | part :: rest => (visits_mapTerminals names part).bind fun part' =>
    (visits_mapTerminalsOfParts names rest).bind_pure (List.cons part')

end

/-- The bodies are resolved one after the other. -/
theorem visits_resolveBodies (names : List String) (rules : List (String × List RuleBody)) :
    Visits names (resolveBodies names rules) (leavesOf rules) := by
  induction rules with
  | nil => exact visits_pure names []
  | cons rule rest ih =>
    have hbody : (Expr.choice rule.2).simplify.terminals = rule.2.flatMap Expr.terminals := by
      rw [Expr.terminals_simplify]
      exact Expr.terminals_node ..
    have hvisits := visits_mapTerminals names (Expr.choice rule.2).simplify
    rw [hbody] at hvisits
    exact hvisits.bind fun body => ih.bind_pure (List.cons (rule.1, body))

end Declarations

end LexChart
