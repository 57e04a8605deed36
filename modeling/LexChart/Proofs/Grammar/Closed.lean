import LexChart.Proofs.Grammar.Calls
import LexChart.Proofs.Grammar.Declared
set_option autoImplicit false

/-!
# Declarations that can be built

Declarations are closed if every name in them is declared: those of ignored lex rules, that of the
start rule, and those in the bodies.  Closed declarations are built, in whatever order the rules and
their bodies come.

The converse has an exception.  A name of a lex rule is also found if it is the name of a literal
further to the left that had a lex rule made for it.  `Resolvable` allows for that, and is what
building takes; it depends on the order of the bodies.  Where no such name occurs, it is the same as
being closed.
-/

namespace LexChart.Declarations

/-- A grammar can be built. -/
def Builds (d : Declarations) : Prop := ∃ g, d.build = .ok (.ok g)

/-- Ignored lex rules are declared, and so are the start rule and the rules named in bodies. -/
structure NamesRules (d : Declarations) : Prop where
  ignored : ∀ name ∈ d.ignored, d.hasLexRule name = true
  start : ∃ name, d.start = some name ∧ d.hasRule name = true
  rule : ∀ name, .rule name ∈ d.leaves → d.hasRule name = true

/-- Every name that is used is declared. -/
structure Closed (d : Declarations) : Prop extends NamesRules d where
  lex : ∀ name, .lex name ∈ d.leaves → d.hasLexRule name = true

/-- A literal among some leaves has a lex rule of this name made for it, because no declared one
spells it. -/
def MakesName (d : Declarations) (leaves : List Term) (name : String) : Prop :=
  ∃ spelling ∈ literals leaves, ¬ Spells d.lexRules spelling ∧ literalName spelling = name

/-- Every name that is used is declared, or that of a lex rule that was made further to the left. -/
structure Resolvable (d : Declarations) : Prop extends NamesRules d where
  lex : ∀ before name after, d.leaves = before ++ .lex name :: after →
    d.hasLexRule name = true ∨ d.MakesName before name

/-- A name that is made for a literal is used only if it is declared as well. -/
def LiteralsUnnamed (d : Declarations) : Prop :=
  ∀ name, .lex name ∈ d.leaves → d.MakesName d.leaves name → d.hasLexRule name = true

/-! ## Names that resolve -/

section

variable {d : Declarations}

theorem MakesName.mono {first : List Term} {name : String} (h : d.MakesName first name)
    (second : List Term) : d.MakesName (first ++ second) name := by
  obtain ⟨spelling, hmem, h⟩ := h
  rw [MakesName, literals_append]
  exact ⟨spelling, List.mem_append_left _ hmem, h⟩

theorem Closed.resolvable (h : Closed d) : Resolvable d := by
  refine ⟨h.toNamesRules, fun before name after heq => .inl (h.lex name ?_)⟩
  rw [heq]
  exact List.mem_append_right _ List.mem_cons_self

/-- Where no lex rule that was made is called by its name, the order of the leaves does not
matter. -/
theorem resolvable_iff_closed (hunnamed : LiteralsUnnamed d) : Resolvable d ↔ Closed d := by
  refine ⟨fun h => ⟨h.toNamesRules, fun name hname => ?_⟩, Closed.resolvable⟩
  obtain ⟨before, after, heq⟩ := List.append_of_mem hname
  rcases h.lex before name after heq with hdeclared | hmade
  · exact hdeclared
  · refine hunnamed name hname ?_
    rw [heq]
    exact hmade.mono _

theorem known_iff {t : Term} {before : List Term} :
    Known (d.rules.map Prod.fst)
      (withLiterals (d.lexRules.map (ignoring d.ignored)) (literals before)) t ↔
    match t with
    | .lex name => d.hasLexRule name = true ∨ d.MakesName before name
    | .rule name => d.hasRule name = true
    | .char _ => True
    | .spelling _ => True := by
  cases t with
  | lex name =>
    show (∃ r ∈ withLiterals _ _, r.name = name) ↔ _
    rw [exists_name_withLiterals_iff, exists_name_ignoring_iff]
    simp only [spells_ignoring_iff, hasLexRule_iff, MakesName]
  | rule name => exact hasRule_iff.symm
  | char c => exact Iff.rfl
  | spelling text => exact Iff.rfl

/-- The leaves can be resolved one after the other. -/
theorem allKnown_leaves_iff :
    AllKnown (d.rules.map Prod.fst) (d.lexRules.map (ignoring d.ignored)) d.leaves ↔
      (∀ name, .rule name ∈ d.leaves → d.hasRule name = true) ∧
      ∀ before name after, d.leaves = before ++ .lex name :: after →
        d.hasLexRule name = true ∨ d.MakesName before name := by
  unfold AllKnown
  simp only [known_iff]
  constructor
  · refine fun h => ⟨fun name hname => ?_, fun before name after => h before (.lex name) after⟩
    obtain ⟨before, after, heq⟩ := List.append_of_mem hname
    exact h before (.rule name) after heq
  · rintro ⟨hrule, hlex⟩ before t after heq
    cases t with
    | lex name => exact hlex before name after heq
    | rule name =>
      refine hrule name ?_
      rw [heq]
      exact List.mem_append_right _ List.mem_cons_self
    | char c => trivial
    | spelling text => trivial

theorem exists_startRule_iff : (∃ id, d.startRule = .ok id) ↔
    ∃ name, d.start = some name ∧ d.hasRule name = true := by
  simp only [startRule_eq_ok_iff, hasRule_iff]
  rw [exists_comm]
  refine exists_congr fun name => ?_
  rw [exists_and_left, exists_findIdx?_iff]
  simp

/-- Exactly the resolvable declarations resolve to something. -/
theorem exists_resolved_iff_resolvable (declared : Declared d) :
    (∃ out, d.resolved = .ok out) ↔ Resolvable d := by
  constructor
  · rintro ⟨⟨bodies, lexRules, start⟩, h⟩
    obtain ⟨hignored, hstart, hknown, -⟩ := (exists_resolved_iff declared).1 ⟨bodies, h⟩
    obtain ⟨hrule, hlex⟩ := allKnown_leaves_iff.1 hknown
    exact ⟨⟨hignored, exists_startRule_iff.1 ⟨start, hstart⟩, hrule⟩, hlex⟩
  · intro h
    obtain ⟨start, hstart⟩ := exists_startRule_iff.2 h.start
    have hknown := allKnown_leaves_iff.2 ⟨h.rule, h.lex⟩
    obtain ⟨bodies, hresolved⟩ := (exists_resolved_iff declared).2 ⟨h.ignored, hstart, hknown, rfl⟩
    exact ⟨_, hresolved⟩

end

/-! ## Repetitions that fit in memory -/

/-- All bodies, each with the name of its rule. -/
def bodies (d : Declarations) : List (String × RuleBody) :=
  d.rules.flatMap fun rule => rule.2.map fun body => (rule.1, body)

/-- No repetition in a body is too large for any memory. -/
def RepetitionsFit (d : Declarations) : Prop :=
  ∀ body ∈ d.bodies, ∀ r ∈ body.2.repetitions, Grammar.checkRepetition r = .ok ()

theorem forM_eq_ok_iff {ε α : Type} {f : α → Except ε Unit} {xs : List α} :
    xs.forM f = .ok () ↔ ∀ x ∈ xs, f x = .ok () := by
  induction xs with
  | nil => simp [pure, Except.pure]
  | cons x xs ih =>
    show (f x >>= fun _ => xs.forM f) = .ok () ↔ _
    rw [bind_eq_ok_iff, List.forall_mem_cons, ← ih]
    constructor
    · rintro ⟨⟨⟩, hx, hxs⟩
      exact ⟨hx, hxs⟩
    · exact fun ⟨hx, hxs⟩ => ⟨(), hx, hxs⟩

theorem checkRepetition_once : Grammar.checkRepetition .once = .ok () := by
  decide

variable {d : Declarations}

/-- A repetition that is left out when a body is simplified says nothing, and fits. -/
theorem forall_checkRepetition_simplify_iff {e : RuleBody} :
    (∀ r ∈ e.simplify.repetitions, Grammar.checkRepetition r = .ok ()) ↔
      ∀ r ∈ e.repetitions, Grammar.checkRepetition r = .ok () := by
  refine forall_congr' fun r => ?_
  by_cases hr : r = .once
  · rw [hr]
    simp only [checkRepetition_once, implies_true]
  · rw [Expr.mem_repetitions_simplify hr]

theorem checkBodies_eq_ok_iff {lexRules : List LexRule} {names : List String}
    {resolved : List (String × Expr Symbol)}
    (hall : List.Forall₂ (Resolved lexRules names) d.rules resolved) :
    Grammar.checkBodies resolved = .ok () ↔ RepetitionsFit d := by
  unfold Grammar.checkBodies
  have hrepetitions : ∀ rule body, Resolved lexRules names rule body →
      body.2.repetitions = (Expr.choice rule.2).simplify.repetitions :=
    fun _ _ h => h.related.repetitions_eq
  have hrule : ∀ rule : String × List RuleBody,
      (∀ r ∈ (Expr.choice rule.2).simplify.repetitions, Grammar.checkRepetition r = .ok ()) ↔
        ∀ body ∈ rule.2, ∀ r ∈ body.repetitions, Grammar.checkRepetition r = .ok () := by
    intro rule
    rw [forall_checkRepetition_simplify_iff, Expr.choice, Expr.repetitions_node,
      List.forall_mem_cons]
    simp only [checkRepetition_once, true_and, List.mem_flatMap, forall_exists_index, and_imp]
    exact ⟨fun h body hbody r hr => h r body hbody hr, fun h r body hbody hr => h body hbody r hr⟩
  have hfits : RepetitionsFit d ↔ ∀ rule ∈ d.rules, ∀ r ∈ (Expr.choice rule.2).simplify.repetitions,
      Grammar.checkRepetition r = .ok () := by
    simp only [hrule]
    unfold RepetitionsFit bodies
    simp only [List.mem_flatMap, List.mem_map]
    constructor
    · exact fun h rule hrule body hbody => h (rule.1, body) ⟨rule, hrule, body, hbody, rfl⟩
    · rintro h _ ⟨rule, hrule, body, hbody, rfl⟩
      exact h rule hrule body hbody
  rw [forM_eq_ok_iff, hfits]
  simp only [List.mem_flatMap, forall_exists_index, and_imp]
  constructor
  · intro h rule hrule r hr
    obtain ⟨body, hbody, hresolved⟩ := forall₂_mem_left hall hrule
    rw [← hrepetitions rule body hresolved] at hr
    exact h r body hbody hr
  · intro h r body hbody hr
    obtain ⟨rule, hrule, hresolved⟩ := forall₂_mem_right hall hbody
    rw [hrepetitions rule body hresolved] at hr
    exact h rule hrule r hr

/-- A grammar is built from exactly the resolvable declarations whose repetitions fit. -/
theorem builds_iff (declared : Declared d) : Builds d ↔ Resolvable d ∧ RepetitionsFit d := by
  rw [← exists_resolved_iff_resolvable declared]
  constructor
  · rintro ⟨g, h⟩
    obtain ⟨resolved, hresolved, hcheck, -⟩ := build_eq_ok_iff.1 h
    have hall := (forall₂_of_resolved declared hresolved).1
    exact ⟨⟨_, hresolved⟩, (checkBodies_eq_ok_iff hall).1 hcheck⟩
  · rintro ⟨⟨⟨resolved, lexRules, start⟩, hresolved⟩, hfit⟩
    have hall := (forall₂_of_resolved declared hresolved).1
    refine ⟨⟨lexRules, Grammar.markNullable (Grammar.flatten resolved), start⟩, ?_⟩
    exact build_eq_ok_iff.2 ⟨resolved, hresolved, (checkBodies_eq_ok_iff hall).2 hfit, rfl⟩

/-- All others are refused because of a name. -/
theorem refused_iff (declared : Declared d) :
    (∃ refusal, d.build = .ok (.error refusal)) ↔ ¬ Resolvable d := by
  rw [← exists_resolved_iff_resolvable declared]
  unfold build
  cases d.resolved with
  | error refusal => simp
  | ok out =>
    simp only [Except.ok.injEq, exists_eq', not_true_eq_false, iff_false]
    rintro ⟨refusal, h⟩
    obtain ⟨_, -, h⟩ := bind_eq_ok_iff.1 h
    cases h

/-! ## The order of declarations -/

/-- The same is declared in another order. -/
structure Reordered (d e : Declarations) : Prop where
  lexRules : (d.lexRules.map fun r => (r.name, r.spelling)).Perm
    (e.lexRules.map fun r => (r.name, r.spelling))
  ignored : d.ignored.Perm e.ignored
  start : d.start = e.start
  bodies : d.bodies.Perm e.bodies

theorem mem_leaves_iff {t : Term} : t ∈ d.leaves ↔ ∃ body ∈ d.bodies, t ∈ body.2.terminals := by
  simp only [leaves, leavesOf, bodies, List.mem_flatMap, List.mem_map]
  constructor
  · rintro ⟨rule, hrule, body, hbody, ht⟩
    exact ⟨_, ⟨rule, hrule, body, hbody, rfl⟩, ht⟩
  · rintro ⟨_, ⟨rule, hrule, body, hbody, rfl⟩, ht⟩
    exact ⟨rule, hrule, body, hbody, ht⟩

theorem forall_ne_nil_appendBody {name : String} {body : RuleBody}
    {rules : List (String × List RuleBody)} (h : ∀ rule ∈ rules, rule.2 ≠ []) :
    ∀ rule ∈ appendBody name body rules, rule.2 ≠ [] := by
  induction rules with
  | nil => simp [appendBody]
  | cons rule rest ih =>
    obtain ⟨hrule, hrest⟩ := List.forall_mem_cons.1 h
    unfold appendBody
    split
    · exact List.forall_mem_cons.2 ⟨by simp, hrest⟩
    · exact List.forall_mem_cons.2 ⟨hrule, ih hrest⟩

/-- A rule is declared with its first body. -/
theorem Declared.ne_nil (h : Declared d) : ∀ rule ∈ d.rules, rule.2 ≠ [] :=
  h.keeps (fun d => ∀ rule ∈ d.rules, rule.2 ≠ []) (fun _ hrule => nomatch hrule)
    (fun _ _ _ _ ih _ _ => ih) (fun _ _ _ ih _ => forall_ne_nil_appendBody ih) (fun _ _ ih => ih)
    fun _ _ ih => ih

theorem hasRule_iff_bodies (declared : Declared d) {name : String} :
    d.hasRule name = true ↔ ∃ body, (name, body) ∈ d.bodies := by
  simp only [hasRule_iff, bodies, List.mem_flatMap, List.mem_map]
  constructor
  · rintro ⟨rule, hrule, rfl⟩
    obtain ⟨body, hbody⟩ := List.exists_mem_of_ne_nil _ (declared.ne_nil rule hrule)
    exact ⟨body, rule, hrule, body, hbody, rfl⟩
  · rintro ⟨_, rule, hrule, body, _, heq⟩
    exact ⟨rule, hrule, congrArg Prod.fst heq⟩

namespace Reordered

variable {e : Declarations}

theorem symm (h : Reordered d e) : Reordered e d :=
  ⟨h.lexRules.symm, h.ignored.symm, h.start.symm, h.bodies.symm⟩

theorem exists_lexRule (h : Reordered d e) {r : LexRule} (hr : r ∈ d.lexRules) :
    ∃ r' ∈ e.lexRules, r'.name = r.name ∧ r'.spelling = r.spelling := by
  have hmem := h.lexRules.mem_iff.1 (List.mem_map_of_mem (f := fun r => (r.name, r.spelling)) hr)
  obtain ⟨r', hr', heq⟩ := List.mem_map.1 hmem
  exact ⟨r', hr', Prod.mk.inj heq⟩

theorem hasLexRule (h : Reordered d e) {name : String} (hname : d.hasLexRule name = true) :
    e.hasLexRule name = true := by
  obtain ⟨r, hr, rfl⟩ := hasLexRule_iff.1 hname
  obtain ⟨r', hr', hname', -⟩ := h.exists_lexRule hr
  exact hasLexRule_iff.2 ⟨r', hr', hname'⟩

theorem hasRule (h : Reordered d e) (declared : Declared d) (declared' : Declared e)
    {name : String} (hname : d.hasRule name = true) : e.hasRule name = true := by
  obtain ⟨body, hbody⟩ := (hasRule_iff_bodies declared).1 hname
  exact (hasRule_iff_bodies declared').2 ⟨body, h.bodies.mem_iff.1 hbody⟩

theorem mem_leaves (h : Reordered d e) {t : Term} (ht : t ∈ d.leaves) : t ∈ e.leaves := by
  obtain ⟨body, hbody, ht⟩ := mem_leaves_iff.1 ht
  exact mem_leaves_iff.2 ⟨body, h.bodies.mem_iff.1 hbody, ht⟩

theorem makesName (h : Reordered d e) {name : String} (hmade : d.MakesName d.leaves name) :
    e.MakesName e.leaves name := by
  obtain ⟨spelling, hspelling, hfree, hname⟩ := hmade
  obtain ⟨t, ht, hliteral⟩ := List.mem_filterMap.1 hspelling
  refine ⟨spelling, List.mem_filterMap.2 ⟨t, h.mem_leaves ht, hliteral⟩, ?_, hname⟩
  rintro ⟨r, hr, heq⟩
  obtain ⟨r', hr', -, heq'⟩ := h.symm.exists_lexRule hr
  exact hfree ⟨r', hr', heq'.trans heq⟩

theorem literalsUnnamed (h : Reordered d e) (hunnamed : LiteralsUnnamed d) : LiteralsUnnamed e :=
  fun name hname hmade =>
    h.hasLexRule (hunnamed name (h.symm.mem_leaves hname) (h.symm.makesName hmade))

theorem closed (h : Reordered d e) (declared : Declared d) (declared' : Declared e)
    (hclosed : Closed d) : Closed e := by
  refine ⟨⟨?ignored, ?start, ?rule⟩, ?lex⟩
  case ignored =>
    exact fun name hname => h.hasLexRule (hclosed.ignored name (h.ignored.mem_iff.2 hname))
  case start =>
    obtain ⟨name, hstart, hname⟩ := hclosed.start
    exact ⟨name, h.start.symm.trans hstart, h.hasRule declared declared' hname⟩
  case rule =>
    exact fun name hname =>
      h.hasRule declared declared' (hclosed.rule name (h.symm.mem_leaves hname))
  case lex => exact fun name hname => h.hasLexRule (hclosed.lex name (h.symm.mem_leaves hname))

theorem repetitionsFit (h : Reordered d e) (hfit : RepetitionsFit d) : RepetitionsFit e :=
  fun body hbody => hfit body (h.bodies.mem_iff.2 hbody)

/-- Where no lex rule that was made is called by its name, the order does not matter. -/
theorem builds (h : Reordered d e) (declared : Declared d) (declared' : Declared e)
    (hunnamed : LiteralsUnnamed d) (hbuilds : Builds d) : Builds e := by
  obtain ⟨hresolvable, hfit⟩ := (builds_iff declared).1 hbuilds
  have hclosed := (resolvable_iff_closed hunnamed).1 hresolvable
  exact (builds_iff declared').2
    ⟨(h.closed declared declared' hclosed).resolvable, h.repetitionsFit hfit⟩

end Reordered

/-- After any calls a grammar is built exactly if every name resolves and every repetition fits, and
it is refused exactly if some name does not.  Closed declarations resolve.  Where no lex rule that
was made for a literal is called by its name, no others do, and the order of the declarations does
not matter. -/
theorem builds_iff_closed (calls : List Call) :
    (Builds (declaredBy calls) ↔
      Resolvable (declaredBy calls) ∧ RepetitionsFit (declaredBy calls)) ∧
    ((∃ refusal, (declaredBy calls).build = .ok (.error refusal)) ↔
      ¬ Resolvable (declaredBy calls)) ∧
    (Closed (declaredBy calls) → Resolvable (declaredBy calls)) ∧
    (LiteralsUnnamed (declaredBy calls) →
      (Resolvable (declaredBy calls) ↔ Closed (declaredBy calls)) ∧
      ∀ others, Reordered (declaredBy calls) (declaredBy others) →
        (Builds (declaredBy calls) ↔ Builds (declaredBy others))) := by
  have declared := declared_declaredBy calls
  refine ⟨builds_iff declared, refused_iff declared, Closed.resolvable, fun hunnamed =>
    ⟨resolvable_iff_closed hunnamed, fun others reordered => ?_⟩⟩
  have declared' := declared_declaredBy others
  constructor
  · exact reordered.builds declared declared' hunnamed
  · exact reordered.symm.builds declared' declared (reordered.literalsUnnamed hunnamed)

/-- A rule with two bodies of one leaf each, to start from. -/
def oneOf (first second : Term) : List Call :=
  [.rule "s" (.terminal first), .rule "s" (.terminal second), .setStart "s"]

/-- The two bodies behind a lex rule for a letter. -/
def letterOneOf (first second : Term) : List Call := .lexChar "letter" 'b' :: oneOf first second

theorem reordered_oneOf (first second : Term) :
    Reordered (declaredBy (oneOf first second)) (declaredBy (oneOf second first)) :=
  ⟨.nil, .nil, rfl, .swap _ _ _⟩

theorem reordered_letterOneOf (first second : Term) :
    Reordered (declaredBy (letterOneOf first second)) (declaredBy (letterOneOf second first)) :=
  ⟨.refl _, .nil, rfl, .swap _ _ _⟩

/-- A literal and a lex rule that is declared can stand in either order. -/
theorem builds_oneOf_literals :
    Builds (declaredBy (letterOneOf (.char 'a') (.lex "letter"))) ∧
    Closed (declaredBy (letterOneOf (.char 'a') (.lex "letter"))) ∧
    Builds (declaredBy (letterOneOf (.lex "letter") (.char 'a'))) := by
  have hleaves : (declaredBy (letterOneOf (.char 'a') (.lex "letter"))).leaves =
      [.char 'a', .lex "letter"] := rfl
  have hunnamed : LiteralsUnnamed (declaredBy (letterOneOf (.char 'a') (.lex "letter"))) := by
    intro name hname _
    obtain rfl : name = "letter" := by simpa [hleaves] using hname
    rfl
  have hbuilds : Builds (declaredBy (letterOneOf (.char 'a') (.lex "letter"))) := ⟨_, rfl⟩
  obtain ⟨hiff, -, -, horders⟩ := builds_iff_closed (letterOneOf (.char 'a') (.lex "letter"))
  obtain ⟨hclosed, horder⟩ := horders hunnamed
  exact ⟨hbuilds, hclosed.1 (hiff.1 hbuilds).1, (horder _ (reordered_letterOneOf _ _)).1 hbuilds⟩

/-- The name of a literal is found behind the literal, although no lex rule of this name is
declared, and not in front of it. -/
theorem builds_oneOf_quoted :
    Builds (declaredBy (oneOf (.char 'a') (.lex "'a'"))) ∧
    ¬ Closed (declaredBy (oneOf (.char 'a') (.lex "'a'"))) ∧
    Reordered (declaredBy (oneOf (.char 'a') (.lex "'a'")))
      (declaredBy (oneOf (.lex "'a'") (.char 'a'))) ∧
    ¬ Builds (declaredBy (oneOf (.lex "'a'") (.char 'a'))) := by
  refine ⟨⟨_, rfl⟩, fun h => ?_, reordered_oneOf _ _, ?_⟩
  · have hdeclared := h.lex "'a'" (List.mem_cons_of_mem _ List.mem_cons_self)
    cases hdeclared
  · have hrefused : (declaredBy (oneOf (.lex "'a'") (.char 'a'))).build =
        .ok (.error ⟨.unknownLexRule "'a'", none⟩) := rfl
    rintro ⟨g, h⟩
    rw [hrefused] at h
    cases h

end LexChart.Declarations
