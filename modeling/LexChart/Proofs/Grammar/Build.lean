import LexChart.Grammar.Derivation
import LexChart.Proofs.Grammar.Flatten
import LexChart.Proofs.Grammar.Nullable
import LexChart.Proofs.Grammar.Resolve
set_option autoImplicit false

/-!
# Grammars generate what is declared

A rule of a grammar that was built generates the words of the rule as it was declared.  The words
that the rules generate fit the declarations, because they are closed under the productions; and
languages that fit extend to an interpretation of all rules that is closed, which the generated
words lie in.  A grammar that was built is also well-formed.
-/

namespace LexChart

namespace Grammar

/-- Marking the nullable rules changes nothing else. -/
theorem map_markNullable {α : Type} {f : Rule → α} (rules : List Rule)
    (hf : ∀ (r : Rule) (nullable : Bool), f { r with nullable := nullable } = f r) :
    (markNullable rules).map f = rules.map f := by
  unfold markNullable
  rw [List.map_map]
  conv_rhs => rw [← List.zipIdx_map_fst 0 rules, List.map_map]
  exact List.map_congr_left fun marked _ => hf marked.1 _

theorem markNullable_eq (rules : List Rule) : (markNullable rules).map Rule.productions =
    rules.map Rule.productions :=
  map_markNullable rules fun _ _ => rfl

theorem flatMap_productions_markNullable (rules : List Rule) :
    (markNullable rules).flatMap Rule.productions = rules.flatMap Rule.productions := by
  rw [List.flatMap_def, List.flatMap_def, markNullable_eq]

theorem getElem?_markNullable_eq (rules : List Rule) (id : Nat) : (markNullable rules)[id]? =
    rules[id]?.map fun r => { r with nullable := decide (id ∈ nullables rules) } := by
  unfold markNullable
  rw [List.getElem?_map, List.getElem?_zipIdx, Option.map_map, Nat.zero_add]
  rfl

theorem getElem?_markNullable {rules : List Rule} {id : Nat} {r : Rule}
    (h : (markNullable rules)[id]? = some r) :
    ∃ r', rules[id]? = some r' ∧ r.id = r'.id ∧ r.productions = r'.productions ∧
      r.nullable = decide (id ∈ nullables rules) := by
  rw [getElem?_markNullable_eq] at h
  obtain ⟨r', hr', rfl⟩ := Option.map_eq_some_iff.1 h
  exact ⟨r', hr', rfl, rfl, rfl⟩

theorem getElem?_markNullable_of {rules : List Rule} {id : Nat} {r : Rule}
    (h : rules[id]? = some r) : ∃ r', (markNullable rules)[id]? = some r' ∧ r'.name = r.name := by
  rw [getElem?_markNullable_eq, h]
  exact ⟨_, rfl, rfl⟩

theorem length_markNullable (rules : List Rule) : (markNullable rules).length = rules.length := by
  simp [markNullable]

end Grammar

namespace Declarations

variable {d : Declarations} {g : Grammar}

/-! ## Well-formed grammars -/

/-- The symbols in resolved bodies are in range. -/
theorem within_of_resolved {names : List String} {lexRules : List LexRule}
    {rules : List (String × List RuleBody)} {bodies : List (String × Expr Symbol)}
    (h : List.Forall₂ (Resolved lexRules names) rules bodies) :
    ∀ b ∈ bodies, ∀ s ∈ b.2.terminals, s.Within lexRules.length names.length := by
  intro b hb
  obtain ⟨rule, -, hresolved⟩ := forall₂_mem_right h hb
  exact Expr.Related.forall_terminals (fun _ _ href => Refers.within href) _ _ hresolved.related

/-- The symbols in the bodies are in range of the rules that they are flattened for. -/
theorem within_bodies {bodies : List (String × Expr Symbol)}
    (hall : List.Forall₂ (Resolved g.lexRules (d.rules.map Prod.fst)) d.rules bodies) :
    ∀ b ∈ bodies, ∀ s ∈ b.2.terminals, s.Within g.lexRules.length bodies.length := by
  have hwithin := within_of_resolved hall
  rwa [List.length_map, hall.length_eq] at hwithin

/-- In a grammar that was built all numbers are those of rules and lex rules. -/
theorem wellFormed_of_build (declared : Declared d) (h : d.build = .ok (.ok g)) : g.WellFormed := by
  obtain ⟨bodies, hall, hnumbered, hstart, hrules⟩ := exists_resolved_of_build declared h
  have hwithin := within_bodies hall
  have hrule : ∀ (id : Nat) (r : Rule), g.rules[id]? = some r → r.id = id ∧
      (∀ p ∈ r.productions, p.lhs = r.id) ∧
      ∀ p ∈ r.productions, ∀ s ∈ p.rhs, s.Within g.lexRules.length g.rules.length := by
    intro id r hr
    rw [hrules] at hr
    obtain ⟨r', hr', hid, hproductions, -⟩ := Grammar.getElem?_markNullable hr
    rw [hid, hproductions, hrules, Grammar.length_markNullable]
    obtain ⟨hnumber, -, hproductions⟩ := Grammar.getElem?_flatten hwithin hr'
    exact ⟨hnumber, hproductions⟩
  have hsymbols : ∀ p ∈ g.productions, ∀ s ∈ p.rhs, s.Within g.lexRules.length g.rules.length := by
    intro p hp
    obtain ⟨r, hr, hp⟩ := List.mem_flatMap.1 hp
    obtain ⟨id, hid⟩ := List.mem_iff_getElem?.1 hr
    exact (hrule id r hid).2.2 p hp
  constructor
  case lexRule_id => exact hnumbered
  case rule_id => exact fun id r hr => (hrule id r hr).1
  case lhs =>
    intro r hr
    obtain ⟨id, hid⟩ := List.mem_iff_getElem?.1 hr
    exact (hrule id r hid).2.1
  case lex_lt => exact fun p hp id hid => hsymbols p hp (.lex id) hid
  case rule_lt => exact fun p hp id hid => hsymbols p hp (.rule id) hid
  case start_lt =>
    obtain ⟨r, hr, -⟩ := Grammar.getElem?_flatten_of_body hwithin (List.getElem?_eq_getElem hstart)
    rw [hrules, Grammar.length_markNullable]
    exact (List.getElem?_eq_some_iff.1 hr).1

/-- In a grammar that was built the nullable rules are those that generate the empty sequence. -/
theorem nullable_iff_of_build (declared : Declared d) (h : d.build = .ok (.ok g)) {id : Nat}
    {r : Rule} (hr : g.rules[id]? = some r) : r.nullable = true ↔ g.Generates id [] := by
  obtain ⟨bodies, hall, -, -, hrules⟩ := exists_resolved_of_build declared h
  have hproductions : g.productions = (Grammar.flatten bodies).flatMap Rule.productions := by
    rw [Grammar.productions, hrules, Grammar.flatMap_productions_markNullable]
  rw [hrules] at hr
  obtain ⟨r', hr', -, -, hnullable⟩ := Grammar.getElem?_markNullable hr
  have hwithin := within_bodies hall
  rw [hnullable, decide_eq_true_iff]
  refine Grammar.mem_nullables_iff (fun r hr => ?_) (fun k r hk p hp => ?_) hproductions
  · obtain ⟨k, hk⟩ := List.mem_iff_getElem?.1 hr
    exact (Grammar.getElem?_flatten hwithin hk).2.1
  · obtain ⟨hid, -, hlhs, -⟩ := Grammar.getElem?_flatten hwithin hk
    exact (hlhs p hp).trans hid

/-! ## Declared languages -/

/-- The words of every declared rule are exactly those of its bodies. -/
def Meaning.Solves (meaning : Meaning) (d : Declarations) (lexRules : List LexRule) : Prop :=
  ∀ name bodies, (name, bodies) ∈ d.rules → ∀ w,
    w ∈ meaning name ↔ ∃ body ∈ bodies, w ∈ body.language (termLanguage lexRules meaning)

theorem termLanguage_mono {lexRules : List LexRule} {meaning meaning' : Meaning}
    (h : ∀ name, meaning name ≤ meaning' name) (t : Term) :
    termLanguage lexRules meaning t ≤ termLanguage lexRules meaning' t := by
  cases t with
  | lex name => exact le_refl _
  | rule name => exact h name
  | char c => exact le_refl _
  | spelling text => exact le_refl _

theorem fits_language (d : Declarations) (lexRules : List LexRule) :
    Meaning.Fits (d.language lexRules) d lexRules := by
  intro name bodies hrule body hbody w hw meaning hfits
  have hle : ∀ name, d.language lexRules name ≤ meaning name :=
    fun name w hw => mem_of_mem_language hfits hw
  exact hfits name bodies hrule body hbody w (Expr.language_mono (termLanguage_mono hle) body hw)

theorem bodies_eq_of_mem (hnodup : (d.rules.map Prod.fst).Nodup) {name : String}
    {bodies bodies' : List RuleBody} (h : (name, bodies) ∈ d.rules)
    (h' : (name, bodies') ∈ d.rules) :
    bodies = bodies' :=
  congrArg Prod.snd (List.inj_on_of_nodup_map hnodup h h' rfl)

/-- The declared languages are a solution: one unfolding of the bodies gives nothing more. -/
theorem solves_language (hnodup : (d.rules.map Prod.fst).Nodup) (lexRules : List LexRule) :
    Meaning.Solves (d.language lexRules) d lexRules := by
  intro name bodies hrule w
  constructor
  · intro hw
    let unfolded : Meaning := fun name => {w | ∃ bodies, (name, bodies) ∈ d.rules ∧
      ∃ body ∈ bodies, w ∈ body.language (termLanguage lexRules (d.language lexRules))}
    have hle : ∀ name, unfolded name ≤ d.language lexRules name := by
      rintro name w ⟨bodies, hrule, body, hbody, hw⟩
      exact fits_language d lexRules name bodies hrule body hbody w hw
    have hfits : unfolded.Fits d lexRules := fun name bodies hrule body hbody w hw =>
      ⟨bodies, hrule, body, hbody, Expr.language_mono (termLanguage_mono hle) body hw⟩
    obtain ⟨bodies', hrule', hbody⟩ := mem_of_mem_language hfits hw
    rwa [bodies_eq_of_mem hnodup hrule hrule']
  · rintro ⟨body, hbody, hw⟩
    exact fits_language d lexRules name bodies hrule body hbody w hw

theorem Meaning.Solves.fits {meaning : Meaning} {lexRules : List LexRule}
    (h : meaning.Solves d lexRules) : meaning.Fits d lexRules :=
  fun name bodies hrule body hbody w hw => (h name bodies hrule w).2 ⟨body, hbody, hw⟩

/-! ## Generated languages -/

/-- The words of the rules by their names, given those by their numbers. -/
def meaningOf (names : List String) (i : Interpretation) : Meaning := fun name =>
  {w | ∃ id, names.findIdx? (· = name) = some id ∧ w ∈ i id}

/-- The words of the rules by their numbers, given those by their names. -/
def interpretationOf (names : List String) (meaning : Meaning) : Interpretation := fun id =>
  {w | ∃ name, names[id]? = some name ∧ w ∈ meaning name}

theorem matches_meaningOf (names : List String) (i : Interpretation) :
    (meaningOf names i).Matches names i := by
  intro name id hid
  ext w
  constructor
  · rintro ⟨id', hid', hw⟩
    rw [hid] at hid'
    cases hid'
    exact hw
  · exact fun hw => ⟨id, hid, hw⟩

theorem matches_interpretationOf (names : List String) (meaning : Meaning) :
    meaning.Matches names (interpretationOf names meaning) := by
  intro name id hid
  obtain ⟨hlt, heq, -⟩ := List.findIdx?_eq_some_iff_getElem.1 hid
  have hname : names[id]? = some name :=
    List.getElem?_eq_some_iff.2 ⟨hlt, of_decide_eq_true heq⟩
  ext w
  constructor
  · exact fun hw => ⟨name, hname, hw⟩
  · rintro ⟨name', hname', hw⟩
    rw [hname] at hname'
    cases hname'
    exact hw

theorem findIdx?_of_nodup {names : List String} (hnodup : names.Nodup) {id : Nat} {name : String}
    (h : names[id]? = some name) : names.findIdx? (· = name) = some id := by
  obtain ⟨hlt, rfl⟩ := List.getElem?_eq_some_iff.1 h
  rw [List.findIdx?_eq_some_iff_getElem]
  refine ⟨hlt, by simp, fun j hj => ?_⟩
  rw [decide_eq_true_iff]
  intro heq
  exact absurd ((List.Nodup.getElem_inj_iff hnodup).1 heq) (Nat.ne_of_lt hj)

section

variable {bodies : List (String × Expr Symbol)}

theorem findIdx?_of_rule (hnodup : (d.rules.map Prod.fst).Nodup) {id : Nat}
    {rule : String × List RuleBody} (hrule : d.rules[id]? = some rule) :
    (d.rules.map Prod.fst).findIdx? (· = rule.1) = some id := by
  refine findIdx?_of_nodup hnodup ?_
  rw [List.getElem?_map, hrule]
  rfl

/-- The words that the rules generate fit the declarations. -/
theorem fits_generated (hnodup : (d.rules.map Prod.fst).Nodup)
    (hall : List.Forall₂ (Resolved g.lexRules (d.rules.map Prod.fst)) d.rules bodies)
    (hproductions : g.productions = (Grammar.flatten bodies).flatMap Rule.productions) :
    (meaningOf (d.rules.map Prod.fst) g.generated).Fits d g.lexRules := by
  have hmatches := matches_meaningOf (d.rules.map Prod.fst) g.generated
  have closed := g.closed_generated
  rw [hproductions] at closed
  intro name declared hmem body hbody w hw
  obtain ⟨id, hrule⟩ := List.mem_iff_getElem?.1 hmem
  obtain ⟨resolved, hresolved, hwords⟩ := forall₂_getElem?_left hall hrule
  rw [hmatches name id (findIdx?_of_rule hnodup hrule)]
  exact Grammar.language_le_of_closed_flatten (within_bodies hall) closed hresolved
    ((hwords.mem_language_iff hmatches).2 ⟨body, hbody, hw⟩)

/-- Languages that fit the declarations have all words that the rules generate: they extend to all
rules, and the generated words lie in the extension. -/
theorem generated_le_of_fits (hnodup : (d.rules.map Prod.fst).Nodup)
    (hall : List.Forall₂ (Resolved g.lexRules (d.rules.map Prod.fst)) d.rules bodies)
    (hproductions : g.productions = (Grammar.flatten bodies).flatMap Rule.productions)
    {meaning : Meaning} (hfits : meaning.Fits d g.lexRules) {id : Nat}
    {rule : String × List RuleBody} (hrule : d.rules[id]? = some rule) :
    g.generated id ≤ meaning rule.1 := by
  have hmatches := matches_interpretationOf (d.rules.map Prod.fst) meaning
  set i := interpretationOf (d.rules.map Prod.fst) meaning
  have hle : ∀ (id : Nat) (body : String × Expr Symbol), bodies[id]? = some body →
      body.2.language i.symbol ≤ i id := by
    intro id resolved hresolved w hw
    obtain ⟨declared, hdeclared, hwords⟩ := forall₂_getElem?_right hall hresolved
    obtain ⟨body, hbody, hw⟩ := (hwords.mem_language_iff hmatches).1 hw
    rw [← hmatches declared.1 id (findIdx?_of_rule hnodup hdeclared)]
    exact hfits declared.1 declared.2 (List.mem_of_getElem? hdeclared) body hbody w hw
  obtain ⟨j, agrees, closed⟩ := Grammar.exists_closed_flatten (within_bodies hall) hle
  rw [← hproductions] at closed
  have hlt : id < bodies.length := by
    rw [← hall.length_eq]
    exact (List.getElem?_eq_some_iff.1 hrule).1
  rw [hmatches rule.1 id (findIdx?_of_rule hnodup hrule), ← agrees id hlt]
  exact Grammar.generated_le closed id

end

/-- Each rule of a grammar that was built generates its declared language, and the declared
languages are the least solution of the bodies. -/
theorem generates_iff_mem_language (declared : Declared d) (h : d.build = .ok (.ok g)) {id : Nat}
    {name : String} {bodies : List RuleBody} (hrule : d.rules[id]? = some (name, bodies)) :
    (∃ r, g.rules[id]? = some r ∧ r.name = name) ∧
    (∀ w, g.Generates id w ↔ w ∈ d.language g.lexRules name) ∧
    Meaning.Solves (d.language g.lexRules) d g.lexRules ∧
    ∀ meaning : Meaning, meaning.Solves d g.lexRules →
      ∀ name, d.language g.lexRules name ≤ meaning name := by
  obtain ⟨resolved, hall, -, -, hrules⟩ := exists_resolved_of_build declared h
  have hnodup := declared.numbered_nodup.2
  have hproductions : g.productions = (Grammar.flatten resolved).flatMap Rule.productions := by
    rw [Grammar.productions, hrules, Grammar.flatMap_productions_markNullable]
  refine ⟨?_, fun w => ⟨fun hw meaning hfits => ?_, fun hw => ?_⟩, solves_language hnodup _,
    fun meaning hsolves name w hw => mem_of_mem_language hsolves.fits hw⟩
  · obtain ⟨body, hbody, hresolved⟩ := forall₂_getElem?_left hall hrule
    obtain ⟨r, hr, hname⟩ := Grammar.getElem?_flatten_of_body (within_bodies hall) hbody
    obtain ⟨marked, hmarked, heq⟩ := Grammar.getElem?_markNullable_of hr
    rw [hrules]
    exact ⟨marked, hmarked, heq.trans (hname.trans hresolved.name_eq)⟩
  · exact generated_le_of_fits hnodup hall hproductions hfits hrule hw
  · have hmem := mem_of_mem_language (fits_generated hnodup hall hproductions) hw
    rwa [matches_meaningOf _ g.generated name id (findIdx?_of_rule hnodup hrule)] at hmem

/-- Any number of groups, each of them balanced between two parentheses. -/
def balancedBody : RuleBody := .node { repetition := .star } .sequence
  [.terminal (.char '('), .terminal (.rule "s"), .terminal (.char ')')]

/-- Balanced parentheses. -/
def balanced : Declarations := { rules := [("s", [balancedBody])], start := some "s" }

theorem declared_balanced : Declared balanced := by
  have hadd : empty.addRule "s" balancedBody = .ok { rules := [("s", [balancedBody])] } := rfl
  exact (Declared.empty.rule hadd).start "s"

/-- The grammar of balanced parentheses generates them, repetitions and literals included. -/
theorem generates_iff_balanced : ∃ g, balanced.build = .ok (.ok g) ∧
    ∀ w, g.Generates 0 w ↔ w ∈ balanced.language g.lexRules "s" := by
  refine ⟨_, rfl, ?_⟩
  have hrule : balanced.rules[0]? = some ("s", [balancedBody]) := rfl
  exact (generates_iff_mem_language declared_balanced rfl hrule).2.1

end Declarations

end LexChart
