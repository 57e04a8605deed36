import LexChart.Proofs.Grammar.Literals
set_option autoImplicit false

/-!
# What declarations resolve to

Names of lex rules and of rules are kept apart as they are declared.  So the first lex rule of an
ignored name is the only one, and what declarations resolve to is known in full: the lex rules are
the declared ones, ignored if their names are, and behind them one for each literal that needs one.
`exists_resolved_iff` says so, and when the names can be resolved at all.
-/

namespace LexChart.Declarations

/-! ## Names and lex rules as they are declared -/

/-- The names of all lex rules and rules. -/
def names (d : Declarations) : List String := d.lexRules.map LexRule.name ++ d.rules.map Prod.fst

theorem hasLexRule_iff {d : Declarations} {name : String} :
    d.hasLexRule name = true ↔ ∃ r ∈ d.lexRules, r.name = name := by
  simp [hasLexRule]

theorem hasRule_iff {d : Declarations} {name : String} :
    d.hasRule name = true ↔ name ∈ d.rules.map Prod.fst := by
  simp [hasRule]

/-- A name that is free for a lex rule is not in use. -/
theorem notMem_names_of_checkLexName {d : Declarations} {name : String}
    (h : d.checkLexName name = .ok ()) : name ∉ d.names := by
  unfold checkLexName at h
  rw [names, List.mem_append, List.mem_map, ← hasLexRule_iff, ← hasRule_iff]
  split at h
  · cases h
  · split at h
    · cases h
    · rename_i hlex hrule
      exact fun hor => hor.elim hlex hrule

theorem nodup_names_appendLexRule {d : Declarations} {name : String} (h : d.names.Nodup)
    (hcheck : d.checkLexName name = .ok ()) (pattern : Pattern) (spelling : Option String) :
    ((appendLexRule d.lexRules name pattern spelling).map LexRule.name ++
      d.rules.map Prod.fst).Nodup := by
  have hfree := notMem_names_of_checkLexName hcheck
  have hperm : ((appendLexRule d.lexRules name pattern spelling).map LexRule.name ++
      d.rules.map Prod.fst).Perm (name :: d.names) := by
    unfold appendLexRule names
    rw [List.map_append, List.map_singleton, List.append_assoc, List.singleton_append]
    exact List.perm_middle
  exact hperm.nodup_iff.2 (List.nodup_cons.2 ⟨hfree, h⟩)

theorem nodup_names_appendBody {d : Declarations} {name : String} (h : d.names.Nodup)
    (hlex : d.hasLexRule name ≠ true) (body : RuleBody) :
    (d.lexRules.map LexRule.name ++ (appendBody name body d.rules).map Prod.fst).Nodup := by
  rw [map_fst_appendBody]
  split
  · exact h
  · rename_i hrule
    have hfree : name ∉ d.names := by
      rw [names, List.mem_append, List.mem_map, ← hasLexRule_iff]
      exact fun hor => hor.elim hlex hrule
    rw [← List.append_assoc]
    exact List.nodup_append.2 ⟨h, List.nodup_singleton _, fun a ha b hb heq =>
      hfree (List.mem_singleton.1 hb ▸ heq ▸ ha)⟩

/-- No two names of lex rules or rules are the same. -/
theorem Declared.nodup_names {d : Declarations} (h : Declared d) : d.names.Nodup := by
  refine h.keeps (fun d => d.names.Nodup) List.nodup_nil ?lexRule ?rule (fun _ _ ih => ih)
    fun _ _ ih => ih
  case lexRule =>
    exact fun d name pattern spelling ih hcheck _ => nodup_names_appendLexRule ih hcheck _ _
  case rule => exact fun d name body ih hlex => nodup_names_appendBody ih hlex body

/-- A lex rule as it is declared: not ignored yet, and with the pattern of its text if it has
one. -/
structure Fresh (r : LexRule) : Prop where
  not_ignored : r.ignored = false
  pattern_eq : ∀ spelling, r.spelling = some spelling → r.pattern = .ofSpelling spelling.toList

theorem Declared.fresh {d : Declarations} (h : Declared d) : ∀ r ∈ d.lexRules, Fresh r := by
  refine h.keeps (fun d => ∀ r ∈ d.lexRules, Fresh r) (fun r hr => nomatch hr) ?lexRule
    (fun _ _ _ ih _ => ih) (fun _ _ ih => ih) fun _ _ ih => ih
  intro d name pattern spelling ih _ hpattern r hr
  rcases List.mem_append.1 hr with hr | hr
  · exact ih r hr
  · rw [List.mem_singleton.1 hr]
    exact ⟨rfl, hpattern⟩

/-! ## Ignored lex rules -/

/-- The lex rule, ignored if its name is one of these. -/
def ignoring (ignored : List String) (r : LexRule) : LexRule :=
  { r with ignored := r.ignored || decide (r.name ∈ ignored) }

theorem ignoring_cons (name : String) (ignored : List String) (r : LexRule) :
    ignoring ignored (ignoring [name] r) = ignoring (name :: ignored) r := by
  unfold ignoring
  simp [Bool.or_assoc, Bool.decide_or]

theorem map_name_ignoring (ignored : List String) (lexRules : List LexRule) :
    (lexRules.map (ignoring ignored)).map LexRule.name = lexRules.map LexRule.name := by
  rw [List.map_map]
  rfl

theorem exists_name_ignoring_iff {ignored : List String} {lexRules : List LexRule} {name : String} :
    (∃ r ∈ lexRules.map (ignoring ignored), r.name = name) ↔ ∃ r ∈ lexRules, r.name = name := by
  simp [ignoring]

theorem spells_ignoring_iff {ignored : List String} {lexRules : List LexRule} {spelling : String} :
    Spells (lexRules.map (ignoring ignored)) spelling ↔ Spells lexRules spelling := by
  simp [Spells, ignoring]

/-- A lex rule of another name stays as it is. -/
theorem ignoring_singleton_of_ne {name : String} {r : LexRule} (h : r.name ≠ name) :
    ignoring [name] r = r := by
  unfold ignoring
  simp [h]

theorem markIgnored_eq_ok_iff {name : String} {lexRules marked : List LexRule}
    (hnodup : (lexRules.map LexRule.name).Nodup) : markIgnored name lexRules = .ok marked ↔
      (∃ r ∈ lexRules, r.name = name) ∧ marked = lexRules.map (ignoring [name]) := by
  induction lexRules generalizing marked with
  | nil => simp [markIgnored]
  | cons r rest ih =>
    obtain ⟨hfree, hnodup⟩ := List.nodup_cons.1 hnodup
    unfold markIgnored
    split
    · -- The names behind the first one are other names.
      rename_i hname
      have hrest : rest.map (ignoring [name]) = rest := by
        conv_rhs => rw [← List.map_id rest]
        refine List.map_congr_left fun r' hr' => ignoring_singleton_of_ne fun heq => hfree ?_
        rw [hname, ← heq]
        exact List.mem_map_of_mem hr'
      rw [List.map_cons, hrest]
      simp [ignoring, hname, eq_comm]
    · rename_i hname
      rw [map_eq_ok_iff]
      simp only [ih hnodup, List.map_cons, ignoring_singleton_of_ne hname, List.mem_cons,
        exists_eq_or_imp, hname, false_or]
      constructor
      · rintro ⟨_, ⟨hmem, rfl⟩, rfl⟩
        exact ⟨hmem, rfl⟩
      · rintro ⟨hmem, rfl⟩
        exact ⟨_, ⟨hmem, rfl⟩, rfl⟩

/-- Lex rules are ignored by name, and every name that is ignored has to be one of theirs. -/
theorem foldlM_markIgnored_eq_ok_iff {ignored : List String} {lexRules marked : List LexRule}
    (hnodup : (lexRules.map LexRule.name).Nodup) :
    ignored.foldlM (fun lexRules name => markIgnored name lexRules) lexRules = .ok marked ↔
      (∀ name ∈ ignored, ∃ r ∈ lexRules, r.name = name) ∧
        marked = lexRules.map (ignoring ignored) := by
  induction ignored generalizing lexRules with
  | nil =>
    have hnone : lexRules.map (ignoring []) = lexRules := by
      conv_rhs => rw [← List.map_id lexRules]
      exact List.map_congr_left fun r _ => by simp [ignoring]
    rw [hnone]
    simp [pure, Except.pure, eq_comm]
  | cons name rest ih =>
    have hnodup' : ((lexRules.map (ignoring [name])).map LexRule.name).Nodup := by
      rwa [map_name_ignoring]
    rw [List.foldlM_cons, bind_eq_ok_iff]
    simp only [markIgnored_eq_ok_iff hnodup, List.forall_mem_cons]
    constructor
    · rintro ⟨_, ⟨hname, rfl⟩, h⟩
      obtain ⟨hrest, rfl⟩ := (ih hnodup').1 h
      refine ⟨⟨hname, fun other hother => exists_name_ignoring_iff.1 (hrest other hother)⟩, ?_⟩
      rw [List.map_map]
      exact List.map_congr_left fun r _ => ignoring_cons name rest r
    · rintro ⟨⟨hname, hrest⟩, rfl⟩
      refine ⟨_, ⟨hname, rfl⟩, (ih hnodup').2 ⟨fun other hother => ?_, ?_⟩⟩
      · exact exists_name_ignoring_iff.2 (hrest other hother)
      · rw [List.map_map]
        exact List.map_congr_left fun r _ => (ignoring_cons name rest r).symm

/-! ## All names together -/

theorem startRule_eq_ok_iff {d : Declarations} {id : Nat} : d.startRule = .ok id ↔
    ∃ name, d.start = some name ∧ (d.rules.map Prod.fst).findIdx? (· = name) = some id := by
  unfold startRule
  cases d.start with
  | none => simp
  | some name =>
    have hfind : (d.rules.map Prod.fst).findIdx? (fun other => decide (other = name)) =
        d.rules.findIdx? fun r => decide (r.1 = name) := by
      rw [List.findIdx?_map]
      rfl
    simp only [Option.some.injEq, exists_eq_left', hfind]
    cases d.rules.findIdx? fun r => decide (r.1 = name) with
    | none => simp
    | some id' => simp

/-- Declarations resolve if all names do, and then the lex rules and the start rule are these. -/
theorem exists_resolved_iff {d : Declarations} (declared : Declared d) {lexRules : List LexRule}
    {start : Nat} : (∃ bodies, d.resolved = .ok (bodies, lexRules, start)) ↔
      (∀ name ∈ d.ignored, d.hasLexRule name = true) ∧ d.startRule = .ok start ∧
      AllKnown (d.rules.map Prod.fst) (d.lexRules.map (ignoring d.ignored)) d.leaves ∧
      lexRules = withLiterals (d.lexRules.map (ignoring d.ignored)) (literals d.leaves) := by
  have hnodup : (d.lexRules.map LexRule.name).Nodup :=
    (List.nodup_append.1 declared.nodup_names).1
  have hmark : ∀ marked, d.markedLexRules = .ok marked ↔ _ := fun marked =>
    foldlM_markIgnored_eq_ok_iff hnodup
  have hvisits := visits_resolveBodies (d.rules.map Prod.fst) d.rules
  simp only [hasLexRule_iff]
  constructor
  · rintro ⟨bodies, h⟩
    obtain ⟨marked, hmarked, h⟩ := bind_eq_ok_iff.1 h
    obtain ⟨start', hstart, h⟩ := bind_eq_ok_iff.1 h
    obtain ⟨⟨bodies', lexRules'⟩, hrun, h⟩ := bind_eq_ok_iff.1 h
    cases h
    obtain ⟨hignored, rfl⟩ := (hmark marked).1 hmarked
    obtain ⟨hknown, hlexRules⟩ := (hvisits _ _).1 ⟨_, hrun⟩
    exact ⟨hignored, hstart, hknown, hlexRules⟩
  · rintro ⟨hignored, hstart, hknown, hlexRules⟩
    obtain ⟨bodies, hrun⟩ := (hvisits _ _).2 ⟨hknown, hlexRules⟩
    refine ⟨bodies, ?_⟩
    refine bind_eq_ok_iff.2 ⟨_, (hmark _).2 ⟨hignored, rfl⟩, ?_⟩
    exact bind_eq_ok_iff.2 ⟨start, hstart, bind_eq_ok_iff.2 ⟨_, hrun, rfl⟩⟩

end LexChart.Declarations
