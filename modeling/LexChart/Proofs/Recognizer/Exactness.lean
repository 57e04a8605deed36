import LexChart.Proofs.Grammar.Build
import LexChart.Proofs.Recognizer.Correctness
import LexChart.Proofs.Recognizer.Size
set_option autoImplicit false

/-!
# What a chart says about the tokens read

In the chart of a grammar that was built, a set holds an item that completes a rule if and only if
the rule can begin where the item does and derives the tokens since then.  The tokens that are
accepted next are those that go on to some sentence of the grammar, so that a token is rejected at
the first place where it can be, and whatever begins a sentence is read to its end.
-/

namespace LexChart

/-- The token can follow the others: some symbols behind it make up what the start rule derives. -/
def Grammar.Continues (g : Grammar) (tokens : List Nat) (token : Nat) : Prop :=
  ∃ rest, g.Derives [.rule g.start] (tokens.map .lex ++ .lex token :: rest)

/-- The rules of a grammar that was built are marked as nullable if they are. -/
theorem nullableExact_of_build {d : Declarations} {g : Grammar} (declared : Declarations.Declared d)
    (built : d.build = .ok (.ok g)) : g.NullableExact :=
  fun _ _ hr => Declarations.nullable_iff_of_build declared built hr

/-- What is derived from symbols in range is in range. -/
theorem Grammar.WellFormed.within {g : Grammar} (wellFormed : g.WellFormed) {u v : List Symbol}
    (h : g.Derives u v) (hu : ∀ s ∈ u, s.Within g.lexRules.length g.rules.length) :
    ∀ s ∈ v, s.Within g.lexRules.length g.rules.length := by
  induction h with
  | refl => exact hu
  | step first _ ih =>
    refine ih fun s hs => ?_
    cases first with
    | produce p before after hp =>
      rcases List.mem_append.1 hs with hs | hs
      · rcases List.mem_append.1 hs with hs | hs
        · exact hu s (List.mem_append_left _ hs)
        · cases s with
          | lex id => exact wellFormed.lex_lt p hp id hs
          | rule id => exact wellFormed.rule_lt p hp id hs
      · exact hu s (List.mem_append_right _ (List.mem_cons_of_mem _ hs))

/-- Only tokens of the grammar can come next. -/
theorem Grammar.Continues.lt {g : Grammar} (wellFormed : g.WellFormed) {tokens : List Nat}
    {token : Nat}
    (h : g.Continues tokens token) : token < g.lexRules.length := by
  obtain ⟨rest, hrest⟩ := h
  refine wellFormed.within hrest (fun s hs => ?_) (.lex token)
    (List.mem_append_right _ List.mem_cons_self)
  rw [List.mem_singleton.1 hs]
  exact wellFormed.start_lt

namespace Recognizer

variable {net : RuleNetwork} {g : Grammar} {tokens : List Nat} {r : Recognizer}

/-! ## Completed rules -/

theorem Agrees.covers_iff (h : Agrees net g tokens r) {location origin q : Nat}
    (hlocation : location ≤ r.location) :
    r.chart.Covers r.machine location origin q ↔ Active net g tokens location origin q := by
  constructor
  · rintro ⟨i, s, hi, rfl, hs, hq⟩
    exact h.sound location i hi s hs q hq
  · intro hactive
    refine hactive.covered h.represents h.simulates h.saturated h.sound ?_
    rw [← h.valid.location_succ]
    exact Nat.lt_succ_of_le hlocation

/-- Some item of the set at a location has the origin, and completes the rule. -/
def Completes (r : Recognizer) (location origin rule : Nat) : Prop :=
  ∃ i s, r.chart.Holds location i ∧ i.origin = origin ∧ r.machine.state i.state = .ok s ∧
    s.completes rule = true

theorem Agrees.completes_iff_generates (h : Agrees net g tokens r) {location origin : Nat}
    (hlocation : location ≤ r.location) (horigin : origin ≤ location) (rule : Nat) :
    r.Completes location origin rule ↔
      g.Generates rule (slice tokens origin location) ∧ g.Expects tokens origin rule := by
  rw [← active_exit_iff h.represents (Nat.le_trans hlocation h.location_le) horigin]
  constructor
  · rintro ⟨i, s, hi, horigin_eq, hs, hcompletes⟩
    obtain ⟨f, hf, hexit⟩ := (h.simulates.completes_iff _ s hs rule).1 hcompletes
    exact ⟨f, hf, (h.covers_iff hlocation).1 ⟨i, s, hi, horigin_eq, hs, hexit⟩⟩
  · rintro ⟨f, hf, hactive⟩
    obtain ⟨i, s, hi, horigin_eq, hs, hexit⟩ := (h.covers_iff hlocation).2 hactive
    exact ⟨i, s, hi, horigin_eq, hs, (h.simulates.completes_iff _ s hs rule).2 ⟨f, hf, hexit⟩⟩

theorem Agrees.completesStartAt_ok (h : Agrees net g tokens r) {location : Nat}
    (hlocation : location ≤ r.location) : ∃ answer, r.completesStartAt location = .ok answer ∧
      (answer = true ↔ g.Generates g.start (tokens.take location)) := by
  have hlt : location < r.chart.size := by
    rw [← h.valid.location_succ]
    exact Nat.lt_succ_of_le hlocation
  obtain ⟨answer, hanswer, hiff⟩ := Recognizer.completesStartAt_ok h.valid hlt
  refine ⟨answer, hanswer, hiff.trans ?_⟩
  rw [h.simulates.startRule_eq]
  have hstart : g.Expects tokens 0 g.start := ⟨[], .refl _⟩
  exact (h.completes_iff_generates hlocation (Nat.zero_le _) g.start).trans (and_iff_left hstart)

/-! ## Tokens that can come next -/

theorem Agrees.scans_iff_continues (h : Agrees net g tokens r) (hend : r.location = tokens.length)
    (token : Nat) : r.Scans token ↔ g.Continues tokens token := by
  have hnext := derives_next_iff h.represents (Nat.le_refl tokens.length) (s := .lex token)
  rw [List.take_length] at hnext
  unfold Grammar.Continues
  rw [hnext, ← hend]
  constructor
  · rintro ⟨i, s, target, hi, hs, hscan⟩
    obtain ⟨p, hp, q, hmove⟩ := (h.simulates.reads _ s hs (.lex token)).1 ⟨target, hscan⟩
    exact .inr ⟨i.origin, p, q, h.sound _ i hi s hs p hp, hmove⟩
  · rintro (⟨-, heq⟩ | ⟨origin, p, q, hactive, hmove⟩)
    · cases heq
    · obtain ⟨i, s, hi, -, hs, hp⟩ := (h.covers_iff (Nat.le_refl _)).2 hactive
      obtain ⟨target, hscan⟩ := (h.simulates.reads _ s hs (.lex token)).2 ⟨p, hp, q, hmove⟩
      exact ⟨i, s, target, hi, hs, hscan⟩

/-- The name of a token, or a question mark if the grammar does not have it. -/
theorem Agrees.lexName_eq (h : Agrees net g tokens r) (token : Nat) :
    r.machine.lexName token = (g.lexRules[token]?).elim "?" LexRule.name := by
  unfold Machine.lexName
  rw [h.simulates.lexNames_eq, List.getD_eq_getElem?_getD, List.getElem?_map]
  cases g.lexRules[token]? <;> rfl

/-- The names in a message are those of the lex rules. -/
theorem Agrees.exists_names (h : Agrees net g tokens r) {expected : List Nat}
    (hlt : ∀ token ∈ expected, token < g.lexRules.length) :
    ∃ rules, expected.mapM g.lexRule = .ok rules ∧
      expected.map r.machine.lexName = rules.map LexRule.name := by
  have hknown : ∀ token ∈ expected, ∃ rule, g.lexRule token = .ok rule := by
    intro token htoken
    have hsome := List.getElem?_eq_getElem (hlt token htoken)
    unfold Grammar.lexRule
    rw [hsome]
    exact ⟨_, rfl⟩
  obtain ⟨rules, hrules⟩ := exists_mapM_eq_ok hknown
  have hsame : List.Forall₂ (· = ·) (expected.map r.machine.lexName) (rules.map LexRule.name) := by
    rw [List.forall₂_map_left_iff, List.forall₂_map_right_iff]
    refine (mapM_eq_ok_iff.1 hrules).imp fun token rule hrule => ?_
    rw [h.lexName_eq]
    unfold Grammar.lexRule at hrule
    split at hrule
    · rename_i hsome
      rw [hsome, ← Except.ok.inj hrule]
      rfl
    · cases hrule
  rw [List.forall₂_eq_eq_eq] at hsame
  exact ⟨rules, hrules, hsame⟩

/-! ## Reading what can come next -/

/-- Whatever begins a sentential form is read, if the rules of the grammar have few enough states.
-/
theorem exists_reachedBy (wellFormed : g.WellFormed) (nullable : g.NullableExact)
    (hsize : g.stateCount < sizeLimit)
    (h : ∃ rest, g.Derives [.rule g.start] (tokens.map .lex ++ rest)) :
    ∃ r, ReachedBy g tokens r := by
  induction tokens using List.reverseRecOn with
  | nil =>
    obtain ⟨m, hm⟩ := Machine.ofGrammar_ok wellFormed nullable hsize
    obtain ⟨net, -, simulates⟩ := Machine.simulates_of_ofGrammar wellFormed nullable hm
    obtain ⟨r, hr, -⟩ := ofMachine_ok simulates.closed_states
    exact ⟨r, m, r, hm, hr, .nil r⟩
  | append_singleton tokens token ih =>
    obtain ⟨rest, hrest⟩ := h
    rw [List.map_append, List.append_assoc] at hrest
    obtain ⟨r, reached⟩ := ih ⟨_, hrest⟩
    obtain ⟨net, agrees, hend⟩ := reached.agrees wellFormed nullable
    obtain ⟨next, hnext, -⟩ := advance_of_scans agrees.valid
      ((agrees.scans_iff_continues hend token).2 ⟨rest, hrest⟩)
    exact ⟨_, reached.concat hnext⟩

/-- The grammar of balanced parentheses derives a pair of them. -/
theorem generates_balanced : ∃ g, Declarations.balanced.build = .ok (.ok g) ∧
    g.WellFormed ∧ g.NullableExact ∧ g.stateCount < sizeLimit ∧ g.lexRules.length = 2 ∧
    g.Generates g.start [0, 1] := by
  have hgrammar : ∃ g, Declarations.balanced.build = .ok (.ok g) ∧ g.start = 0 ∧
      g.stateCount < sizeLimit ∧ g.lexRules.length = 2 ∧
      ∀ p ∈ ([⟨0, []⟩, ⟨0, [.rule 2]⟩, ⟨2, [.rule 1]⟩, ⟨1, [.lex 0, .rule 0, .lex 1]⟩] :
        List Production),
        p ∈ g.productions := ⟨_, rfl, rfl, by decide, rfl, by decide⟩
  obtain ⟨g, built, hstart, hsize, hlex, hproductions⟩ := hgrammar
  simp only [List.forall_mem_cons] at hproductions
  obtain ⟨hnone, hmany, hone, hpair, -⟩ := hproductions
  refine ⟨g, built, Declarations.wellFormed_of_build Declarations.declared_balanced built,
    nullableExact_of_build Declarations.declared_balanced built, hsize, hlex, ?_⟩
  rw [hstart]
  exact .step (.produce ⟨0, [.rule 2]⟩ [] [] hmany) (.step (.produce ⟨2, [.rule 1]⟩ [] [] hone)
    (.step (.produce ⟨1, [.lex 0, .rule 0, .lex 1]⟩ [] [] hpair)
      (.step (.produce ⟨0, []⟩ [.lex 0] [.lex 1] hnone) (.refl _))))

/-! ## The chart and the grammar -/

/-- A set holds an item that completes a rule exactly where the grammar completes it, and the start
rule is complete exactly where it derives all tokens before. -/
theorem chart_exact {d : Declarations} (declared : Declarations.Declared d)
    (built : d.build = .ok (.ok g)) (reached : ReachedBy g tokens r) :
    (∀ location ≤ tokens.length, ∀ origin ≤ location, ∀ rule,
      r.Completes location origin rule ↔ g.Generates rule (slice tokens origin location) ∧
        ∃ rest, g.Derives [.rule g.start] ((tokens.take origin).map .lex ++ .rule rule :: rest)) ∧
    (∀ location ≤ tokens.length, ∃ answer, r.completesStartAt location = .ok answer ∧
      (answer = true ↔ g.Generates g.start (tokens.take location))) ∧
    ∃ answer, r.isAccepted = .ok answer ∧ (answer = true ↔ g.Generates g.start tokens) := by
  obtain ⟨net, agrees, hend⟩ := reached.agrees (Declarations.wellFormed_of_build declared built)
    (nullableExact_of_build declared built)
  have hstart : ∀ location ≤ tokens.length, ∃ answer, r.completesStartAt location = .ok answer ∧
      (answer = true ↔ g.Generates g.start (tokens.take location)) :=
    fun location hle => agrees.completesStartAt_ok (by rwa [hend])
  refine ⟨fun location hle origin horigin rule => ?_, hstart, ?_⟩
  · exact agrees.completes_iff_generates (by rwa [hend]) horigin rule
  · obtain ⟨answer, hanswer, hiff⟩ := hstart tokens.length (Nat.le_refl _)
    rw [List.take_length] at hiff
    refine ⟨answer, ?_, hiff⟩
    unfold isAccepted
    rw [hend]
    exact hanswer

/-- A pair of parentheses is accepted. -/
theorem chart_exact_balanced : ∃ g r, Declarations.balanced.build = .ok (.ok g) ∧
    ReachedBy g [0, 1] r ∧ r.Completes 2 0 g.start ∧ r.isAccepted = .ok true := by
  obtain ⟨g, built, wellFormed, nullable, hsize, -, hpair⟩ := generates_balanced
  obtain ⟨r, reached⟩ := exists_reachedBy wellFormed nullable hsize
    ⟨[], by rw [List.append_nil]; exact hpair⟩
  obtain ⟨hcompletes, -, answer, haccepted, hiff⟩ :=
    chart_exact Declarations.declared_balanced built reached
  refine ⟨g, r, built, reached, ?_, ?_⟩
  · exact (hcompletes 2 (Nat.le_refl 2) 0 (Nat.zero_le 2) g.start).2 ⟨hpair, [], .refl _⟩
  · rw [haccepted, hiff.2 hpair]

/-- The tokens that can come next are accepted and listed; any other one is rejected with the names
of those that can. -/
theorem next_tokens_exact {d : Declarations} (declared : Declarations.Declared d)
    (built : d.build = .ok (.ok g)) (reached : ReachedBy g tokens r) :
    ∃ expected rules, r.expected = .ok expected ∧ expected.Pairwise (· < ·) ∧
      expected.mapM g.lexRule = .ok rules ∧ ∀ token,
        (token ∈ expected ↔ g.Continues tokens token) ∧
        (r.canAdvance token = .ok true ↔ g.Continues tokens token) ∧
        (r.canAdvance token = .ok false ↔ ¬ g.Continues tokens token) ∧
        ((∃ next, r.advance r.location token = .ok (.ok next)) ↔ g.Continues tokens token) ∧
        (¬ g.Continues tokens token → r.advance r.location token =
          .ok (.error ⟨.noViableContinuation tokens.length
            ((g.lexRules[token]?).elim "?" LexRule.name) ⟨rules.map LexRule.name⟩, none⟩)) := by
  have wellFormed := Declarations.wellFormed_of_build declared built
  obtain ⟨net, agrees, hend⟩ := reached.agrees wellFormed (nullableExact_of_build declared built)
  have valid := agrees.valid
  have hscans := agrees.scans_iff_continues hend
  obtain ⟨expected, hexpected, hmem, hascending⟩ := expected_ok valid
  have hcontinues : ∀ token, token ∈ expected ↔ g.Continues tokens token :=
    fun token => (hmem token).trans (hscans token)
  obtain ⟨rules, hrules, hnames⟩ := agrees.exists_names
    fun token htoken => ((hcontinues token).1 htoken).lt wellFormed
  refine ⟨expected, rules, hexpected, hascending, hrules, fun token => ?_⟩
  obtain ⟨answer, hanswer, hiff⟩ := canAdvance_ok valid token
  rw [hscans] at hiff
  have hrejected : ¬ g.Continues tokens token → r.advance r.location token =
      .ok (.error ⟨.noViableContinuation tokens.length
        ((g.lexRules[token]?).elim "?" LexRule.name) ⟨rules.map LexRule.name⟩, none⟩) := by
    intro h
    rw [advance_of_not_scans valid (fun hs => h ((hscans token).1 hs)) hexpected, hnames,
      agrees.lexName_eq, hend]
  refine ⟨hcontinues token, ?_, ?_, ⟨fun h => ?_, fun h => ?_⟩, hrejected⟩
  · rw [hanswer, ← hiff, Except.ok.injEq]
  · rw [hanswer, ← hiff, Except.ok.injEq, Bool.not_eq_true]
  · obtain ⟨next, hnext⟩ := h
    exact (hscans token).1 (scans_of_advance valid hnext)
  · obtain ⟨next, hnext, -⟩ := advance_of_scans valid ((hscans token).2 h)
    exact ⟨_, hnext⟩

/-- A parenthesis that is open can be closed, and a token that the grammar does not have is never
accepted. -/
theorem next_tokens_exact_balanced : ∃ g r, Declarations.balanced.build = .ok (.ok g) ∧
    ReachedBy g [0] r ∧ (∃ next, r.advance r.location 1 = .ok (.ok next)) ∧
    r.canAdvance 2 = .ok false := by
  obtain ⟨g, built, wellFormed, nullable, hsize, hlex, hpair⟩ := generates_balanced
  have hcontinues : g.Continues [0] 1 := ⟨[], hpair⟩
  have hbegins : ∃ rest, g.Derives [.rule g.start] ([0].map .lex ++ rest) := ⟨[.lex 1], hpair⟩
  obtain ⟨r, reached⟩ := exists_reachedBy wellFormed nullable hsize hbegins
  obtain ⟨expected, rules, -, -, -, hnext⟩ :=
    next_tokens_exact Declarations.declared_balanced built reached
  obtain ⟨-, -, -, haccepted, -⟩ := hnext 1
  obtain ⟨-, -, hrejected, -⟩ := hnext 2
  refine ⟨g, r, built, reached, haccepted.2 hcontinues, hrejected.2 fun h => ?_⟩
  have hlt := h.lt wellFormed
  omega

end Recognizer

end LexChart
