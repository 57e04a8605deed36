import LexChart.Proofs.Recognizer.Layout
import LexChart.Proofs.Recognizer.Steps
set_option autoImplicit false

/-!
# References and what resolves them

Every occurrence of a rule has a site of its own in the fragment of the rule that it occurs in, and
as long as a draft grows it is in one of two states: the site still resolves the rule, or it predicts
it, and then there is one call for it and one completion at the exit of the callee.  `Draft.Laid`
says so, and both ways to grow keep it.  When no reference is open any more, every occurrence is
resolved, and nothing else predicts, completes or calls a rule.
-/

namespace LexChart.RuleNetwork

open NetworkLabel Building

namespace Draft

variable {g : Grammar} {d : Draft} {owner : Nat → Nat}

/-- A symbol occurs at a state, which belongs to the fragment of the rule that it occurs in. -/
def Site (g : Grammar) (d : Draft) (o : Occurrence) (s : Symbol) (p : Nat) : Prop :=
  ∃ before after f, g.Occurs o before s after ∧ (o.rule, f) ∈ d.fragments ∧
    p = f.entry + g.offset o

/-- What holds of a draft at any time about where its rules lie and how their references are
resolved. -/
structure Laid (g : Grammar) (d : Draft) (owner : Nat → Nat) : Prop extends d.Valid g owner where
  exit_eq : ∀ rule f, (rule, f) ∈ d.fragments → f.exit = f.entry + 1
  block : ∀ rule f, (rule, f) ∈ d.fragments → ∀ p,
    (f.entry ≤ p ∧ p < f.entry + statesOf g rule) ↔ p < d.nfa.size ∧ owner p = rule
  owned : ∀ p < d.nfa.size, ∃ f, (owner p, f) ∈ d.fragments
  reached : ∀ rule f, (rule, f) ∈ d.fragments → g.Reaches g.start rule
  walk_site : ∀ o before s after f, g.Occurs o before s after → (o.rule, f) ∈ d.fragments →
    Walk d.moves f.entry before (f.entry + g.offset o) ∧
      Walk d.moves (f.entry + g.offset o + 1) after f.exit
  nodup_calls : d.calls.Nodup
  call_site : ∀ call ∈ d.calls, call.target = call.source + 1 ∧
    ∃ o, Site g d o (.rule call.rule) call.source
  resolve_iff : ∀ p position rule q,
    d.nfa.transitionAt p position = some (.symbol (.resolve rule) q) ↔
      position = 0 ∧ q = p + 1 ∧ (∃ o, Site g d o (.rule rule) p) ∧ ⟨p, rule, q⟩ ∉ d.calls
  predict_at : ∀ p position rule q,
    d.nfa.transitionAt p position = some (.symbol (.predict rule) q) ↔
      position = 0 ∧ ⟨p, rule, p + 1⟩ ∈ d.calls ∧ ∃ f, (rule, f) ∈ d.fragments ∧ q = f.entry
  complete_iff : ∀ p rule q, d.nfa.Leaves p (.symbol (.complete rule) q) ↔
    ∃ f call, (rule, f) ∈ d.fragments ∧ p = f.exit ∧ call ∈ d.calls ∧ call.rule = rule ∧
      call.target = q
  complete_unique : ∀ p position position' rule q,
    d.nfa.transitionAt p position = some (.symbol (.complete rule) q) →
    d.nfa.transitionAt p position' = some (.symbol (.complete rule) q) → position = position'

section

variable (laid : d.Laid g owner)

include laid

/-- A site lies in the fragment of its rule, and so does the state behind it. -/
theorem Laid.lt_of_occurs {o : Occurrence} {before after : List Symbol} {s : Symbol} {f : Fragment}
    (h : g.Occurs o before s after) (hf : (o.rule, f) ∈ d.fragments) :
    f.entry + g.offset o + 1 < d.nfa.size ∧ owner (f.entry + g.offset o) = o.rule ∧
      owner (f.entry + g.offset o + 1) = o.rule := by
  have hoffset := h.offset_lt
  have hsite := (laid.block o.rule f hf (f.entry + g.offset o)).1 (by omega)
  have hnext := (laid.block o.rule f hf (f.entry + g.offset o + 1)).1 (by omega)
  exact ⟨hnext.1, hsite.2, hnext.2⟩

/-- At a state there is one occurrence. -/
theorem Laid.site_unique {o o' : Occurrence} {s s' : Symbol} {p : Nat} (h : Site g d o s p)
    (h' : Site g d o' s' p) : o = o' ∧ s = s' := by
  obtain ⟨before, after, f, hoccurs, hf, rfl⟩ := h
  obtain ⟨before', after', f', hoccurs', hf', heq⟩ := h'
  have howner := (laid.lt_of_occurs hoccurs hf).2.1
  rw [heq, (laid.lt_of_occurs hoccurs' hf').2.1] at howner
  obtain rfl := laid.fragment_unique (howner ▸ hf) hf'
  obtain rfl := hoccurs.eq_of_offset_eq hoccurs' howner.symm (by omega)
  exact ⟨rfl, (hoccurs.unique hoccurs').2.1⟩

end

/-! ## Joining a reference -/

section

variable {ref : OpenReference} {callee : Fragment}

theorem outDegree_replaced (nfa : Nfa NetworkLabel) (source position : Nat)
    (t : Transition NetworkLabel) (id : Nat) :
    (nfa.replaced source position t).outDegree id = nfa.outDegree id := by
  unfold Nfa.outDegree Nfa.replaced
  rw [Nfa.getElem?_modifyState]
  split
  · cases nfa.states[id]? with
    | none => rfl
    | some s => exact List.length_set
  · rfl

/-- The transitions after a join: one more completes the rule, the reference predicts it, and the
others are as they were. -/
theorem transitionAt_join_iff (hopen : d.Open ref) (hexit : callee.exit < d.nfa.size)
    {p position : Nat} {t : Transition NetworkLabel} :
    (d.join ref callee).nfa.transitionAt p position = some t ↔
      (p = callee.exit ∧ position = d.nfa.outDegree callee.exit ∧
        t = .symbol (.complete ref.call.rule) ref.call.target) ∨
      (p = ref.call.source ∧ position = ref.position ∧
        t = .symbol (.predict ref.call.rule) callee.entry) ∨
      (¬ (p = ref.call.source ∧ position = ref.position) ∧
        d.nfa.transitionAt p position = some t) := by
  have hlt := Nfa.lt_outDegree hopen
  have hsize : callee.exit < (d.nfa.replaced ref.call.source ref.position
      (.symbol (.predict ref.call.rule) callee.entry)).size := by
    rw [Nfa.replaced, Nfa.size_modifyState]
    exact hexit
  rw [nfa_join, Nfa.transitionAt_addTransition_eq hsize, outDegree_replaced,
    Nfa.transitionAt_replaced hopen]
  split
  · rename_i hlast
    constructor
    · exact fun h => .inl ⟨hlast.1, hlast.2, (Option.some.inj h).symm⟩
    · rintro (⟨-, -, rfl⟩ | ⟨rfl, rfl, -⟩ | ⟨-, h⟩)
      · rfl
      · rw [hlast.2, ← hlast.1] at hlt
        exact absurd hlt (Nat.lt_irrefl _)
      · rw [hlast.1, hlast.2] at h
        exact absurd (Nfa.lt_outDegree h) (Nat.lt_irrefl _)
  · rename_i hlast
    split
    · rename_i hat
      constructor
      · exact fun h => .inr (.inl ⟨hat.1, hat.2, (Option.some.inj h).symm⟩)
      · rintro (⟨hp, hposition, -⟩ | ⟨-, -, rfl⟩ | ⟨hne, -⟩)
        · exact absurd ⟨hp, hposition⟩ hlast
        · rfl
        · exact absurd hat hne
    · rename_i hat
      constructor
      · exact fun h => .inr (.inr ⟨hat, h⟩)
      · rintro (⟨hp, hposition, -⟩ | ⟨hp, hposition, -⟩ | ⟨-, h⟩)
        · exact absurd ⟨hp, hposition⟩ hlast
        · exact absurd ⟨hp, hposition⟩ hat
        · exact h

theorem mem_calls_join {call : Call} :
    call ∈ (d.join ref callee).calls ↔ call ∈ d.calls ∨ call = ref.call :=
  List.mem_append.trans (or_congr_right List.mem_singleton)

variable (laid : d.Laid g owner) (hopen : d.Open ref)
  (hcallee : (ref.call.rule, callee) ∈ d.fragments)

section

include laid hopen

/-- An open reference stands at a site, for which there is no call yet. -/
theorem Laid.of_open : ref.position = 0 ∧ ref.call.target = ref.call.source + 1 ∧
    (∃ o, Site g d o (.rule ref.call.rule) ref.call.source) ∧ ref.call ∉ d.calls :=
  (laid.resolve_iff _ _ _ _).1 hopen

theorem Laid.rule_eq_of_site {o : Occurrence} {rule : Nat}
    (h : Site g d o (.rule rule) ref.call.source) : rule = ref.call.rule := by
  obtain ⟨-, -, ⟨o', h'⟩, -⟩ := laid.of_open hopen
  exact Symbol.rule.inj (laid.site_unique h h').2

/-- No call leaves the state of an open reference. -/
theorem Laid.source_ne_of_open : ∀ call ∈ d.calls, call.source ≠ ref.call.source := by
  intro call hmem hsource
  obtain ⟨-, htarget, -, hcall⟩ := laid.of_open hopen
  obtain ⟨htarget', o, ho⟩ := laid.call_site call hmem
  rw [hsource] at htarget' ho
  have hrule := laid.rule_eq_of_site hopen ho
  have heq : call = ref.call := by
    cases call
    cases href : ref.call
    simp_all
  exact hcall (heq ▸ hmem)

end

section

include laid hopen hcallee

theorem Laid.resolve_join_iff (p position rule q : Nat) :
    (d.join ref callee).nfa.transitionAt p position = some (.symbol (.resolve rule) q) ↔
      position = 0 ∧ q = p + 1 ∧ (∃ o, Site g d o (.rule rule) p) ∧
        ⟨p, rule, q⟩ ∉ (d.join ref callee).calls := by
  obtain ⟨hposition, htarget, -, -⟩ := laid.of_open hopen
  rw [transitionAt_join_iff hopen (laid.fragment_lt _ _ hcallee).2.2, laid.resolve_iff]
  constructor
  · rintro (⟨-, -, h⟩ | ⟨-, -, h⟩ | ⟨hne, rfl, rfl, hsite, hnot⟩)
    · cases h
    · cases h
    · refine ⟨rfl, rfl, hsite, fun hmem => ?_⟩
      rcases mem_calls_join.1 hmem with hmem | heq
      · exact hnot hmem
      · exact hne ⟨congrArg Call.source heq, hposition.symm⟩
  · rintro ⟨rfl, rfl, ⟨o, ho⟩, hnot⟩
    refine .inr (.inr ⟨?_, rfl, rfl, ⟨o, ho⟩, fun hmem => hnot (mem_calls_join.2 (.inl hmem))⟩)
    rintro ⟨rfl, -⟩
    rw [laid.rule_eq_of_site hopen ho, ← htarget] at hnot
    exact hnot (mem_calls_join.2 (.inr rfl))

theorem Laid.predict_join_iff (p position rule q : Nat) :
    (d.join ref callee).nfa.transitionAt p position = some (.symbol (.predict rule) q) ↔
      position = 0 ∧ ⟨p, rule, p + 1⟩ ∈ (d.join ref callee).calls ∧
        ∃ f, (rule, f) ∈ d.fragments ∧ q = f.entry := by
  obtain ⟨hposition, htarget, -, -⟩ := laid.of_open hopen
  rw [transitionAt_join_iff hopen (laid.fragment_lt _ _ hcallee).2.2, laid.predict_at]
  constructor
  · rintro (⟨-, -, h⟩ | ⟨rfl, rfl, h⟩ | ⟨-, rfl, hmem, hf⟩)
    · cases h
    · cases h
      rw [← htarget]
      exact ⟨hposition, mem_calls_join.2 (.inr rfl), callee, hcallee, rfl⟩
    · exact ⟨rfl, mem_calls_join.2 (.inl hmem), hf⟩
  · rintro ⟨rfl, hmem, f, hf, rfl⟩
    rcases mem_calls_join.1 hmem with hmem | heq
    · have hne := laid.source_ne_of_open hopen _ hmem
      exact .inr (.inr ⟨fun hat => hne hat.1, rfl, hmem, f, hf, rfl⟩)
    · have hsource : p = ref.call.source := congrArg Call.source heq
      have hrule : rule = ref.call.rule := congrArg Call.rule heq
      subst hsource hrule
      rw [laid.fragment_unique hf hcallee]
      exact .inr (.inl ⟨rfl, hposition.symm, rfl⟩)

theorem Laid.complete_join_iff (p rule q : Nat) :
    (d.join ref callee).nfa.Leaves p (.symbol (.complete rule) q) ↔
      ∃ f call, (rule, f) ∈ d.fragments ∧ p = f.exit ∧ call ∈ (d.join ref callee).calls ∧
        call.rule = rule ∧ call.target = q := by
  rw [Nfa.leaves_iff_transitionAt]
  simp only [transitionAt_join_iff hopen (laid.fragment_lt _ _ hcallee).2.2]
  constructor
  · rintro ⟨position, ⟨rfl, -, h⟩ | ⟨-, -, h⟩ | ⟨-, h⟩⟩
    · cases h
      exact ⟨callee, ref.call, hcallee, rfl, mem_calls_join.2 (.inr rfl), rfl, rfl⟩
    · cases h
    · obtain ⟨f, call, hf, hp, hmem, hcompletes⟩ :=
        (laid.complete_iff p rule q).1 (Nfa.leaves_iff_transitionAt.2 ⟨position, h⟩)
      exact ⟨f, call, hf, hp, mem_calls_join.2 (.inl hmem), hcompletes⟩
  · rintro ⟨f, call, hf, rfl, hmem, rfl, rfl⟩
    rcases mem_calls_join.1 hmem with hmem | rfl
    · obtain ⟨position, h⟩ := Nfa.leaves_iff_transitionAt.1
        ((laid.complete_iff _ _ _).2 ⟨f, call, hf, rfl, hmem, rfl, rfl⟩)
      refine ⟨position, .inr (.inr ⟨fun hat => ?_, h⟩)⟩
      rw [hat.1, hat.2] at h
      cases h.symm.trans hopen
    · rw [laid.fragment_unique hf hcallee]
      exact ⟨_, .inl ⟨rfl, rfl, rfl⟩⟩

theorem Laid.complete_join_unique (p position position' rule q : Nat)
    (h : (d.join ref callee).nfa.transitionAt p position = some (.symbol (.complete rule) q))
    (h' : (d.join ref callee).nfa.transitionAt p position' = some (.symbol (.complete rule) q)) :
    position = position' := by
  have hexit := (laid.fragment_lt _ _ hcallee).2.2
  -- The new transition is the only one to complete the reference.
  have hnew : ∀ k, d.nfa.transitionAt p k ≠
      some (.symbol (.complete ref.call.rule) ref.call.target) := by
    intro k hk
    obtain ⟨f, call, -, -, hmem, -, hcompletes⟩ :=
      (laid.complete_iff _ _ _).1 (Nfa.leaves_iff_transitionAt.2 ⟨k, hk⟩)
    obtain ⟨-, htarget, -, -⟩ := laid.of_open hopen
    have hsource := (laid.call_site call hmem).1
    exact laid.source_ne_of_open hopen call hmem (by omega)
  rw [transitionAt_join_iff hopen hexit] at h h'
  rcases h with ⟨-, rfl, heq⟩ | ⟨-, -, heq⟩ | ⟨-, h⟩
  · cases heq
    rcases h' with ⟨-, rfl, -⟩ | ⟨-, -, heq⟩ | ⟨-, h'⟩
    · rfl
    · cases heq
    · exact absurd h' (hnew position')
  · cases heq
  · rcases h' with ⟨-, -, heq⟩ | ⟨-, -, heq⟩ | ⟨-, h'⟩
    · cases heq
      exact absurd h (hnew position)
    · cases heq
    · exact laid.complete_unique p position position' rule q h h'

theorem Laid.join : (d.join ref callee).Laid g owner := by
  have hsize : (d.join ref callee).nfa.size = d.nfa.size := size_join
  have hmoves : (d.join ref callee).moves = d.moves := by
    funext p s q
    exact propext (moves_join_iff (hopen.pending callee))
  obtain ⟨-, htarget, hsite, hcall⟩ := laid.of_open hopen
  constructor
  case toValid => exact laid.toValid.join (hopen.pending callee) hcallee
  case exit_eq => exact laid.exit_eq
  case block =>
    rw [hsize]
    exact laid.block
  case owned =>
    rw [hsize]
    exact laid.owned
  case reached => exact laid.reached
  case walk_site =>
    rw [hmoves]
    exact laid.walk_site
  case nodup_calls =>
    refine List.nodup_append.2 ⟨laid.nodup_calls, List.nodup_singleton _, fun a ha b hb heq => ?_⟩
    rw [List.mem_singleton.1 hb] at heq
    exact hcall (heq ▸ ha)
  case call_site =>
    intro call hmem
    rcases mem_calls_join.1 hmem with hmem | rfl
    · exact laid.call_site call hmem
    · exact ⟨htarget, hsite⟩
  case resolve_iff => exact laid.resolve_join_iff hopen hcallee
  case predict_at => exact laid.predict_join_iff hopen hcallee
  case complete_iff => exact laid.complete_join_iff hopen hcallee
  case complete_unique => exact laid.complete_join_unique hopen hcallee

end

end

/-! ## Adding a rule -/

section

variable {rule : Nat} {r : Rule}

/-- The sites of a draft after a rule has been added: those that there were and those of the
rule. -/
theorem site_added_iff {o : Occurrence} {s : Symbol} {p : Nat} :
    Site g (d.added rule r) o s p ↔ Site g d o s p ∨
      ∃ before after, o.rule = rule ∧ g.Occurs o before s after ∧
        p = d.nfa.size + g.offset o := by
  have hentry : (d.fragmentOf r).entry = d.nfa.size := entry_ruleBuilder r d.nfa
  constructor
  · rintro ⟨before, after, f, hoccurs, hf, rfl⟩
    rcases mem_fragments_added.1 hf with hf | ⟨hrule, rfl⟩
    · exact .inl ⟨before, after, f, hoccurs, hf, rfl⟩
    · rw [hentry]
      exact .inr ⟨before, after, hrule, hoccurs, rfl⟩
  · rintro (⟨before, after, f, hoccurs, hf, rfl⟩ | ⟨before, after, rfl, hoccurs, rfl⟩)
    · exact ⟨before, after, f, hoccurs, mem_fragments_added.2 (.inl hf), rfl⟩
    · rw [← hentry]
      exact ⟨before, after, _, hoccurs, mem_fragments_added.2 (.inr ⟨rfl, rfl⟩), rfl⟩

/-- The new states read symbols at the sites of their occurrences. -/
theorem transitionAt_added_iff (h : g.rules[rule]? = some r) {p position q : Nat}
    {label : NetworkLabel} :
    (d.added rule r).nfa.transitionAt p position = some (.symbol label q) ↔
      d.nfa.transitionAt p position = some (.symbol label q) ∨
        (position = 0 ∧ q = p + 1 ∧ ∃ s, (∃ o before after, o.rule = rule ∧
          g.Occurs o before s after ∧ p = d.nfa.size + g.offset o) ∧ label = ofSymbol s) := by
  rw [transitionAt_added]
  exact (lays_ruleBuilder h d.nfa).symbol_iff p position label q

theorem transitionAt_added_iff_of_crosses (h : g.rules[rule]? = some r) {p position q : Nat}
    {label : NetworkLabel} (hcrosses : label.crosses = true) :
    (d.added rule r).nfa.transitionAt p position = some (.symbol label q) ↔
      d.nfa.transitionAt p position = some (.symbol label q) := by
  rw [transitionAt_added_iff h, or_iff_left]
  rintro ⟨-, -, s, -, rfl⟩
  rw [inner_ofSymbol s] at hcrosses
  cases hcrosses

theorem statesOf_eq (h : g.rules[rule]? = some r) : statesOf g rule = r.stateCount := by
  rw [statesOf, h]
  rfl

theorem size_added_eq : (d.added rule r).nfa.size = d.nfa.size + r.stateCount :=
  size_added.trans (adds_ruleBuilder r d.nfa)

variable (laid : d.Laid g owner) (hget : g.rules[rule]? = some r)
  (hfresh : ∀ f, (rule, f) ∉ d.fragments)

section

include laid hfresh

/-- No state belongs to a rule that is not there. -/
theorem Laid.owner_ne_of_fresh {p : Nat} (h : p < d.nfa.size) : owner p ≠ rule := by
  intro howner
  obtain ⟨f, hf⟩ := laid.owned p h
  exact hfresh f (howner ▸ hf)

/-- A rule that is not there is not called. -/
theorem Laid.callee_ne_of_fresh : ∀ call ∈ d.calls, call.rule ≠ rule := by
  intro call hmem heq
  obtain ⟨f, hf⟩ := laid.callee call hmem
  exact hfresh f (heq ▸ hf)

end

section

include laid hget hfresh

theorem Laid.block_added {other : Nat} {f : Fragment}
    (hf : (other, f) ∈ (d.added rule r).fragments) (p : Nat) :
    (f.entry ≤ p ∧ p < f.entry + statesOf g other) ↔
      p < (d.added rule r).nfa.size ∧ d.ownerAfter owner rule p = other := by
  rw [size_added_eq]
  rcases mem_fragments_added.1 hf with hf | ⟨rfl, rfl⟩
  · rw [laid.block other f hf p]
    rcases Nat.lt_or_ge p d.nfa.size with hlt | hle
    · rw [ownerAfter_of_lt hlt]
      exact and_congr_left fun _ => iff_of_true hlt (by omega)
    · rw [ownerAfter_of_le hle]
      refine iff_of_false (fun h => absurd h.1 (Nat.not_lt.2 hle)) ?_
      rintro ⟨-, rfl⟩
      exact hfresh f hf
  · rw [show (d.fragmentOf r).entry = d.nfa.size from entry_ruleBuilder r d.nfa,
      statesOf_eq hget]
    rcases Nat.lt_or_ge p d.nfa.size with hlt | hle
    · rw [ownerAfter_of_lt hlt]
      refine iff_of_false (fun h => absurd hlt (Nat.not_lt.2 h.1)) fun h => ?_
      exact laid.owner_ne_of_fresh hfresh hlt h.2
    · rw [ownerAfter_of_le hle, and_comm]
      exact and_congr_right fun _ => iff_of_true hle rfl

theorem Laid.complete_added_iff (p other q : Nat) :
    (d.added rule r).nfa.Leaves p (.symbol (.complete other) q) ↔
      ∃ f call, (other, f) ∈ (d.added rule r).fragments ∧ p = f.exit ∧ call ∈ d.calls ∧
        call.rule = other ∧ call.target = q := by
  have hcompletes : (d.added rule r).nfa.Leaves p (.symbol (.complete other) q) ↔
      d.nfa.Leaves p (.symbol (.complete other) q) := by
    rw [Nfa.leaves_iff_transitionAt, Nfa.leaves_iff_transitionAt]
    exact exists_congr fun position => transitionAt_added_iff_of_crosses hget rfl
  rw [hcompletes, laid.complete_iff]
  refine exists_congr fun f => exists_congr fun call => ?_
  rw [mem_fragments_added]
  constructor
  · exact fun h => ⟨.inl h.1, h.2⟩
  · rintro ⟨hf | ⟨rfl, -⟩, hp, hmem, hrule, htarget⟩
    · exact ⟨hf, hp, hmem, hrule, htarget⟩
    · exact absurd hrule (laid.callee_ne_of_fresh hfresh call hmem)

end

section

include laid hget

theorem Laid.walk_site_added {o : Occurrence} {before after : List Symbol} {s : Symbol}
    {f : Fragment} (hoccurs : g.Occurs o before s after)
    (hf : (o.rule, f) ∈ (d.added rule r).fragments) :
    Walk (d.added rule r).moves f.entry before (f.entry + g.offset o) ∧
      Walk (d.added rule r).moves (f.entry + g.offset o + 1) after f.exit := by
  rcases mem_fragments_added.1 hf with hf | ⟨rfl, rfl⟩
  · obtain ⟨hbefore, hafter⟩ := laid.walk_site o before s after f hoccurs hf
    have hlt := (laid.lt_of_occurs hoccurs hf).1
    exact ⟨(walk_added_iff_of_mem laid.toValid hf).2 hbefore,
      ((extends_added d rule r).walk_iff laid.lt_size hlt).2 hafter⟩
  · obtain ⟨hbefore, hafter⟩ := path_ruleBuilder hget hoccurs d.nfa
    rw [show (d.fragmentOf r).entry = d.nfa.size from entry_ruleBuilder r d.nfa]
    refine ⟨(walk_added_iff laid.toValid (Nat.le_refl _)).2 ?_,
      (walk_added_iff laid.toValid (by omega)).2 hafter⟩
    rwa [entry_ruleBuilder] at hbefore

theorem Laid.resolve_added_iff (p position other q : Nat) :
    (d.added rule r).nfa.transitionAt p position = some (.symbol (.resolve other) q) ↔
      position = 0 ∧ q = p + 1 ∧ (∃ o, Site g (d.added rule r) o (.rule other) p) ∧
        ⟨p, other, q⟩ ∉ d.calls := by
  rw [transitionAt_added_iff hget, laid.resolve_iff]
  constructor
  · rintro (⟨rfl, rfl, ⟨o, ho⟩, hnot⟩ | ⟨rfl, rfl, s, ⟨o, before, after, rfl, hoccurs, rfl⟩, hs⟩)
    · exact ⟨rfl, rfl, ⟨o, site_added_iff.2 (.inl ho)⟩, hnot⟩
    · obtain rfl : s = .rule other := ofSymbol_injective hs.symm
      refine ⟨rfl, rfl, ⟨o, site_added_iff.2 (.inr ⟨before, after, rfl, hoccurs, rfl⟩)⟩, ?_⟩
      -- Calls leave states that were there before.
      intro hmem
      have hlt : d.nfa.size + g.offset o < d.nfa.size :=
        (laid.lt_size _ (some (.rule other)) _ (.inr hmem)).1
      omega
  · rintro ⟨rfl, rfl, ⟨o, ho⟩, hnot⟩
    rcases site_added_iff.1 ho with ho | ⟨before, after, rfl, hoccurs, rfl⟩
    · exact .inl ⟨rfl, rfl, ⟨o, ho⟩, hnot⟩
    · exact .inr ⟨rfl, rfl, .rule other, ⟨o, before, after, rfl, hoccurs, rfl⟩, rfl⟩

end

include laid hget hfresh

theorem Laid.added (wellFormed : g.WellFormed) (hreached : g.Reaches g.start rule) :
    (d.added rule r).Laid g (d.ownerAfter owner rule) := by
  have hrule : rule < g.rules.length := (List.getElem?_eq_some_iff.1 hget).1
  constructor
  case toValid => exact laid.toValid.added hrule hfresh (productions_of_rule wellFormed hget)
  case exit_eq =>
    intro other f hf
    rcases mem_fragments_added.1 hf with hf | ⟨-, rfl⟩
    · exact laid.exit_eq other f hf
    · exact (exit_ruleBuilder r d.nfa).trans (congrArg (· + 1) (entry_ruleBuilder r d.nfa).symm)
  case block => exact fun other f hf => laid.block_added hget hfresh hf
  case owned =>
    intro p hp
    rcases Nat.lt_or_ge p d.nfa.size with hlt | hle
    · obtain ⟨f, hf⟩ := laid.owned p hlt
      rw [ownerAfter_of_lt hlt]
      exact ⟨f, mem_fragments_added.2 (.inl hf)⟩
    · rw [ownerAfter_of_le hle]
      exact ⟨_, mem_fragments_added.2 (.inr ⟨rfl, rfl⟩)⟩
  case reached =>
    intro other f hf
    rcases mem_fragments_added.1 hf with hf | ⟨rfl, -⟩
    · exact laid.reached other f hf
    · exact hreached
  case walk_site =>
    exact fun o before s after f hoccurs hf => laid.walk_site_added hget hoccurs hf
  case nodup_calls => exact laid.nodup_calls
  case call_site =>
    intro call hmem
    obtain ⟨htarget, o, ho⟩ := laid.call_site call hmem
    exact ⟨htarget, o, site_added_iff.2 (.inl ho)⟩
  case resolve_iff => exact laid.resolve_added_iff hget
  case predict_at =>
    intro p position other q
    rw [transitionAt_added_iff_of_crosses hget rfl, laid.predict_at]
    refine and_congr_right fun _ => and_congr_right fun hmem => exists_congr fun f => ?_
    rw [mem_fragments_added, or_iff_left fun h => laid.callee_ne_of_fresh hfresh _ hmem h.1]
  case complete_iff => exact laid.complete_added_iff hget hfresh
  case complete_unique =>
    intro p position position' other q h h'
    rw [transitionAt_added_iff_of_crosses hget rfl] at h h'
    exact laid.complete_unique p position position' other q h h'

end

/-! ## Every draft on the way -/

theorem laid_empty (g : Grammar) (owner : Nat → Nat) : Laid g {} owner := by
  have hnone : ∀ p position t, ({} : Draft).nfa.transitionAt p position ≠ some t :=
    fun p position t h => absurd (Nfa.lt_of_transitionAt h) (Nat.not_lt_zero p)
  constructor
  case toValid => exact valid_empty g owner
  case exit_eq => exact fun _ _ h => nomatch h
  case block => exact fun _ _ h => nomatch h
  case owned => exact fun p hp => absurd hp (Nat.not_lt_zero p)
  case reached => exact fun _ _ h => nomatch h
  case walk_site => exact fun _ _ _ _ _ _ h => nomatch h
  case nodup_calls => exact List.nodup_nil
  case call_site => exact fun _ h => nomatch h
  case resolve_iff =>
    refine fun p position rule q => iff_of_false (hnone _ _ _) ?_
    rintro ⟨-, -, ⟨o, _, _, _, -, h, -⟩, -⟩
    cases h
  case predict_at =>
    refine fun p position rule q => iff_of_false (hnone _ _ _) ?_
    rintro ⟨-, h, -⟩
    cases h
  case complete_iff =>
    refine fun p rule q => iff_of_false (fun h => absurd h.lt (Nat.not_lt_zero p)) ?_
    rintro ⟨f, call, h, -⟩
    cases h
  case complete_unique => exact fun p position _ _ _ h => absurd h (hnone _ _ _)

/-- Every draft on the way to a network is laid out in this way. -/
theorem Grown.laid (wellFormed : g.WellFormed) (h : Grown g d) : ∃ owner, d.Laid g owner := by
  induction h with
  | start hget =>
    exact ⟨_, (laid_empty g fun _ => 0).added hget (fun f h => nomatch h) wellFormed (.refl _)⟩
  | @added d ref r _ hopen hfresh hget ih =>
    obtain ⟨owner, laid⟩ := ih
    obtain ⟨-, -, ⟨o, before, after, f, hoccurs, hf, -⟩, -⟩ := (laid.resolve_iff _ _ _ _).1 hopen
    have hmem : Symbol.rule ref.call.rule ∈ before ++ .rule ref.call.rule :: after := by simp
    have hreached := (laid.reached o.rule f hf).concat (hoccurs.mem_productions wellFormed) hmem
    exact ⟨_, laid.added hget hfresh wellFormed hreached⟩
  | joined _ hopen hcallee ih =>
    obtain ⟨owner, laid⟩ := ih
    exact ⟨owner, laid.join hopen hcallee⟩

end Draft

end LexChart.RuleNetwork
