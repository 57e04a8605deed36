import LexChart.Proofs.Recognizer.Exactness
import LexChart.Proofs.Recognizer.Resolution
set_option autoImplicit false

/-!
# Networks without open references

The rules with a fragment are those that the start rule reaches, and every state belongs to one of
them.  Every occurrence of a rule in them is resolved: one transition predicts the rule where it
stands, one call leads behind it, and one transition comes back there from the exit of the rule.
Nothing else predicts, completes or calls, and a walk that steps over calls stays with its rule.
-/

namespace LexChart

/-- A rule occurs in a production of a rule that the start rule reaches. -/
def Grammar.RefersAt (g : Grammar) (o : Occurrence) (rule : Nat) : Prop :=
  g.Reaches g.start o.rule ∧ ∃ before after, g.Occurs o before (.rule rule) after

namespace RuleNetwork

/-- A state belongs to a rule: it is one of those that the productions of the rule take up from its
entry on. -/
def Owns (net : RuleNetwork) (g : Grammar) (rule p : Nat) : Prop :=
  ∃ f r, net.fragmentOf? rule = some f ∧ g.rules[rule]? = some r ∧
    f.entry ≤ p ∧ p < f.entry + r.stateCount

/-- Every occurrence of a rule, from a source to a target, is resolved once, and nothing else is. -/
structure ResolvesReferences (g : Grammar) (net : RuleNetwork) (source target : Occurrence → Nat) :
    Prop where
  fragment_iff : ∀ rule, (∃ f, net.fragmentOf? rule = some f) ↔ g.Reaches g.start rule
  /-- No rule has two fragments. -/
  once : (net.fragments.map Prod.fst).Nodup
  /-- There are no states but those of the fragments. -/
  owned : ∀ p, p < net.nfa.size ↔ ∃ rule, net.Owns g rule p
  owner_unique : ∀ p rule rule', net.Owns g rule p → net.Owns g rule' p → rule = rule'
  walk_iff : ∀ rule f, net.fragmentOf? rule = some f → ∀ symbols,
    Walk net.moves f.entry symbols f.exit ↔ ⟨rule, symbols⟩ ∈ g.productions
  resolved : ∀ p rule q, ¬ net.nfa.Leaves p (.symbol (.resolve rule) q)
  occurrence : ∀ o rule, g.RefersAt o rule → ∃ f, net.fragmentOf? rule = some f ∧
    net.callsFrom (source o) = [⟨source o, rule, target o⟩] ∧
    (∃! position, net.nfa.transitionAt (source o) position =
      some (.symbol (.predict rule) f.entry)) ∧
    ∃! position, net.nfa.transitionAt f.exit position =
      some (.symbol (.complete rule) (target o))
  /-- An occurrence stands where the symbols before it lead from the entry of its rule, and the
  symbols after it lead from behind it to the exit. -/
  placed : ∀ o before rule after f, g.Occurs o before (.rule rule) after →
    net.fragmentOf? o.rule = some f →
    Walk net.moves f.entry before (source o) ∧ Walk net.moves (target o) after f.exit
  source_injective : ∀ o o' rule rule', g.RefersAt o rule → g.RefersAt o' rule' →
    source o = source o' → o = o'
  target_injective : ∀ o o' rule rule', g.RefersAt o rule → g.RefersAt o' rule' →
    target o = target o' → o = o'
  call : ∀ p, ∀ call ∈ net.callsFrom p, ∃ o, g.RefersAt o call.rule ∧ p = source o ∧
    call = ⟨source o, call.rule, target o⟩
  predict : ∀ p rule q, net.nfa.Leaves p (.symbol (.predict rule) q) →
    ∃ o f, g.RefersAt o rule ∧ net.fragmentOf? rule = some f ∧ p = source o ∧ q = f.entry
  complete : ∀ p rule q, net.nfa.Leaves p (.symbol (.complete rule) q) →
    ∃ o f, g.RefersAt o rule ∧ net.fragmentOf? rule = some f ∧ p = f.exit ∧ q = target o
  inside : ∀ rule f symbols p, net.fragmentOf? rule = some f →
    Walk net.moves f.entry symbols p → net.Owns g rule p

namespace Draft

variable {g : Grammar} {d : Draft} {owner owner' : Nat → Nat} {done : List Nat}

section

variable (laid : d.Laid g owner) (progress : Progress g d owner' done [])

include laid progress

/-- When all rules are done, there is a call for every occurrence of a rule. -/
theorem Laid.mem_calls {o : Occurrence} {rule p : Nat} (h : Site g d o (.rule rule) p) :
    ⟨p, rule, p + 1⟩ ∈ d.calls := by
  by_contra hcall
  have hopen := (laid.resolve_iff p 0 rule (p + 1)).2 ⟨rfl, rfl, ⟨o, h⟩, hcall⟩
  obtain ⟨before, after, f, hoccurs, hf, rfl⟩ := h
  have hdone : o.rule ∈ done := by
    have hmem := progress.numbers.mem_iff.2 (List.mem_map.2 ⟨_, hf, rfl⟩)
    rwa [List.append_nil] at hmem
  exact progress.closed o.rule f hf hdone before _ rule _
    (laid.walk_site o before _ after f hoccurs hf).1 (Nfa.leaves_iff_transitionAt.2 ⟨0, hopen⟩)

/-- When all rules are done, no reference is open. -/
theorem Laid.not_leaves_resolve (p rule q : Nat) :
    ¬ d.nfa.Leaves p (.symbol (.resolve rule) q) := by
  intro h
  obtain ⟨position, hat⟩ := Nfa.leaves_iff_transitionAt.1 h
  obtain ⟨-, rfl, ⟨o, ho⟩, hcall⟩ := (laid.resolve_iff _ _ _ _).1 hat
  exact hcall (laid.mem_calls progress ho)

/-- Rules that have a fragment refer to rules that have one. -/
theorem Laid.exists_fragment_of_reaches {rule other : Nat} (h : g.Reaches rule other)
    (wellFormed : g.WellFormed) (hrule : ∃ f, (rule, f) ∈ d.fragments) :
    ∃ f, (other, f) ∈ d.fragments := by
  induction h with
  | refl rule => exact hrule
  | @step p callee _ hp hcallee _ ih =>
    obtain ⟨f, hf⟩ := hrule
    obtain ⟨o, before, after, heq, hoccurs⟩ := Grammar.exists_occurs wellFormed hp hcallee
    rw [← heq] at hf
    exact ih (laid.callee _ (laid.mem_calls progress ⟨before, after, f, hoccurs, hf, rfl⟩))

end

/-- Where an occurrence is read. -/
def source (g : Grammar) (d : Draft) (o : Occurrence) : Nat :=
  (d.fragments.lookup o.rule).elim 0 Fragment.entry + g.offset o

section

variable (laid : d.Laid g owner)

include laid

theorem Laid.source_eq {o : Occurrence} {f : Fragment} (hf : (o.rule, f) ∈ d.fragments) :
    d.source g o = f.entry + g.offset o := by
  rw [source, (lookup_eq_some_iff_mem laid.nodup).2 hf]
  rfl

/-- The sites of rules are the sources of their occurrences. -/
theorem Laid.refersAt_of_site {o : Occurrence} {rule p : Nat} (h : Site g d o (.rule rule) p) :
    g.RefersAt o rule ∧ p = d.source g o := by
  obtain ⟨before, after, f, hoccurs, hf, rfl⟩ := h
  exact ⟨⟨laid.reached o.rule f hf, before, after, hoccurs⟩, (laid.source_eq hf).symm⟩

/-- The states of a fragment are those that belong to its rule. -/
theorem Laid.owns_iff {start rule p : Nat} :
    (ofDraft d start).Owns g rule p ↔ p < d.nfa.size ∧ owner p = rule := by
  have hfragment : ∀ f, (ofDraft d start).fragmentOf? rule = some f ↔ (rule, f) ∈ d.fragments :=
    fun _ => lookup_eq_some_iff_mem laid.nodup
  constructor
  · rintro ⟨f, r, hf, hget, hle, hlt⟩
    rw [← statesOf_eq hget] at hlt
    exact (laid.block rule f ((hfragment f).1 hf) p).1 ⟨hle, hlt⟩
  · rintro ⟨hp, rfl⟩
    obtain ⟨f, hf⟩ := laid.owned p hp
    have hget := List.getElem?_eq_getElem (laid.fragment_lt _ f hf).1
    have hblock := (laid.block _ f hf p).2 ⟨hp, rfl⟩
    rw [statesOf_eq hget] at hblock
    exact ⟨f, _, (hfragment f).2 hf, hget, hblock⟩

/-- One call leaves the source of an occurrence. -/
theorem Laid.callsFrom_source {o : Occurrence} {rule p start : Nat}
    (hsite : Site g d o (.rule rule) p) (hcall : ⟨p, rule, p + 1⟩ ∈ d.calls) :
    (ofDraft d start).callsFrom p = [⟨p, rule, p + 1⟩] := by
  have hlt := (laid.lt_size p (some (.rule rule)) (p + 1) (.inr hcall)).1
  have heq : (ofDraft d start).callsFrom p = d.calls.filter fun call => call.source = p := by
    simp [callsFrom, ofDraft, Array.getD_eq_getD_getElem?, hlt]
  rw [heq]
  refine List.perm_singleton.1 ((List.perm_ext_iff_of_nodup (laid.nodup_calls.filter _)
    (List.nodup_singleton _)).2 fun call => ?_)
  rw [List.mem_filter, List.mem_singleton]
  constructor
  · rintro ⟨hmem, hsource⟩
    obtain rfl : call.source = p := of_decide_eq_true hsource
    obtain ⟨htarget, o', ho'⟩ := laid.call_site call hmem
    have hrule := Symbol.rule.inj (laid.site_unique hsite ho').2
    cases call
    simp_all
  · rintro rfl
    exact ⟨hcall, by simp⟩

variable (progress : Progress g d owner' done [])

include progress

/-- When all rules are done, every occurrence is resolved once, and nothing else is. -/
theorem Laid.resolvesReferences (wellFormed : g.WellFormed)
    (hstart : ∃ f, (g.start, f) ∈ d.fragments) :
    ResolvesReferences g (ofDraft d g.start) (d.source g) fun o => d.source g o + 1 := by
  have hfragment : ∀ {rule f}, (ofDraft d g.start).fragmentOf? rule = some f ↔
      (rule, f) ∈ d.fragments := lookup_eq_some_iff_mem laid.nodup
  have represents := represents_ofDraft progress hstart
  have hreached : ∀ rule, g.Reaches g.start rule → ∃ f, (rule, f) ∈ d.fragments :=
    fun rule h => laid.exists_fragment_of_reaches progress h wellFormed hstart
  have hsite : ∀ o rule, g.RefersAt o rule → Site g d o (.rule rule) (d.source g o) := by
    rintro o rule ⟨hrule, before, after, hoccurs⟩
    obtain ⟨f, hf⟩ := hreached o.rule hrule
    exact ⟨before, after, f, hoccurs, hf, laid.source_eq hf⟩
  constructor
  case fragment_iff =>
    intro rule
    constructor
    · rintro ⟨f, hf⟩
      exact laid.reached rule f (hfragment.1 hf)
    · intro h
      obtain ⟨f, hf⟩ := hreached rule h
      exact ⟨f, hfragment.2 hf⟩
  case once => exact laid.nodup
  case owned =>
    intro p
    simp only [laid.owns_iff]
    exact ⟨fun hp => ⟨_, hp, rfl⟩, fun ⟨_, hp, _⟩ => hp⟩
  case owner_unique =>
    intro p rule rule' h h'
    exact ((laid.owns_iff).1 h).2.symm.trans ((laid.owns_iff).1 h').2
  case walk_iff => exact represents.walk_iff
  case resolved => exact laid.not_leaves_resolve progress
  case occurrence =>
    intro o rule h
    have hcall := laid.mem_calls progress (hsite o rule h)
    obtain ⟨f, hf⟩ := laid.callee _ hcall
    refine ⟨f, hfragment.2 hf, laid.callsFrom_source (hsite o rule h) hcall, ?_, ?_⟩
    · refine ⟨0, (laid.predict_at _ _ _ _).2 ⟨rfl, hcall, f, hf, rfl⟩, fun position hat => ?_⟩
      exact ((laid.predict_at _ _ _ _).1 hat).1
    · obtain ⟨position, hat⟩ := Nfa.leaves_iff_transitionAt.1
        ((laid.complete_iff f.exit rule _).2 ⟨f, _, hf, rfl, hcall, rfl, rfl⟩)
      exact ⟨position, hat, fun position' hat' => laid.complete_unique _ _ _ _ _ hat' hat⟩
  case placed =>
    intro o before rule after f hoccurs hf
    have hf' := hfragment.1 hf
    obtain ⟨hbefore, hafter⟩ := laid.walk_site o before _ after f hoccurs hf'
    have hcall := laid.mem_calls progress ⟨before, after, f, hoccurs, hf', rfl⟩
    have hmove : d.moves (f.entry + g.offset o) (some (.rule rule)) (f.entry + g.offset o + 1) :=
      .inr hcall
    rw [laid.source_eq hf']
    exact ⟨(walk_ofDraft_iff progress hf' (.nil _)).2 hbefore,
      (walk_ofDraft_iff progress hf' (hbefore.append (.symbol hmove (.nil _)))).2 hafter⟩
  case source_injective =>
    intro o o' rule rule' h h' heq
    exact (laid.site_unique (hsite o rule h) (heq ▸ hsite o' rule' h')).1
  case target_injective =>
    intro o o' rule rule' h h' heq
    have heq' : d.source g o = d.source g o' := Nat.add_right_cancel heq
    exact (laid.site_unique (hsite o rule h) (heq' ▸ hsite o' rule' h')).1
  case call =>
    intro p call hmem
    obtain ⟨-, hcall, rfl⟩ := mem_callsFrom_ofDraft.1 hmem
    obtain ⟨htarget, o, ho⟩ := laid.call_site call hcall
    obtain ⟨hrefers, hsource⟩ := laid.refersAt_of_site ho
    refine ⟨o, hrefers, hsource, ?_⟩
    rw [← hsource, ← htarget]
  case predict =>
    intro p rule q h
    obtain ⟨position, hat⟩ := Nfa.leaves_iff_transitionAt.1 h
    obtain ⟨-, hcall, f, hf, rfl⟩ := (laid.predict_at _ _ _ _).1 hat
    obtain ⟨-, o, ho⟩ := laid.call_site _ hcall
    obtain ⟨hrefers, hsource⟩ := laid.refersAt_of_site ho
    exact ⟨o, f, hrefers, hfragment.2 hf, hsource, rfl⟩
  case complete =>
    intro p rule q h
    obtain ⟨f, call, hf, rfl, hcall, rfl, rfl⟩ := (laid.complete_iff _ _ _).1 h
    obtain ⟨htarget, o, ho⟩ := laid.call_site call hcall
    obtain ⟨hrefers, hsource⟩ := laid.refersAt_of_site ho
    exact ⟨o, f, hrefers, hfragment.2 hf, rfl, by rw [htarget, hsource]⟩
  case inside =>
    intro rule f symbols p hf walk
    have walk' := (walk_ofDraft_iff progress (hfragment.1 hf) (.nil _)).1 walk
    exact laid.owns_iff.2 (laid.walk_inside (hfragment.1 hf) walk')

end

end Draft

/-- The network of a grammar is done after as many rules as the grammar has, however large the
limit, and resolves every reference once. -/
theorem references_resolved {decls : Declarations} {g : Grammar}
    (declared : Declarations.Declared decls) (built : decls.build = .ok (.ok g)) :
    ∃ net, ofGrammar g = .ok net ∧
      (∀ limit, g.rules.length < limit → ofGrammarWithin g limit = .ok net) ∧
      ∃ source target, ResolvesReferences g net source target := by
  have wellFormed := Declarations.wellFormed_of_build declared built
  obtain ⟨d, owner', done, hnet, progress, hstart, grown⟩ := exists_grown wellFormed
  obtain ⟨owner, laid⟩ := grown.laid wellFormed
  refine ⟨_, hnet, fun limit hlimit => ?_, _, _, laid.resolvesReferences progress wellFormed hstart⟩
  rw [ofGrammarWithin_eq wellFormed hlimit, hnet]

/-- The start rule of the balanced parentheses occurs between them, in a rule that it reaches
itself. -/
theorem references_resolved_balanced : ∃ g net source target,
    Declarations.balanced.build = .ok (.ok g) ∧ ofGrammar g = .ok net ∧
      ResolvesReferences g net source target ∧ ∃ o f, g.RefersAt o g.start ∧
        net.fragmentOf? g.start = some f ∧
        net.callsFrom (source o) = [⟨source o, g.start, target o⟩] ∧
        net.nfa.Leaves f.exit (.symbol (.complete g.start) (target o)) := by
  have hgrammar : ∃ g r, Declarations.balanced.build = .ok (.ok g) ∧ g.start = 0 ∧
      g.rules[1]? = some r ∧
      r.productions[0]? = some ⟨1, [.lex 0, .rule 0, .lex 1]⟩ ∧
      ∀ p ∈ ([⟨0, [.rule 2]⟩, ⟨2, [.rule 1]⟩] : List Production), p ∈ g.productions :=
    ⟨_, _, rfl, rfl, rfl, rfl, by decide⟩
  obtain ⟨g, r, built, hstart, hrule, hproduction, hproductions⟩ := hgrammar
  obtain ⟨hmany, hone, -⟩ := by simpa only [List.forall_mem_cons] using hproductions
  obtain ⟨net, hnet, -, source, target, resolves⟩ :=
    references_resolved Declarations.declared_balanced built
  have hreaches : g.Reaches g.start 1 := by
    rw [hstart]
    exact .step hmany (List.mem_singleton_self _) (.step hone (List.mem_singleton_self _) (.refl 1))
  have hrefers : g.RefersAt ⟨1, 0, 1⟩ g.start := by
    refine ⟨hreaches, [.lex 0], [.lex 1], r, _, hrule, hproduction, ?_, rfl⟩
    rw [hstart]
    rfl
  obtain ⟨f, hf, hcall, -, ⟨position, hcompletes, -⟩⟩ := resolves.occurrence _ _ hrefers
  exact ⟨g, net, source, target, built, hnet, resolves, _, f, hrefers, hf, hcall,
    Nfa.leaves_iff_transitionAt.2 ⟨position, hcompletes⟩⟩

end RuleNetwork

end LexChart
