import LexChart.Proofs.Recognizer.Size
set_option autoImplicit false

/-!
# Where the symbols of a rule stand

The fragment of a rule begins with its two ends, and the productions follow one after the other,
with one state in front and two for each symbol: the site, where the symbol is read, and the state
behind it.  So every occurrence of a symbol has a site of its own, and the symbol is all that is
read there.
-/

namespace LexChart

/-- An item of a production of a rule, all by their numbers. -/
structure Occurrence where
  rule : Nat
  production : Nat
  position : Nat
  deriving DecidableEq

namespace Grammar

variable {g : Grammar} {o : Occurrence} {before after before' after' : List Symbol} {s s' : Symbol}

/-- A symbol occurs in a production, between the symbols before it and those after it. -/
def Occurs (g : Grammar) (o : Occurrence) (before : List Symbol) (s : Symbol)
    (after : List Symbol) : Prop :=
  ∃ r p, g.rules[o.rule]? = some r ∧ r.productions[o.production]? = some p ∧
    p.rhs = before ++ s :: after ∧ before.length = o.position

theorem Occurs.unique (h : g.Occurs o before s after) (h' : g.Occurs o before' s' after') :
    before = before' ∧ s = s' ∧ after = after' := by
  obtain ⟨r, p, hr, hp, hrhs, hlength⟩ := h
  obtain ⟨r', p', hr', hp', hrhs', hlength'⟩ := h'
  obtain rfl := Option.some.inj (hr.symm.trans hr')
  obtain rfl := Option.some.inj (hp.symm.trans hp')
  obtain ⟨hbefore, hrest⟩ := List.append_inj (hrhs.symm.trans hrhs') (hlength.trans hlength'.symm)
  obtain ⟨hs, hafter⟩ := List.cons.inj hrest
  exact ⟨hbefore, hs, hafter⟩

/-- What occurs in a rule stands in one of its productions. -/
theorem Occurs.mem_productions (wellFormed : g.WellFormed) (h : g.Occurs o before s after) :
    ⟨o.rule, before ++ s :: after⟩ ∈ g.productions := by
  obtain ⟨r, p, hr, hp, hrhs, -⟩ := h
  exact (RuleNetwork.Draft.productions_of_rule wellFormed hr _).1
    ⟨p, List.mem_of_getElem? hp, hrhs.symm⟩

/-- What stands in a production occurs in its rule. -/
theorem exists_occurs (wellFormed : g.WellFormed) {p : Production} (hp : p ∈ g.productions)
    (hs : s ∈ p.rhs) : ∃ o before after, o.rule = p.lhs ∧ g.Occurs o before s after := by
  obtain ⟨r, hr, hmem⟩ := List.mem_flatMap.1 hp
  obtain ⟨id, hid⟩ := List.mem_iff_getElem?.1 hr
  have hlhs : p.lhs = id := (wellFormed.lhs r hr p hmem).trans (wellFormed.rule_id id r hid)
  obtain ⟨production, hproduction⟩ := List.mem_iff_getElem?.1 hmem
  obtain ⟨before, after, hrhs⟩ := List.append_of_mem hs
  exact ⟨⟨p.lhs, production, before.length⟩, before, after, rfl, r, p, hlhs ▸ hid, hproduction,
    hrhs, rfl⟩

theorem Reaches.concat {rule : Nat} {p : Production} {callee : Nat} (h : g.Reaches rule p.lhs)
    (hp : p ∈ g.productions) (hcallee : .rule callee ∈ p.rhs) : g.Reaches rule callee := by
  generalize hlhs : p.lhs = last at h
  induction h with
  | refl rule =>
    subst hlhs
    exact .step hp hcallee (.refl callee)
  | step hfirst hmem _ ih => exact .step hfirst hmem (ih hlhs)

end Grammar

/-! ## Numbers of sites -/

/-- The number of states of a production. -/
def Production.width (p : Production) : Nat := 1 + 2 * p.rhs.length

theorem Rule.stateCount_eq (r : Rule) :
    r.stateCount = 2 + (r.productions.map Production.width).sum := by
  unfold Rule.stateCount Production.width
  simp [List.map_const', List.sum_replicate, Nat.mul_comm]

/-- Where an item of a production is read, counted from the first state of all productions. -/
def itemState : List Production → Nat → Nat → Nat
  | [], _, _ => 0
  | _ :: _, 0, position => 1 + 2 * position
  | p :: rest, production + 1, position => p.width + itemState rest production position

/-- Where an occurrence is read, counted from the entry of its rule. -/
def Grammar.offset (g : Grammar) (o : Occurrence) : Nat :=
  (g.rules[o.rule]?).elim 0 fun r => 2 + itemState r.productions o.production o.position

theorem itemState_lt {ps : List Production} {i j : Nat} {p : Production} (hp : ps[i]? = some p)
    (hj : j < p.rhs.length) : itemState ps i j + 1 < (ps.map Production.width).sum := by
  induction ps generalizing i with
  | nil => cases hp
  | cons q rest ih =>
    rw [List.map_cons, List.sum_cons]
    cases i with
    | zero =>
      obtain rfl := Option.some.inj hp
      simp only [itemState, Production.width]
      omega
    | succ i =>
      have hrest := ih hp
      simp only [itemState]
      omega

/-- Different items are read in different states. -/
theorem itemState_injective {ps : List Production} {i i' j j' : Nat} {p p' : Production}
    (hp : ps[i]? = some p) (hj : j < p.rhs.length) (hp' : ps[i']? = some p')
    (hj' : j' < p'.rhs.length) (h : itemState ps i j = itemState ps i' j') : i = i' ∧ j = j' := by
  induction ps generalizing i i' with
  | nil => cases hp
  | cons q rest ih =>
    cases i with
    | zero =>
      obtain rfl := Option.some.inj hp
      cases i' with
      | zero =>
        simp only [itemState] at h
        omega
      | succ i' =>
        simp only [itemState, Production.width] at h
        omega
    | succ i =>
      cases i' with
      | zero =>
        obtain rfl := Option.some.inj hp'
        simp only [itemState, Production.width] at h
        omega
      | succ i' =>
        simp only [itemState] at h
        obtain ⟨rfl, rfl⟩ := ih hp hp' (by omega)
        exact ⟨rfl, rfl⟩

namespace Grammar.Occurs

variable {g : Grammar} {o o' : Occurrence} {before after before' after' : List Symbol}
  {s s' : Symbol}

theorem exists_rule (h : g.Occurs o before s after) :
    ∃ r p, g.rules[o.rule]? = some r ∧ r.productions[o.production]? = some p ∧
      o.position < p.rhs.length ∧
      g.offset o = 2 + itemState r.productions o.production o.position := by
  obtain ⟨r, p, hr, hp, hrhs, hlength⟩ := h
  refine ⟨r, p, hr, hp, ?_, ?_⟩
  · rw [hrhs, ← hlength, List.length_append, List.length_cons]
    omega
  · rw [offset, hr]
    rfl

/-- The site and the state behind it lie in the fragment of the rule. -/
theorem offset_lt (h : g.Occurs o before s after) :
    g.offset o + 1 < RuleNetwork.Draft.statesOf g o.rule := by
  obtain ⟨r, p, hr, hp, hposition, hoffset⟩ := h.exists_rule
  have hlt := itemState_lt hp hposition
  rw [RuleNetwork.Draft.statesOf, hr, hoffset]
  show _ < r.stateCount
  rw [r.stateCount_eq]
  omega

/-- Different occurrences in a rule have different sites. -/
theorem eq_of_offset_eq (h : g.Occurs o before s after) (h' : g.Occurs o' before' s' after')
    (hrule : o.rule = o'.rule) (hoffset : g.offset o = g.offset o') : o = o' := by
  obtain ⟨r, p, hr, hp, hposition, heq⟩ := h.exists_rule
  obtain ⟨r', p', hr', hp', hposition', heq'⟩ := h'.exists_rule
  rw [← hrule, hr] at hr'
  obtain rfl := Option.some.inj hr'
  obtain ⟨hproduction, hpos⟩ :=
    itemState_injective hp hposition hp' hposition' (by omega)
  cases o
  cases o'
  simp_all

end Grammar.Occurs

/-! ## Transitions by their positions -/

namespace Nfa

variable {L : Type} {nfa : Nfa L}

/-- The number of transitions that leave a state. -/
def outDegree (nfa : Nfa L) (id : Nat) : Nat :=
  (nfa.states[id]?).elim 0 fun s => s.transitions.length

theorem lt_outDegree {id position : Nat} {t : Transition L}
    (h : nfa.transitionAt id position = some t) : position < nfa.outDegree id := by
  obtain ⟨s, hs, ht⟩ := Option.bind_eq_some_iff.1 h
  rw [outDegree, hs]
  exact (List.getElem?_eq_some_iff.1 ht).1

theorem transitionAt_addState (nfa : Nfa L) (id position : Nat) :
    nfa.addState.1.transitionAt id position = nfa.transitionAt id position := by
  unfold transitionAt
  rw [getElem?_addState]
  split
  · rename_i hid
    rw [Array.getElem?_eq_none (by rw [hid]; exact Nat.le_refl _)]
    rfl
  · rfl

/-- A transition that is added gets the next position. -/
theorem transitionAt_addTransition_eq {source : Nat} (h : source < nfa.size) (t : Transition L)
    (id position : Nat) :
    (nfa.modifyState source fun s => s.addTransition t).transitionAt id position =
      if id = source ∧ position = nfa.outDegree source then some t
      else nfa.transitionAt id position := by
  unfold transitionAt outDegree
  rw [getElem?_modifyState]
  by_cases hid : source = id
  · subst hid
    have hs : nfa.states[source]? = some nfa.states[source] := Array.getElem?_eq_getElem h
    generalize nfa.states[source] = s at hs
    rw [if_pos rfl, hs]
    show (s.transitions ++ [t])[position]? =
      if source = source ∧ position = s.transitions.length then some t else s.transitions[position]?
    by_cases hposition : position = s.transitions.length
    · rw [if_pos ⟨rfl, hposition⟩, hposition, List.getElem?_concat_length]
    · rw [if_neg fun h => hposition h.2]
      refine Option.ext fun u => getElem?_concat_eq_some_iff.trans ?_
      exact or_iff_left fun h => hposition h.1
  · rw [if_neg hid, if_neg fun h => hid h.1.symm]

end Nfa

namespace RuleNetwork

open Building NetworkLabel

/-- What has been added to an automaton reads symbols at its sites only: one each, at the first
position, and to the next state. -/
structure Lays (nfa nfa' : Nfa NetworkLabel) (site : Nat → Symbol → Prop) : Prop where
  kept : ∀ id t, nfa.Leaves id t → nfa'.Leaves id t
  symbol_iff : ∀ id position label target,
    nfa'.transitionAt id position = some (.symbol label target) ↔
      nfa.transitionAt id position = some (.symbol label target) ∨
        (position = 0 ∧ target = id + 1 ∧ ∃ s, site id s ∧ label = ofSymbol s)

namespace Lays

variable {nfa nfa' nfa'' : Nfa NetworkLabel} {site site' sites : Nat → Symbol → Prop}

theorem trans (h : Lays nfa nfa' site) (k : Lays nfa' nfa'' site')
    (hsites : ∀ id s, sites id s ↔ site id s ∨ site' id s) : Lays nfa nfa'' sites := by
  refine ⟨fun id t ht => k.kept id t (h.kept id t ht), fun id position label target => ?_⟩
  rw [k.symbol_iff, h.symbol_iff, or_assoc]
  simp only [hsites, or_and_right, exists_or, and_or_left]

theorem addState (nfa : Nfa NetworkLabel) : Lays nfa nfa.addState.1 fun _ _ => False := by
  refine ⟨fun id t ht => Nfa.leaves_addState.2 ht, fun id position label target => ?_⟩
  rw [Nfa.transitionAt_addState]
  simp

theorem linked (nfa : Nfa NetworkLabel) (source target : Nat) :
    Lays nfa (nfa.linked source target) fun _ _ => False := by
  refine ⟨fun id t ht => Nfa.leaves_addTransition.2 (.inl ht), fun id position label other => ?_⟩
  constructor
  · intro h
    rcases (Nfa.transitionAt_addTransition source (.null target)).2 _ h with h | h
    · exact .inl h
    · cases h
  · rintro (h | ⟨-, -, s, h, -⟩)
    · exact (Nfa.transitionAt_addTransition source (.null target)).1 _ h
    · exact h.elim

theorem symbols (nfa : Nfa NetworkLabel) (s : Symbol) :
    Lays nfa (symbols [ofSymbol s] nfa).2 fun id t => id = nfa.size ∧ t = s := by
  have hnew : nfa.addState.1.addState.1.size = nfa.size + 2 := by
    rw [Nfa.size_addState, Nfa.size_addState]
  have hlt : nfa.size < nfa.addState.1.addState.1.size := by omega
  have hold : ∀ id position, nfa.addState.1.addState.1.transitionAt id position =
      nfa.transitionAt id position := by
    intro id position
    rw [Nfa.transitionAt_addState, Nfa.transitionAt_addState]
  have hnone : ∀ position, nfa.transitionAt nfa.size position = none := by
    intro position
    have hstate : nfa.states[nfa.size]? = none := Array.getElem?_eq_none (Nat.le_refl _)
    rw [Nfa.transitionAt, hstate]
    rfl
  have hdegree : nfa.addState.1.addState.1.outDegree nfa.size = 0 := by
    have hne : nfa.size ≠ nfa.addState.1.size := by rw [Nfa.size_addState]; omega
    unfold Nfa.outDegree
    rw [Nfa.getElem?_addState, if_neg hne, Nfa.getElem?_addState, if_pos rfl]
    rfl
  refine ⟨fun id t ht => ?_, fun id position label target => ?_⟩
  · exact Nfa.leaves_addTransition.2 (.inl (Nfa.leaves_addState.2 (Nfa.leaves_addState.2 ht)))
  · show (Nfa.modifyState nfa.addState.1.addState.1 nfa.size fun u =>
      u.addTransition (.symbol (ofSymbol s) nfa.addState.1.size)).transitionAt id position = _ ↔ _
    rw [Nfa.transitionAt_addTransition_eq hlt, hdegree, hold, Nfa.size_addState]
    split
    · rename_i hat
      obtain ⟨rfl, rfl⟩ := hat
      rw [hnone]
      constructor
      · intro h
        cases h
        exact .inr ⟨rfl, rfl, s, ⟨rfl, rfl⟩, rfl⟩
      · rintro (h | ⟨-, rfl, _, ⟨-, rfl⟩, rfl⟩)
        · cases h
        · rfl
    · rename_i hat
      constructor
      · exact .inl
      · rintro (h | ⟨rfl, -, _, ⟨rfl, -⟩, -⟩)
        · exact h
        · exact absurd ⟨rfl, rfl⟩ hat

/-- A path stays. -/
theorem path (h : Lays nfa nfa' site) {p q : Nat} {w : List Symbol}
    (path : nfa.Path Reads p w q) : nfa'.Path Reads p w q :=
  path.mono h.kept

/-- A site reads its symbol. -/
theorem path_site (h : Lays nfa nfa' site) {id : Nat} {s : Symbol} (hsite : site id s) :
    nfa'.Path Reads id [s] (id + 1) := by
  have hat := (h.symbol_iff id 0 (ofSymbol s) (id + 1)).2 (.inr ⟨rfl, rfl, s, hsite, rfl⟩)
  exact .symbol (Nfa.leaves_iff_transitionAt.2 ⟨0, hat⟩) rfl (.nil _)

end Lays

/-! ## Sequences -/

/-- Reads one symbol. -/
def itemBuilder (s : Symbol) : Building NetworkLabel Fragment := symbols [ofSymbol s]

/-- Reads the symbols of a production. -/
def productionBuilder (p : Production) : Building NetworkLabel Fragment :=
  sequence (p.rhs.map itemBuilder)

theorem framed_itemBuilder (s : Symbol) : Framed Inner (itemBuilder s) :=
  framed_symbols fun _ hlabel => List.mem_singleton.1 hlabel ▸ inner_ofSymbol s

theorem framed_productionBuilder (p : Production) : Framed Inner (productionBuilder p) := by
  refine framed_sequence fun b hb => ?_
  obtain ⟨s, -, rfl⟩ := List.mem_map.1 hb
  exact framed_itemBuilder s

theorem adds_productionBuilder (p : Production) : Adds (productionBuilder p) p.width := by
  have hadds : Adds (productionBuilder p) (1 + (p.rhs.map fun _ => 2).sum) :=
    adds_sequence fun s _ => adds_symbols _
  simpa [Production.width, Nat.mul_comm] using hadds

theorem exit_itemBuilder (s : Symbol) (nfa : Nfa NetworkLabel) :
    (itemBuilder s nfa).1.exit = nfa.size + 1 := Nfa.size_addState nfa

/-- The first symbol is linked behind a state, and the others behind the first. -/
theorem chain_itemBuilder_cons (last : Nat) (s : Symbol) (symbols : List Symbol)
    (nfa : Nfa NetworkLabel) :
    chain last ((s :: symbols).map itemBuilder) nfa =
      chain (nfa.size + 1) (symbols.map itemBuilder) (attached (itemBuilder s) last nfa) := by
  rw [← exit_itemBuilder s]
  rfl

theorem size_attached_itemBuilder (last : Nat) (s : Symbol) (nfa : Nfa NetworkLabel) :
    (attached (itemBuilder s) last nfa).size = nfa.size + 2 :=
  (size_attached ..).trans (adds_symbols _ nfa)

theorem lays_attached (last : Nat) (s : Symbol) (nfa : Nfa NetworkLabel) :
    Lays nfa (attached (itemBuilder s) last nfa) fun id t => id = nfa.size ∧ t = s :=
  (Lays.symbols nfa s).trans (.linked _ _ _) fun _ _ => by simp

/-- The sites of a sequence behind the states that there were. -/
def SequenceSite (base : Nat) (symbols : List Symbol) (id : Nat) (s : Symbol) : Prop :=
  ∃ before after, symbols = before ++ s :: after ∧ id = base + 2 * before.length

theorem sequenceSite_cons_iff {base id : Nat} {symbols : List Symbol} {s t : Symbol} :
    SequenceSite base (s :: symbols) id t ↔
      (id = base ∧ t = s) ∨ SequenceSite (base + 2) symbols id t := by
  constructor
  · rintro ⟨before, after, hsymbols, rfl⟩
    cases before with
    | nil =>
      cases hsymbols
      exact .inl ⟨rfl, rfl⟩
    | cons u before =>
      cases hsymbols
      refine .inr ⟨before, after, rfl, ?_⟩
      rw [List.length_cons]
      omega
  · rintro (⟨rfl, rfl⟩ | ⟨before, after, rfl, rfl⟩)
    · exact ⟨[], symbols, rfl, rfl⟩
    · refine ⟨s :: before, after, rfl, ?_⟩
      rw [List.length_cons]
      omega

theorem lays_chain (last : Nat) (symbols : List Symbol) (nfa : Nfa NetworkLabel) :
    Lays nfa (chain last (symbols.map itemBuilder) nfa).2 (SequenceSite nfa.size symbols) := by
  induction symbols generalizing last nfa with
  | nil =>
    refine ⟨fun _ _ h => h, fun id position label target => (or_iff_left ?_).symm⟩
    rintro ⟨-, -, s, ⟨before, after, h, -⟩, -⟩
    cases before <;> cases h
  | cons s symbols ih =>
    rw [chain_itemBuilder_cons]
    refine (lays_attached last s nfa).trans (ih (nfa.size + 1) _) fun id t => ?_
    rw [size_attached_itemBuilder, sequenceSite_cons_iff]

section

variable (last : Nat) (nfa : Nfa NetworkLabel)

/-- Behind the state that the first symbol is linked to, the symbol can be read. -/
theorem path_attached (h : last < nfa.size) (s : Symbol) :
    (attached (itemBuilder s) last nfa).Path Reads last [] nfa.size ∧
      (attached (itemBuilder s) last nfa).Path Reads nfa.size [s] (nfa.size + 1) := by
  refine ⟨?_, (lays_attached last s nfa).path_site ⟨rfl, rfl⟩⟩
  have hlt : last < (itemBuilder s nfa).2.size :=
    Nat.lt_of_lt_of_le h ((framed_itemBuilder s).grows nfa).size_le
  exact .null (Nfa.leaves_linked _ nfa.size hlt) (.nil _)

/-- A chain reads all its symbols. -/
theorem path_chain (symbols : List Symbol) (h : last < nfa.size) :
    (chain last (symbols.map itemBuilder) nfa).2.Path Reads last symbols
      (chain last (symbols.map itemBuilder) nfa).1 := by
  induction symbols generalizing last nfa with
  | nil => exact .nil last
  | cons s symbols ih =>
    rw [chain_itemBuilder_cons]
    have hsize := size_attached_itemBuilder last s nfa
    have hrest := ih (nfa.size + 1) (attached (itemBuilder s) last nfa) (by omega)
    have hlays := lays_chain (nfa.size + 1) symbols (attached (itemBuilder s) last nfa)
    obtain ⟨hfirst, hread⟩ := path_attached last nfa h s
    exact (hlays.path (hfirst.append hread)).append hrest

/-- A chain leads to each of its sites, and from behind it to the end. -/
theorem path_chain_site (before after : List Symbol) (s : Symbol) (h : last < nfa.size) :
    (chain last ((before ++ s :: after).map itemBuilder) nfa).2.Path Reads last before
        (nfa.size + 2 * before.length) ∧
      (chain last ((before ++ s :: after).map itemBuilder) nfa).2.Path Reads
        (nfa.size + 2 * before.length + 1) after
        (chain last ((before ++ s :: after).map itemBuilder) nfa).1 := by
  induction before generalizing last nfa with
  | nil =>
    rw [List.nil_append, chain_itemBuilder_cons]
    have hsize := size_attached_itemBuilder last s nfa
    have hlays := lays_chain (nfa.size + 1) after (attached (itemBuilder s) last nfa)
    exact ⟨hlays.path (path_attached last nfa h s).1, path_chain _ _ after (by omega)⟩
  | cons t before ih =>
    rw [List.cons_append, chain_itemBuilder_cons]
    have hsize := size_attached_itemBuilder last t nfa
    have hlays :=
      lays_chain (nfa.size + 1) (before ++ s :: after) (attached (itemBuilder t) last nfa)
    obtain ⟨hsite, hbehind⟩ :=
      ih (nfa.size + 1) (attached (itemBuilder t) last nfa) (by omega)
    have hindex : nfa.size + 2 * (t :: before).length =
        (attached (itemBuilder t) last nfa).size + 2 * before.length := by
      rw [List.length_cons]
      omega
    rw [hindex]
    obtain ⟨hfirst, hread⟩ := path_attached last nfa h t
    exact ⟨(hlays.path (hfirst.append hread)).append hsite, hbehind⟩

end

theorem lays_productionBuilder (p : Production) (nfa : Nfa NetworkLabel) :
    Lays nfa (productionBuilder p nfa).2 (SequenceSite (nfa.size + 1) p.rhs) := by
  have hchain := lays_chain nfa.size p.rhs nfa.addState.1
  rw [Nfa.size_addState] at hchain
  exact (Lays.addState nfa).trans hchain fun _ _ => by simp

theorem path_productionBuilder {p : Production} {before after : List Symbol} {s : Symbol}
    (h : p.rhs = before ++ s :: after) (nfa : Nfa NetworkLabel) :
    (productionBuilder p nfa).2.Path Reads nfa.size before
        (nfa.size + (1 + 2 * before.length)) ∧
      (productionBuilder p nfa).2.Path Reads (nfa.size + (1 + 2 * before.length) + 1) after
        (productionBuilder p nfa).1.exit := by
  have hsize := Nfa.size_addState nfa
  have hchain := path_chain_site nfa.size nfa.addState.1 before after s (by omega)
  rw [hsize, ← h, Nat.add_assoc nfa.size 1] at hchain
  exact hchain

/-! ## Rules -/

/-- The automaton with the fragment of a production between two states. -/
def branched (entry exit : Nat) (p : Production) (nfa : Nfa NetworkLabel) : Nfa NetworkLabel :=
  (attached (productionBuilder p) entry nfa).linked (productionBuilder p nfa).1.exit exit

theorem branches_productionBuilder_cons (entry exit : Nat) (p : Production) (ps : List Production)
    (nfa : Nfa NetworkLabel) :
    branches entry exit ((p :: ps).map productionBuilder) nfa =
      branches entry exit (ps.map productionBuilder) (branched entry exit p nfa) := rfl

theorem size_branched (entry exit : Nat) (p : Production) (nfa : Nfa NetworkLabel) :
    (branched entry exit p nfa).size = nfa.size + p.width :=
  ((Nfa.size_linked ..).trans (size_attached ..)).trans (adds_productionBuilder p nfa)

theorem lays_branched (entry exit : Nat) (p : Production) (nfa : Nfa NetworkLabel) :
    Lays nfa (branched entry exit p nfa) (SequenceSite (nfa.size + 1) p.rhs) := by
  have hattached : Lays nfa (attached (productionBuilder p) entry nfa)
      (SequenceSite (nfa.size + 1) p.rhs) :=
    (lays_productionBuilder p nfa).trans (.linked _ _ _) fun _ _ => by simp
  exact hattached.trans (.linked _ _ _) fun _ _ => by simp

/-- The sites of some productions behind the states that there were. -/
def ProductionSite (base : Nat) (ps : List Production) (id : Nat) (s : Symbol) : Prop :=
  ∃ i p before after, ps[i]? = some p ∧ p.rhs = before ++ s :: after ∧
    id = base + itemState ps i before.length

theorem productionSite_cons_iff {base id : Nat} {p : Production} {ps : List Production}
    {s : Symbol} : ProductionSite base (p :: ps) id s ↔
      SequenceSite (base + 1) p.rhs id s ∨ ProductionSite (base + p.width) ps id s := by
  constructor
  · rintro ⟨i, q, before, after, hq, hrhs, rfl⟩
    cases i with
    | zero =>
      cases hq
      refine .inl ⟨before, after, hrhs, ?_⟩
      simp only [itemState]
      omega
    | succ i =>
      refine .inr ⟨i, q, before, after, hq, hrhs, ?_⟩
      simp only [itemState]
      omega
  · rintro (⟨before, after, hrhs, rfl⟩ | ⟨i, q, before, after, hq, hrhs, rfl⟩)
    · refine ⟨0, p, before, after, rfl, hrhs, ?_⟩
      simp only [itemState]
      omega
    · refine ⟨i + 1, q, before, after, hq, hrhs, ?_⟩
      simp only [itemState]
      omega

theorem lays_branches (entry exit : Nat) (ps : List Production) (nfa : Nfa NetworkLabel) :
    Lays nfa (branches entry exit (ps.map productionBuilder) nfa).2
      (ProductionSite nfa.size ps) := by
  induction ps generalizing nfa with
  | nil =>
    refine ⟨fun _ _ h => h, fun id position label target => (or_iff_left ?_).symm⟩
    rintro ⟨-, -, s, ⟨i, p, _, _, h, -⟩, -⟩
    cases h
  | cons p ps ih =>
    rw [branches_productionBuilder_cons]
    refine (lays_branched entry exit p nfa).trans (ih _) fun id s => ?_
    rw [size_branched, productionSite_cons_iff]

/-- The entry leads to each site of the productions, and from behind it there is a way to the
exit. -/
theorem path_branches (entry exit : Nat) {ps : List Production} (nfa : Nfa NetworkLabel) {i : Nat}
    {p : Production} {before after : List Symbol} {s : Symbol} (hentry : entry < nfa.size)
    (hp : ps[i]? = some p) (hrhs : p.rhs = before ++ s :: after) :
    (branches entry exit (ps.map productionBuilder) nfa).2.Path Reads entry before
        (nfa.size + itemState ps i before.length) ∧
      (branches entry exit (ps.map productionBuilder) nfa).2.Path Reads
        (nfa.size + itemState ps i before.length + 1) after exit := by
  induction ps generalizing nfa i with
  | nil => cases hp
  | cons q ps ih =>
    rw [branches_productionBuilder_cons]
    cases i with
    | zero =>
      obtain rfl := Option.some.inj hp
      obtain ⟨hsite, hbehind⟩ := path_productionBuilder hrhs nfa
      have hframed := framed_productionBuilder q
      have hlays : Lays (productionBuilder q nfa).2 (branched entry exit q nfa) fun _ _ => False :=
        (Lays.linked _ _ _).trans (.linked _ _ _) fun _ _ => by simp
      have hrest := lays_branches entry exit ps (branched entry exit q nfa)
      have hin : (branched entry exit q nfa).Leaves entry (.null nfa.size) := by
        have hlt := Nat.lt_of_lt_of_le hentry (hframed.grows nfa).size_le
        exact Nfa.leaves_addTransition.2 (.inl (Nfa.leaves_linked _ _ hlt))
      have hout : (branched entry exit q nfa).Leaves (productionBuilder q nfa).1.exit
          (.null exit) := by
        refine Nfa.leaves_linked _ _ ?_
        rw [size_attached]
        exact hframed.exit_lt nfa
      exact ⟨hrest.path (.null hin (hlays.path hsite)), by
        have hend := (hlays.path hbehind).append (.null hout (.nil exit))
        rw [List.append_nil] at hend
        exact hrest.path hend⟩
    | succ i =>
      have hsize := size_branched entry exit q nfa
      have hrest := ih (branched entry exit q nfa) (by omega) hp
      rw [hsize, Nat.add_assoc nfa.size] at hrest
      exact hrest

theorem entry_ruleBuilder (r : Rule) (nfa : Nfa NetworkLabel) :
    (ruleBuilder r nfa).1.entry = nfa.size := by
  rw [ruleBuilder_eq]
  rfl

theorem exit_ruleBuilder (r : Rule) (nfa : Nfa NetworkLabel) :
    (ruleBuilder r nfa).1.exit = nfa.size + 1 := by
  rw [ruleBuilder_eq]
  exact Nfa.size_addState nfa

section

variable {g : Grammar} {rule : Nat} {r : Rule}

/-- The fragment of a rule reads symbols at the sites of their occurrences. -/
theorem lays_ruleBuilder (h : g.rules[rule]? = some r) (nfa : Nfa NetworkLabel) :
    Lays nfa (ruleBuilder r nfa).2 fun id s => ∃ o before after, o.rule = rule ∧
      g.Occurs o before s after ∧ id = nfa.size + g.offset o := by
  rw [ruleBuilder_eq]
  have hends : Lays nfa nfa.addState.1.addState.1 fun _ _ => False :=
    (Lays.addState nfa).trans (.addState _) fun _ _ => by simp
  have hbranches := lays_branches nfa.size nfa.addState.1.size r.productions
    nfa.addState.1.addState.1
  have hsize : nfa.addState.1.addState.1.size = nfa.size + 2 := by
    rw [Nfa.size_addState, Nfa.size_addState]
  rw [hsize] at hbranches
  refine hends.trans hbranches fun id s => ?_
  rw [false_or]
  constructor
  · rintro ⟨o, before, after, rfl, ⟨r', p, hr', hp, hrhs, hlength⟩, rfl⟩
    obtain rfl := Option.some.inj (h.symm.trans hr')
    refine ⟨o.production, p, before, after, hp, hrhs, ?_⟩
    rw [hlength, Grammar.offset, h, Option.elim_some]
    omega
  · rintro ⟨i, p, before, after, hp, hrhs, rfl⟩
    refine ⟨⟨rule, i, before.length⟩, before, after, rfl, ⟨r, p, h, hp, hrhs, rfl⟩, ?_⟩
    rw [Grammar.offset, h, Option.elim_some, Nat.add_assoc]

/-- What stands before an occurrence leads from the entry of its rule to its site, and what stands
after it from the state behind the site to the exit. -/
theorem path_ruleBuilder {o : Occurrence} {before after : List Symbol} {s : Symbol}
    (h : g.rules[o.rule]? = some r) (hoccurs : g.Occurs o before s after)
    (nfa : Nfa NetworkLabel) :
    (ruleBuilder r nfa).2.Path Reads (ruleBuilder r nfa).1.entry before (nfa.size + g.offset o) ∧
      (ruleBuilder r nfa).2.Path Reads (nfa.size + g.offset o + 1) after
        (ruleBuilder r nfa).1.exit := by
  obtain ⟨r', p, hr', hp, hrhs, hlength⟩ := hoccurs
  obtain rfl := Option.some.inj (h.symm.trans hr')
  have hsize : nfa.addState.1.addState.1.size = nfa.size + 2 := by
    rw [Nfa.size_addState, Nfa.size_addState]
  have hpath := path_branches nfa.size nfa.addState.1.size nfa.addState.1.addState.1 (by omega) hp
    hrhs
  rw [hsize, hlength, Nat.add_assoc nfa.size 2] at hpath
  rw [Grammar.offset, h, Option.elim_some, ruleBuilder_eq]
  exact hpath

end

end RuleNetwork

end LexChart
