import LexChart.Proofs.Automaton.Determinism
import LexChart.Proofs.Automaton.Transport
import LexChart.Proofs.Charset.Invariance
set_option autoImplicit false

/-!
# Automata put together in another order

Two automata that differ in the order of the transitions of their states, or in the numbers of their
states, are made deterministic alike.  The closures of the second are those of the first with their
states renumbered; classes of labels depend on the labels alone; and so both are explored in the
same order, and the deterministic automata have the same shape.  If no state has another number they
are the same.
-/

namespace LexChart

/-! ## Renumbered states -/

/-- The transition with its target renumbered. -/
def Transition.renumber {L : Type} (σ : Nat → Nat) : Transition L → Transition L
  | null target => null (σ target)
  | symbol label target => symbol label (σ target)

/-- The closure of the renumbered states. -/
def Closure.renumber (σ : Nat → Nat) (c : Closure) : Closure := .ofList (c.states.map σ)

/-- The completion with its states renumbered. -/
def Completion.renumber (σ : Nat → Nat) (m : Completion) : Completion :=
  ⟨m.rule, ascending (m.states.map σ)⟩

/-- The edge to the renumbered closure. -/
def SubsetEdge.renumber {L : Type} (σ : Nat → Nat) (e : SubsetEdge L) : SubsetEdge L :=
  ⟨e.label, e.closure.renumber σ, e.completions.map (Completion.renumber σ)⟩

theorem Closure.mem_renumber {σ : Nat → Nat} {c : Closure} {id : Nat} :
    id ∈ c.renumber σ ↔ ∃ p ∈ c, σ p = id := by
  rw [renumber, mem_ofList, List.mem_map]
  rfl

theorem Closure.exists_mem_renumber {σ : Nat → Nat} {c : Closure} {P : Nat → Prop} :
    (∃ q ∈ c.renumber σ, P q) ↔ ∃ p ∈ c, P (σ p) := by
  simp only [mem_renumber]
  constructor
  · rintro ⟨_, ⟨p, hp, rfl⟩, h⟩
    exact ⟨p, hp, h⟩
  · rintro ⟨p, hp, h⟩
    exact ⟨σ p, ⟨p, hp, rfl⟩, h⟩

/-- The second automaton has the states of the first under other numbers, each with its transitions
in any order. -/
structure Nfa.Renumbers {L : Type} (σ : Nat → Nat) (nfa nfa' : Nfa L) : Prop where
  size_eq : nfa'.size = nfa.size
  lt : ∀ id < nfa.size, σ id < nfa.size
  inj : ∀ a < nfa.size, ∀ b < nfa.size, σ a = σ b → a = b
  state : ∀ id s, nfa.state id = .ok s → ∃ s', nfa'.state (σ id) = .ok s' ∧ s'.accept = s.accept ∧
    s'.transitions.Perm (s.transitions.map (Transition.renumber σ))

namespace Nfa.Renumbers

variable {L α : Type} {σ : Nat → Nat} {nfa nfa' : Nfa L} {reads : L → α → Prop} {p : Nat}

/-- Every number is the new one of some state. -/
theorem exists_eq (h : Renumbers σ nfa nfa') {id : Nat} (hid : id < nfa.size) :
    ∃ p < nfa.size, σ p = id := by
  let f : Fin nfa.size → Fin nfa.size := fun p => ⟨σ p, h.lt p p.isLt⟩
  have hinj : Function.Injective f := fun a b heq =>
    Fin.ext (h.inj a a.isLt b b.isLt (congrArg Fin.val heq))
  obtain ⟨p, hp⟩ := Finite.injective_iff_surjective.1 hinj ⟨id, hid⟩
  exact ⟨p, p.isLt, congrArg Fin.val hp⟩

theorem leaves_iff (h : Renumbers σ nfa nfa') (hp : p < nfa.size) {t' : Transition L} :
    nfa'.Leaves (σ p) t' ↔ ∃ t, nfa.Leaves p t ∧ t.renumber σ = t' := by
  obtain ⟨s', hs', -, hperm⟩ := h.state p _ (state_of_lt hp)
  rw [leaves_iff_of_state hs', hperm.mem_iff, List.mem_map]
  simp only [leaves_iff_of_state (state_of_lt hp)]

theorem leaves_null_iff (h : Renumbers σ nfa nfa') (hp : p < nfa.size) {q' : Nat} :
    nfa'.Leaves (σ p) (.null q') ↔ ∃ q, nfa.Leaves p (.null q) ∧ σ q = q' := by
  rw [h.leaves_iff hp]
  constructor
  · rintro ⟨t, leaves, heq⟩
    cases t with
    | null q =>
      cases heq
      exact ⟨q, leaves, rfl⟩
    | symbol label q => cases heq
  · rintro ⟨q, leaves, rfl⟩
    exact ⟨.null q, leaves, rfl⟩

theorem leaves_symbol_iff (h : Renumbers σ nfa nfa') (hp : p < nfa.size) {l : L} {q' : Nat} :
    nfa'.Leaves (σ p) (.symbol l q') ↔ ∃ q, nfa.Leaves p (.symbol l q) ∧ σ q = q' := by
  rw [h.leaves_iff hp]
  constructor
  · rintro ⟨t, leaves, heq⟩
    cases t with
    | null q => cases heq
    | symbol label q =>
      cases heq
      exact ⟨q, leaves, rfl⟩
  · rintro ⟨q, leaves, rfl⟩
    exact ⟨.symbol l q, leaves, rfl⟩

theorem targetsExist (h : Renumbers σ nfa nfa') (htargets : nfa.TargetsExist) :
    nfa'.TargetsExist := by
  intro id t' leaves
  obtain ⟨p, hp, rfl⟩ := h.exists_eq (h.size_eq ▸ leaves.lt)
  obtain ⟨t, first, rfl⟩ := (h.leaves_iff hp).1 leaves
  have hlt := h.lt _ (htargets p t first)
  rw [h.size_eq]
  cases t <;> exact hlt

/-- Null transitions lead to the new numbers of what they lead to. -/
theorem nullReach_iff (h : Renumbers σ nfa nfa') (htargets : nfa.TargetsExist) (hp : p < nfa.size)
    {r' : Nat} : nfa'.NullReach (σ p) r' ↔ ∃ r, nfa.NullReach p r ∧ σ r = r' := by
  constructor
  · intro hreach
    generalize hsource : σ p = p' at hreach
    induction hreach generalizing p with
    | refl => exact ⟨p, .refl p, hsource⟩
    | step leaves _ ih =>
      subst hsource
      obtain ⟨q, first, hq⟩ := (h.leaves_null_iff hp).1 leaves
      obtain ⟨r, hreach, hr⟩ := ih (htargets p _ first) hq
      exact ⟨r, .step first hreach, hr⟩
  · rintro ⟨r, hreach, rfl⟩
    induction hreach with
    | refl => exact .refl _
    | step leaves _ ih =>
      exact .step ((h.leaves_null_iff hp).2 ⟨_, leaves, rfl⟩) (ih (htargets _ _ leaves))

theorem moves_iff (h : Renumbers σ nfa nfa') (htargets : nfa.TargetsExist) (hp : p < nfa.size)
    {a : α} {r' : Nat} :
    nfa'.Moves reads (σ p) a r' ↔ ∃ r, nfa.Moves reads p a r ∧ σ r = r' := by
  constructor
  · rintro ⟨l, q', leaves, stands, hreach⟩
    obtain ⟨q, first, rfl⟩ := (h.leaves_symbol_iff hp).1 leaves
    obtain ⟨r, hreach, hr⟩ := (h.nullReach_iff htargets (htargets p _ first)).1 hreach
    exact ⟨r, ⟨l, q, first, stands, hreach⟩, hr⟩
  · rintro ⟨r, ⟨l, q, leaves, stands, hreach⟩, rfl⟩
    refine ⟨l, σ q, (h.leaves_symbol_iff hp).2 ⟨q, leaves, rfl⟩, stands, ?_⟩
    exact (h.nullReach_iff htargets (htargets p _ leaves)).2 ⟨r, hreach, rfl⟩

theorem accept?_eq (h : Renumbers σ nfa nfa') (hp : p < nfa.size) :
    nfa'.accept? (σ p) = nfa.accept? p := by
  obtain ⟨s', hs', haccept, -⟩ := h.state p _ (state_of_lt hp)
  have hlt := lt_of_state hs'
  rw [state_of_lt hlt] at hs'
  cases hs'
  unfold accept?
  rw [Array.getElem?_eq_getElem hp, Array.getElem?_eq_getElem hlt]
  exact haccept

end Nfa.Renumbers

/-! ## Closures and completions -/

namespace Nfa

variable {L : Type} {nfa : Nfa L} {c : Closure}

/-- The completions of a closure: its rules in ascending order, each with its final states. -/
def completionsOf (nfa : Nfa L) (c : Closure) : List Completion :=
  (ascending (c.states.filterMap nfa.accept?)).map fun rule =>
    ⟨rule, c.states.filter fun id => nfa.accept? id = some rule⟩

theorem completions_eq (h : c.Within nfa.size) : nfa.completions c = .ok (nfa.completionsOf c) := by
  unfold completions completionsOf
  rw [finals_eq h]
  show Except.ok _ = Except.ok _
  have hkeys : (c.states.filterMap fun id => (nfa.accept? id).map (·, id)).map Prod.fst =
      c.states.filterMap nfa.accept? := by
    simp [List.map_filterMap, Function.comp_def]
  unfold groups
  rw [hkeys, List.map_map]
  refine congrArg Except.ok (List.map_congr_left fun rule _ => ?_)
  refine congrArg (Completion.mk rule) ?_
  rw [List.filterMap_filterMap, ← List.filterMap_eq_filter]
  refine List.filterMap_congr fun id _ => ?_
  cases h : nfa.accept? id <;> simp [Option.guard, h]

end Nfa

namespace Closure

variable {σ : Nat → Nat} {size : Nat} {c d : Closure}

theorem renumber_within (hσ : ∀ id < size, σ id < size) (h : c.Within size) :
    (c.renumber σ).Within size := by
  intro id hid
  obtain ⟨p, hp, rfl⟩ := mem_renumber.1 hid
  exact hσ p (h p hp)

theorem renumber_inj (inj : ∀ a < size, ∀ b < size, σ a = σ b → a = b) (hc : c.Within size)
    (hd : d.Within size) (heq : c.renumber σ = d.renumber σ) : c = d := by
  have hmem : ∀ {c : Closure}, c.Within size → ∀ p < size, σ p ∈ c.renumber σ ↔ p ∈ c := by
    intro c hc p hp
    rw [mem_renumber]
    constructor
    · rintro ⟨q, hq, hqp⟩
      exact inj q (hc q hq) p hp hqp ▸ hq
    · exact fun h => ⟨p, h, rfl⟩
  ext p
  constructor
  · intro hp
    rw [← hmem hd p (hc p hp), ← heq]
    exact (hmem hc p (hc p hp)).2 hp
  · intro hp
    rw [← hmem hc p (hd p hp), heq]
    exact (hmem hd p (hd p hp)).2 hp

end Closure

namespace Nfa.Renumbers

variable {L : Type} {σ : Nat → Nat} {nfa nfa' : Nfa L} {c : Closure}

theorem completionsOf_eq (h : Renumbers σ nfa nfa') (hc : c.Within nfa.size) :
    nfa'.completionsOf (c.renumber σ) = (nfa.completionsOf c).map (Completion.renumber σ) := by
  have hrules : ascending ((c.renumber σ).states.filterMap nfa'.accept?) =
      ascending (c.states.filterMap nfa.accept?) := by
    refine ascending_congr fun rule => ?_
    rw [List.mem_filterMap, List.mem_filterMap]
    refine Closure.exists_mem_renumber.trans (exists_congr fun p => and_congr_right fun hp => ?_)
    rw [h.accept?_eq (hc p hp)]
  unfold completionsOf
  rw [hrules, List.map_map]
  refine List.map_congr_left fun rule _ => congrArg (Completion.mk rule) ?_
  refine eq_of_ascending ((c.renumber σ).ascending.filter _) (pairwise_ascending _) fun id => ?_
  rw [mem_ascending, List.mem_map, List.mem_filter, decide_eq_true_eq]
  constructor
  · rintro ⟨hid, haccept⟩
    obtain ⟨p, hp, rfl⟩ := Closure.mem_renumber.1 hid
    rw [h.accept?_eq (hc p hp)] at haccept
    exact ⟨p, List.mem_filter.2 ⟨hp, decide_eq_true haccept⟩, rfl⟩
  · rintro ⟨p, hp, rfl⟩
    obtain ⟨hp, haccept⟩ := List.mem_filter.1 hp
    refine ⟨Closure.mem_renumber.2 ⟨p, hp, rfl⟩, ?_⟩
    exact (h.accept?_eq (hc p hp)).trans (of_decide_eq_true haccept)

/-- The closure of the new numbers of a frontier.  An automaton too large for a sweep is refused
whatever its states are called. -/
theorem nullClosure_eq (h : Renumbers σ nfa nfa') (htargets : nfa.TargetsExist)
    {frontier : List Nat} (hfrontier : ∀ id ∈ frontier, id < nfa.size) :
    nfa'.nullClosure (frontier.map σ) = (nfa.nullClosure frontier).map (Closure.renumber σ) := by
  by_cases hlimit : nfa.size < sizeLimit
  · have hfrontier' : ∀ id ∈ frontier.map σ, id < nfa'.size := by
      intro id hid
      obtain ⟨p, hp, rfl⟩ := List.mem_map.1 hid
      rw [h.size_eq]
      exact h.lt p (hfrontier p hp)
    obtain ⟨c, hc, hmem⟩ := nullClosure_ok hlimit htargets hfrontier
    obtain ⟨c', hc', hmem'⟩ :=
      nullClosure_ok (h.size_eq ▸ hlimit) (h.targetsExist htargets) hfrontier'
    rw [hc, hc']
    refine congrArg Except.ok (Closure.ext fun id => ?_)
    rw [hmem', Closure.mem_renumber]
    constructor
    · rintro ⟨f', hf', hreach⟩
      obtain ⟨f, hf, rfl⟩ := List.mem_map.1 hf'
      obtain ⟨r, hreach', rfl⟩ := (h.nullReach_iff htargets (hfrontier f hf)).1 hreach
      exact ⟨r, (hmem r).2 ⟨f, hf, hreach'⟩, rfl⟩
    · rintro ⟨r, hr, rfl⟩
      obtain ⟨f, hf, hreach⟩ := (hmem r).1 hr
      refine ⟨σ f, List.mem_map_of_mem hf, ?_⟩
      exact (h.nullReach_iff htargets (hfrontier f hf)).2 ⟨r, hreach, rfl⟩
  · unfold nullClosure sweepNull
    rw [Sweep.fresh_collect_of_not_lt hlimit, Sweep.fresh_collect_of_not_lt (h.size_eq ▸ hlimit)]
    rfl

end Nfa.Renumbers

/-! ## Edges -/

/-- The labels of classes depend on which labels there are, and on nothing else. -/
def Alphabet.Stable (L : Type) [Alphabet L] : Prop :=
  ∀ xs ys : List L, (∀ l, l ∈ xs ↔ l ∈ ys) →
    (classes xs).map Prod.fst = (classes ys).map Prod.fst

theorem Alphabet.stable_interval : Stable Interval := fun _ _ => Interval.partition_fst_congr

theorem Alphabet.stable_char : Stable Char := by
  intro xs ys h
  refine eq_of_ascending (pairwise_groups_fst _) (pairwise_groups_fst _) fun c => ?_
  rw [mem_classes_char_fst, mem_classes_char_fst, ← List.mem_iff_getElem?, ← List.mem_iff_getElem?]
  exact h c

namespace Nfa.Renumbers

variable {L α : Type} {σ : Nat → Nat} {nfa nfa' : Nfa L} {reads : L → α → Prop} {c : Closure}

/-- The labels that leave the renumbered closure are those that leave the closure. -/
theorem labels_iff (h : Renumbers σ nfa nfa') (hc : c.Within nfa.size) {moves : List (L × Nat)}
    (hmoves : ∀ l q, (l, q) ∈ moves ↔ ∃ p ∈ c, nfa.Leaves p (.symbol l q))
    {moves' : List (L × Nat)}
    (hmoves' : ∀ l q, (l, q) ∈ moves' ↔ ∃ p ∈ c.renumber σ, nfa'.Leaves p (.symbol l q)) (l : L) :
    l ∈ moves'.map Prod.fst ↔ l ∈ moves.map Prod.fst := by
  simp only [List.mem_map, Prod.exists, exists_and_right, exists_eq_right, hmoves, hmoves',
    Closure.exists_mem_renumber]
  constructor
  · rintro ⟨q', p, hp, leaves⟩
    obtain ⟨q, first, rfl⟩ := (h.leaves_symbol_iff (hc p hp)).1 leaves
    exact ⟨q, p, hp, first⟩
  · rintro ⟨q, p, hp, leaves⟩
    exact ⟨σ q, p, hp, (h.leaves_symbol_iff (hc p hp)).2 ⟨q, leaves, rfl⟩⟩

/-- Edges with the same label lead to a closure and to the renumbered closure. -/
theorem edge_eq (h : Renumbers σ nfa nfa') (htargets : nfa.TargetsExist)
    (inhabited : ∀ l, ∃ a, reads l a) (hc : c.Within nfa.size) {e e' : SubsetEdge L}
    (he : nfa.EdgeOf reads c e) (he' : nfa'.EdgeOf reads (c.renumber σ) e')
    (hlabel : e'.label = e.label) : e' = e.renumber σ := by
  have hclosure : e'.closure = e.closure.renumber σ := by
    obtain ⟨a, ha⟩ := inhabited e.label
    ext id
    rw [he'.mem_iff a (hlabel ▸ ha), Closure.mem_renumber, Closure.exists_mem_renumber]
    simp only [he.mem_iff a ha]
    constructor
    · rintro ⟨p, hp, hmoves⟩
      obtain ⟨r, hmoves, hr⟩ := (h.moves_iff htargets (hc p hp)).1 hmoves
      exact ⟨r, ⟨p, hp, hmoves⟩, hr⟩
    · rintro ⟨r, ⟨p, hp, hmoves⟩, hr⟩
      exact ⟨p, hp, (h.moves_iff htargets (hc p hp)).2 ⟨r, hmoves, hr⟩⟩
  have hcompletions : e'.completions = e.completions.map (Completion.renumber σ) := by
    have hleft := (completions_eq he'.within).symm.trans he'.completions
    have hright := (completions_eq he.within).symm.trans he.completions
    rw [← Except.ok.inj hleft, ← Except.ok.inj hright, hclosure]
    exact h.completionsOf_eq he.within
  obtain ⟨label, closure, completions⟩ := e'
  dsimp only at hlabel hclosure hcompletions
  rw [hlabel, hclosure, hcompletions]
  rfl

variable [Alphabet L]

/-- The edges out of the renumbered closure are the renumbered edges. -/
theorem subsetEdges_eq (h : Renumbers σ nfa nfa') (stable : Alphabet.Stable L)
    (cuts : Alphabet.Cuts reads) (inhabited : ∀ l, ∃ a, reads l a) (hlimit : nfa.size < sizeLimit)
    (htargets : nfa.TargetsExist) (hc : c.Within nfa.size) : nfa'.subsetEdges (c.renumber σ) =
      (nfa.subsetEdges c).map (List.map (SubsetEdge.renumber σ)) := by
  have hc' : (c.renumber σ).Within nfa'.size := h.size_eq ▸ Closure.renumber_within h.lt hc
  obtain ⟨moves, hmoves, hmem⟩ := moves_ok hc
  obtain ⟨moves', hmoves', hmem'⟩ := moves_ok hc'
  obtain ⟨edges, hedges, hspec, -⟩ := subsetEdges_ok cuts hlimit htargets hc
  obtain ⟨edges', hedges', hspec', -⟩ :=
    subsetEdges_ok cuts (h.size_eq ▸ hlimit) (h.targetsExist htargets) hc'
  have hlabels : edges'.map SubsetEdge.label = edges.map SubsetEdge.label := by
    rw [labels_subsetEdges hmoves hedges, labels_subsetEdges hmoves' hedges']
    exact stable _ _ (h.labels_iff hc hmem hmem')
  rw [hedges, hedges']
  refine congrArg Except.ok (eq_map_of_keys hlabels fun e he e' he' hlabel => ?_)
  exact h.edge_eq htargets inhabited hc (hspec e he) (hspec' e' he') hlabel

/-- The closures of the second automaton are explored as those of the first one are. -/
theorem subsets_eq (h : Renumbers σ nfa nfa') (stable : Alphabet.Stable L)
    (cuts : Alphabet.Cuts reads) (inhabited : ∀ l, ∃ a, reads l a) (htargets : nfa.TargetsExist)
    {start : Nat} (hstart : start < nfa.size) : nfa'.subsets (σ start) =
      (nfa.subsets start).map (Numbering.map (Closure.renumber σ) (SubsetEdge.renumber σ)) := by
  have hfrontier : ∀ id ∈ [start], id < nfa.size := by simpa using hstart
  have hrenumbered := h.nullClosure_eq htargets hfrontier
  rw [List.map_singleton] at hrenumbered
  unfold subsets
  rw [hrenumbered, h.size_eq]
  cases hroot : nfa.nullClosure [start] with
  | error fault => rfl
  | ok root =>
    have hlimit : nfa.size < sizeLimit := Sweep.lt_sizeLimit_of_fresh_collect hroot
    have hroot_within : root.Within nfa.size := by
      obtain ⟨root', hroot', hmem⟩ := nullClosure_ok hlimit htargets hfrontier
      obtain rfl := Except.ok.inj (hroot.symm.trans hroot')
      intro id hid
      obtain ⟨f, hf, hreach⟩ := (hmem id).1 hid
      exact hreach.lt htargets (hfrontier f hf)
    have within : ∀ c, Numbering.Reached nfa.subsetEdges SubsetEdge.closure root c →
        c.Within nfa.size := fun c => within_of_reached cuts hlimit htargets hroot_within
    have carries : Numbering.Carries nfa.subsetEdges SubsetEdge.closure nfa'.subsetEdges
        SubsetEdge.closure root (Closure.renumber σ) (SubsetEdge.renumber σ) :=
      ⟨fun c d hc hd => Closure.renumber_inj h.inj (within c hc) (within d hd),
        fun c hc => h.subsetEdges_eq stable cuts inhabited hlimit htargets (within c hc),
        fun _ => rfl⟩
    exact carries.explore (Nat.pow 2 nfa.size)

end Nfa.Renumbers

/-! ## Deterministic automata -/

/-- The transition with its completions renumbered. -/
def DfaTransition.renumber {L : Type} (σ : Nat → Nat) (t : DfaTransition L) : DfaTransition L :=
  { t with completions := t.completions.map (Completion.renumber σ) }

/-- The state that stands for the renumbered closure. -/
def DfaState.renumber {L : Type} (σ : Nat → Nat) (s : DfaState L) : DfaState L :=
  ⟨s.closure.renumber σ, s.accepts.map (Completion.renumber σ),
    s.transitions.map (DfaTransition.renumber σ)⟩

/-- The rules that a state accepts, and its transitions with the rules they complete; states of the
automaton that was made deterministic are left out. -/
def DfaState.shape {L : Type} (s : DfaState L) : List Nat × List (L × Nat × List Nat) :=
  (s.accepts.map Completion.rule,
    s.transitions.map fun t => (t.label, t.target, t.completions.map Completion.rule))

namespace Dfa

variable {L α : Type} {σ : Nat → Nat} {nfa nfa' : Nfa L} {reads : L → α → Prop} {start : Nat}

/-- The automaton with its states renumbered; their own numbers stay. -/
def renumber (σ : Nat → Nat) (dfa : Dfa L) : Dfa L := ⟨dfa.states.map (DfaState.renumber σ)⟩

/-- The shapes of all states, in the order of their numbers. -/
def shape (dfa : Dfa L) : List (List Nat × List (L × Nat × List Nat)) :=
  dfa.states.toList.map DfaState.shape

theorem ofClosure_renumber (h : nfa.Renumbers σ nfa') {c : Closure} (hc : c.Within nfa.size)
    (edges : List (SubsetEdge L × Nat)) :
    ofClosure nfa' (c.renumber σ) (edges.map fun e => (e.1.renumber σ, e.2)) =
      (ofClosure nfa c edges).map (DfaState.renumber σ) := by
  have hc' : (c.renumber σ).Within nfa'.size := h.size_eq ▸ Closure.renumber_within h.lt hc
  unfold ofClosure
  rw [Nfa.completions_eq hc, Nfa.completions_eq hc', h.completionsOf_eq hc]
  refine congrArg Except.ok ?_
  unfold DfaState.renumber
  rw [List.map_map, List.map_map]
  rfl

variable [Alphabet L]

/-- The subset construction commutes with renumbering. -/
theorem build_renumber (h : nfa.Renumbers σ nfa') (stable : Alphabet.Stable L)
    (cuts : Alphabet.Cuts reads) (inhabited : ∀ l, ∃ a, reads l a) (htargets : nfa.TargetsExist)
    (hstart : start < nfa.size) : build nfa' (σ start) = (build nfa start).map (renumber σ) := by
  refine build_eq_map (h.subsets_eq stable cuts inhabited htargets hstart) fun g hg c hc edges => ?_
  have hlimit : nfa.size < sizeLimit := by
    obtain ⟨root, hroot, -⟩ := bind_eq_ok_iff.1 hg
    exact Sweep.lt_sizeLimit_of_fresh_collect hroot
  obtain ⟨root, g', hg', hspec, -, hwithin⟩ := Nfa.subsets_ok cuts hlimit htargets hstart
  obtain rfl := Except.ok.inj (hg.symm.trans hg')
  exact ofClosure_renumber h (hwithin c ((hspec.mem_iff c).1 hc)) edges

end Dfa

/-! ## The same states in another order -/

theorem Closure.renumber_self (c : Closure) : c.renumber (fun p => p) = c := by
  ext id
  rw [mem_renumber]
  simp

theorem Completion.renumber_self {m : Completion} (h : m.states.Pairwise (· < ·)) :
    m.renumber (fun p => p) = m := by
  have hstates : ascending (m.states.map fun p => p) = m.states :=
    eq_of_ascending (pairwise_ascending _) h fun id => by rw [mem_ascending, List.map_id']
  unfold renumber
  rw [hstates]

theorem Transition.renumber_self {L : Type} (t : Transition L) : t.renumber (fun p => p) = t := by
  cases t <;> rfl

/-- The second automaton has the states of the first, each with its transitions in any order. -/
def Nfa.Rearranges {L : Type} (nfa nfa' : Nfa L) : Prop :=
  List.Forall₂ (fun s s' => s'.accept = s.accept ∧ s'.transitions.Perm s.transitions)
    nfa.states.toList nfa'.states.toList

theorem Nfa.Rearranges.renumbers {L : Type} {nfa nfa' : Nfa L} (h : nfa.Rearranges nfa') :
    nfa.Renumbers (fun p => p) nfa' := by
  refine ⟨?_, fun _ hid => hid, fun _ _ _ _ heq => heq, fun id s hs => ?_⟩
  · have hlength := h.length_eq
    rw [Array.length_toList, Array.length_toList] at hlength
    exact hlength.symm
  · have hlt := lt_of_state hs
    rw [state_of_lt hlt] at hs
    cases hs
    have hget : nfa.states.toList[id]? = some nfa.states[id] := by
      rw [Array.getElem?_toList, Array.getElem?_eq_getElem hlt]
    obtain ⟨s', hs', haccept, hperm⟩ := forall₂_getElem?_left h hget
    rw [Array.getElem?_toList] at hs'
    refine ⟨s', by unfold state; rw [hs'], haccept, ?_⟩
    rw [(List.map_congr_left fun t _ => Transition.renumber_self t).trans (List.map_id _)]
    exact hperm

namespace Dfa

variable {L α : Type} {σ : Nat → Nat} {nfa nfa' : Nfa L} {reads : L → α → Prop} {start : Nat}
  {dfa : Dfa L}

theorem shape_renumber (σ : Nat → Nat) (dfa : Dfa L) : (dfa.renumber σ).shape = dfa.shape := by
  unfold shape renumber
  rw [Array.toList_map, List.map_map]
  refine List.map_congr_left fun s _ => ?_
  simp [DfaState.shape, DfaState.renumber, DfaTransition.renumber, Completion.renumber,
    Function.comp_def]

/-- Automata keep their completions in ascending order, so nothing changes if no number does. -/
theorem renumber_self [LT L] (h : Determinizes reads nfa start dfa) :
    dfa.renumber (fun p => p) = dfa := by
  have hcompletions : ∀ p s, dfa.state p = .ok s →
      s.accepts.map (Completion.renumber fun p => p) = s.accepts := by
    intro p s hs
    have hall := (h.accepts p s hs).2
    exact (List.map_congr_left fun m hm => Completion.renumber_self (hall m hm).1).trans
      (List.map_id _)
  have hstate : ∀ s ∈ dfa.states.toList, s.renumber (fun p => p) = s := by
    intro s hs
    obtain ⟨p, hp⟩ := List.mem_iff_getElem?.1 hs
    rw [Array.getElem?_toList] at hp
    have hp := state_eq_ok_iff.2 hp
    have htransitions : s.transitions.map (DfaTransition.renumber fun p => p) = s.transitions := by
      refine (List.map_congr_left fun t ht => ?_).trans (List.map_id _)
      obtain ⟨next, hnext, heq⟩ := h.completions p s hp t ht
      unfold DfaTransition.renumber
      rw [heq, hcompletions t.target next hnext, ← heq]
      rfl
    unfold DfaState.renumber
    rw [Closure.renumber_self, hcompletions p s hp, htransitions]
  have hstates : (dfa.states.map (DfaState.renumber fun p => p)).toList = dfa.states.toList := by
    rw [Array.toList_map, (List.map_congr_left hstate).trans (List.map_id _)]
  exact congrArg Dfa.mk (Array.toList_inj.1 hstates)

section

variable [Alphabet L] [LT L] (stable : Alphabet.Stable L) (hparts : Alphabet.Partitions reads)
  (htargets : nfa.TargetsExist) (hstart : start < nfa.size)
include stable hparts htargets hstart

theorem build_of_rearranges (h : nfa.Rearranges nfa') : build nfa' start = build nfa start := by
  rw [build_renumber h.renumbers stable hparts.cuts hparts.inhabited htargets hstart]
  cases hdfa : build nfa start with
  | error fault => rfl
  | ok dfa =>
    exact congrArg Except.ok (renumber_self (build_determinizes hparts htargets hstart hdfa))

theorem shape_of_renumbers (h : nfa.Renumbers σ nfa') :
    (build nfa' (σ start)).map shape = (build nfa start).map shape := by
  rw [build_renumber h stable hparts.cuts hparts.inhabited htargets hstart]
  cases build nfa start with
  | error fault => rfl
  | ok dfa => exact congrArg Except.ok (shape_renumber σ dfa)

end

/-- An automaton labelled by intervals or by characters, without missing targets, is made into the
same deterministic automaton from any of its states if the transitions of its states are put in
another order, and into one of the same shape if its states are renumbered. -/
theorem build_independent :
    (∀ (nfa nfa' : Nfa Interval) (start : Nat), nfa.TargetsExist → start < nfa.size →
      (nfa.Rearranges nfa' → build nfa' start = build nfa start) ∧
        ∀ σ, nfa.Renumbers σ nfa' →
          (build nfa' (σ start)).map shape = (build nfa start).map shape) ∧
    ∀ (nfa nfa' : Nfa Char) (start : Nat), nfa.TargetsExist → start < nfa.size →
      (nfa.Rearranges nfa' → build nfa' start = build nfa start) ∧
        ∀ σ, nfa.Renumbers σ nfa' →
          (build nfa' (σ start)).map shape = (build nfa start).map shape := by
  constructor
  · intro nfa nfa' start htargets hstart
    exact ⟨build_of_rearranges Alphabet.stable_interval Alphabet.partitions_interval htargets
        hstart,
      fun σ => shape_of_renumbers Alphabet.stable_interval Alphabet.partitions_interval htargets
        hstart⟩
  · intro nfa nfa' start htargets hstart
    exact ⟨build_of_rearranges Alphabet.stable_char Alphabet.partitions_char htargets hstart,
      fun σ => shape_of_renumbers Alphabet.stable_char Alphabet.partitions_char htargets hstart⟩

/-- The ring with the transitions of its second state the other way round. -/
def ringReversed : Nfa Char :=
  ⟨#[{ transitions := [.null 1] }, { transitions := [.symbol 'a' 1, .null 0], accept := some 0 }]⟩

/-- The ring with its states the other way round. -/
def ringTurned : Nfa Char :=
  ⟨#[{ transitions := [.null 1, .symbol 'a' 0], accept := some 0 }, { transitions := [.null 0] }]⟩

/-- The ring is made into the same automaton if its transitions are reversed, and into one of the
same shape if it is turned. -/
theorem build_independent_ring : ∃ dfa, build ring 0 = .ok dfa ∧ build ringReversed 0 = .ok dfa ∧
    ∃ turned, build ringTurned 1 = .ok turned ∧ turned.shape = dfa.shape := by
  have htargets : ring.TargetsExist := by decide
  have hstart : 0 < ring.size := by decide
  have hreversed : ring.Rearranges ringReversed :=
    .cons ⟨rfl, by decide⟩ (.cons ⟨rfl, by decide⟩ .nil)
  have hturned : ring.Renumbers (fun p => 1 - p) ringTurned := by
    refine ⟨rfl, fun id _ => ?_, fun a ha b hb heq => ?_, fun id s hs => ?_⟩
    · show 1 - id < 2
      omega
    · have ha : a < 2 := ha
      have hb : b < 2 := hb
      omega
    · match id, hs with
      | 0, hs =>
        cases hs
        exact ⟨_, rfl, rfl, by decide⟩
      | 1, hs =>
        cases hs
        exact ⟨_, rfl, rfl, by decide⟩
  obtain ⟨dfa, hdfa⟩ :=
    (build_eq_ok_iff Alphabet.partitions_char.cuts htargets hstart).2 (by decide)
  have hsame := (build_independent.2 ring ringReversed 0 htargets hstart).1 hreversed
  have hshape := (build_independent.2 ring ringTurned 0 htargets hstart).2 _ hturned
  rw [hdfa] at hsame hshape
  obtain ⟨turned, hbuilt, heq⟩ := map_eq_ok_iff.1 hshape
  exact ⟨dfa, hdfa, hsame, turned, hbuilt, heq⟩

end Dfa

end LexChart
