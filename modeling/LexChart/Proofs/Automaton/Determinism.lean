import LexChart.Proofs.Automaton.Subset
set_option autoImplicit false

/-!
# Runs of the deterministic automaton

A word runs through the deterministic automaton by one transition for each of its symbols.  Labels
of one state have no symbol in common, so a run is the only one of its word, and the state that it
ends in stands for exactly the states that the word leads to in the automaton it was made from.  A
word without a run leads to none.

The classes of an alphabet have to be disjoint and ascending for this, and each of them has to stand
for some symbol and to come from some label.
-/

namespace LexChart

/-! ## Partitions of labels -/

namespace Alphabet

/-- The first label is before the second and shares no symbol with it. -/
def Apart {L σ : Type} [LT L] (reads : L → σ → Prop) (l m : L) : Prop :=
  l < m ∧ ∀ c, reads l c → ¬ reads m c

/-- The classes of an alphabet cut its labels into ascending classes that lie apart. -/
structure Partitions {L σ : Type} [Alphabet L] [LT L] (reads : L → σ → Prop) : Prop where
  cuts : Cuts reads
  inhabited : ∀ l, ∃ c, reads l c
  nonempty : ∀ (labels : List L), ∀ cls ∈ classes labels, cls.2 ≠ []
  apart : ∀ (labels : List L), ((classes labels).map Prod.fst).Pairwise (Apart reads)

theorem apart_of_last_lt {a b : Interval} (h : a.last < b.first) : Apart Interval.reads a b := by
  have hle := a.first_le_last
  refine ⟨⟨Interval.le_iff.2 (.inl (by omega)), fun hba => ?_⟩, fun c ha hb => ?_⟩
  · rw [Interval.le_iff] at hba
    omega
  · have ha := (Interval.mem_iff c a).1 ha
    have hb := (Interval.mem_iff c b).1 hb
    omega

theorem partitions_interval : Partitions Interval.reads where
  cuts := Interval.cuts
  inhabited i := ⟨i.lo, Char.le_refl i.lo, i.lo_le_hi⟩
  nonempty _ cls hcls := (Interval.isClass_of_mem_partition cls hcls).1
  apart labels :=
    List.pairwise_map.2 ((Interval.pairwise_partition labels).imp apart_of_last_lt)

/-- A class of characters comes with the positions of its character. -/
theorem mem_class_char {labels : List Char} {cls : Char × List Nat} (h : cls ∈ classes labels)
    {k : Nat} : k ∈ cls.2 ↔ labels[k]? = some cls.1 := by
  rw [mem_values_of_mem_groups h, List.mem_zipIdx_iff_getElem?]

theorem mem_classes_char_fst {labels : List Char} {c : Char} :
    c ∈ (classes labels).map Prod.fst ↔ ∃ k : Nat, labels[k]? = some c := by
  show c ∈ (groups labels.zipIdx).map Prod.fst ↔ _
  rw [mem_groups_fst]
  simp only [List.mem_zipIdx_iff_getElem?]

/-- A character as a label reads itself alone. -/
theorem partitions_char : Partitions (L := Char) Eq where
  cuts := by
    refine ⟨fun labels cls hcls c hc k => ?_, fun labels l c hl hc => ?_⟩
    · rw [mem_class_char hcls, ← hc]
      simp
    · obtain ⟨cls, hcls, rfl⟩ :=
        List.mem_map.1 (mem_classes_char_fst.2 (List.mem_iff_getElem?.1 hl))
      exact ⟨cls, hcls, hc⟩
  inhabited c := ⟨c, rfl⟩
  nonempty labels cls hcls hnil := by
    obtain ⟨k, hk⟩ := mem_classes_char_fst.1 (List.mem_map_of_mem hcls)
    have hmem := (mem_class_char hcls).2 hk
    rw [hnil] at hmem
    exact nomatch hmem
  apart labels := by
    refine (pairwise_groups_fst labels.zipIdx).imp fun {a b} hlt => ⟨hlt, fun c ha hb => ?_⟩
    exact Char.ne_of_lt hlt (ha.trans hb.symm)

end Alphabet

namespace Nfa

theorem targetsExist_iff {L : Type} {nfa : Nfa L} : nfa.TargetsExist ↔
    ∀ s ∈ nfa.states.toList, ∀ t ∈ s.transitions, t.target < nfa.size := by
  constructor
  · intro h s hs t ht
    obtain ⟨id, hid⟩ := List.mem_iff_getElem?.1 hs
    rw [Array.getElem?_toList] at hid
    exact h id t ⟨s, by unfold state; rw [hid], ht⟩
  · rintro h id t ⟨s, hs, ht⟩
    have hlt := lt_of_state hs
    rw [state_of_lt hlt] at hs
    obtain rfl := Except.ok.inj hs
    exact h _ (Array.mem_toList_iff.2 (Array.getElem_mem hlt)) t ht

instance {L : Type} (nfa : Nfa L) : Decidable nfa.TargetsExist :=
  decidable_of_iff _ targetsExist_iff.symm

/-! ## Edges with labels apart -/

variable {L σ : Type} [Alphabet L] [LT L] {nfa : Nfa L} {reads : L → σ → Prop} {c : Closure}
  {edges : List (SubsetEdge L)}

theorem pairwise_subsetEdges (hparts : Alphabet.Partitions reads) (h : c.Within nfa.size)
    (hedges : nfa.subsetEdges c = .ok edges) :
    (edges.map SubsetEdge.label).Pairwise (Alphabet.Apart reads) := by
  obtain ⟨moves, hmoves, -⟩ := moves_ok h
  rw [labels_subsetEdges hmoves hedges]
  exact hparts.apart (moves.map Prod.fst)

/-- A symbol of an edge leads somewhere. -/
theorem exists_moves_of_reads (hparts : Alphabet.Partitions reads) (h : c.Within nfa.size)
    (hedges : nfa.subsetEdges c = .ok edges) {e : SubsetEdge L} (he : e ∈ edges) {a : σ}
    (ha : reads e.label a) : ∃ p ∈ c, ∃ r, nfa.Moves reads p a r := by
  obtain ⟨moves, hmoves, hmem⟩ := moves_ok h
  have hlabel : e.label ∈ (Alphabet.classes (moves.map Prod.fst)).map Prod.fst := by
    rw [← labels_subsetEdges hmoves hedges]
    exact List.mem_map_of_mem he
  obtain ⟨cls, hcls, heq⟩ := List.mem_map.1 hlabel
  obtain ⟨k, hk⟩ := List.exists_mem_of_ne_nil _ (hparts.nonempty _ cls hcls)
  obtain ⟨l, hl, stands⟩ := (hparts.cuts.exact _ cls hcls a (heq ▸ ha) k).1 hk
  obtain ⟨⟨_, q⟩, hmove, rfl⟩ := List.mem_map.1 (List.mem_of_getElem? hl)
  obtain ⟨p, hp, leaves⟩ := (hmem _ q).1 hmove
  exact ⟨p, hp, q, _, q, leaves, stands, .refl q⟩

end Nfa

namespace Dfa

variable {L σ : Type}

/-! ## Runs -/

/-- A word leads from the first state to another one, by a transition for each symbol. -/
inductive Run (reads : L → σ → Prop) (dfa : Dfa L) : List σ → Nat → Prop where
  | nil : Run reads dfa [] start
  | concat {w : List σ} {p : Nat} {s : DfaState L} {t : DfaTransition L} {c : σ} :
      Run reads dfa w p → dfa.state p = .ok s → t ∈ s.transitions → reads t.label c →
      Run reads dfa (w ++ [c]) t.target

variable {reads : L → σ → Prop} {nfa : Nfa L} {start : Nat} {dfa : Dfa L}

/-- A run ends in the state that stands for what its word leads to. -/
theorem Determines.closure_of_run (h : Determines reads nfa start dfa) {w : List σ} {p : Nat}
    (run : dfa.Run reads w p) :
    ∃ s, dfa.state p = .ok s ∧ ∀ id, id ∈ s.closure ↔ nfa.Path reads start w id := by
  induction run with
  | nil =>
    obtain ⟨s, hs, hclosure⟩ := h.first
    exact ⟨s, hs, fun id => (hclosure id).trans Nfa.path_nil_iff.symm⟩
  | concat _ hs ht ha ih =>
    obtain ⟨s', hs', hpath⟩ := ih
    rw [hs] at hs'
    obtain rfl := Except.ok.inj hs'
    obtain ⟨next, hnext, -, hclosure⟩ := h.step _ _ hs _ ht
    refine ⟨next, hnext, fun id => ?_⟩
    rw [hclosure _ ha, Nfa.path_concat_iff]
    simp only [hpath]

/-- A word that leads somewhere has a run. -/
theorem Determines.exists_run (h : Determines reads nfa start dfa) {w : List σ} {id : Nat}
    (path : nfa.Path reads start w id) : ∃ p, dfa.Run reads w p := by
  induction w using List.reverseRecOn generalizing id with
  | nil => exact ⟨_, .nil⟩
  | append_singleton w c ih =>
    obtain ⟨q, hw, hmove⟩ := Nfa.path_concat_iff.1 path
    obtain ⟨p, run⟩ := ih hw
    obtain ⟨s, hs, hpath⟩ := h.closure_of_run run
    obtain ⟨t, ht, ha⟩ := h.total p s hs c q ((hpath q).2 hw) id hmove
    exact ⟨t.target, .concat run hs ht ha⟩

/-- The automaton simulates another one from a state: every state is reached, by the words that lead
to its closure and by no others, and closures do not repeat; the transitions of a state are ascending
and read different symbols; and completions are those of the closures. -/
structure Determinizes [LT L] (reads : L → σ → Prop) (nfa : Nfa L) (start : Nat) (dfa : Dfa L) :
    Prop where
  distinct : ∀ p q s t, dfa.state p = .ok s → dfa.state q = .ok t → s.closure = t.closure → p = q
  reachable : ∀ p s, dfa.state p = .ok s → ∃ w, dfa.Run reads w p
  apart : ∀ p s, dfa.state p = .ok s →
    (s.transitions.map DfaTransition.label).Pairwise (Alphabet.Apart reads)
  unique : ∀ w p q, dfa.Run reads w p → dfa.Run reads w q → p = q
  closure : ∀ w p, dfa.Run reads w p →
    ∃ s, dfa.state p = .ok s ∧ ∀ id, id ∈ s.closure ↔ nfa.Path reads start w id
  stuck : ∀ w, (∀ p, ¬ dfa.Run reads w p) ↔ ∀ id, ¬ nfa.Path reads start w id
  accepts : ∀ p s, dfa.state p = .ok s → nfa.Completes s.closure s.accepts ∧
    ∀ m ∈ s.accepts, m.states.Pairwise (· < ·) ∧
      ∀ id, id ∈ m.states ↔ id ∈ s.closure ∧ nfa.IsFinal id m.rule
  completions : ∀ p s, dfa.state p = .ok s → ∀ t ∈ s.transitions,
    ∃ next, dfa.state t.target = .ok next ∧ t.completions = next.accepts

section

variable [Alphabet L] {root : Closure} {g : Numbering Closure (SubsetEdge L)}

theorem MadeFrom.distinct (made : MadeFrom nfa root g dfa) {p q : Nat} {s t : DfaState L}
    (hs : dfa.state p = .ok s) (ht : dfa.state q = .ok t) (hclosure : s.closure = t.closure) :
    p = q := by
  obtain ⟨_, hp, -⟩ := (made.state_iff p s).1 hs
  obtain ⟨_, hq, -⟩ := (made.state_iff q t).1 ht
  rw [← hclosure, ← hp] at hq
  rw [← Array.getElem?_toList] at hp hq
  rw [← Array.getElem?_toList] at hq
  have hlt := (List.getElem?_eq_some_iff.1 hp).1
  exact (List.getElem?_inj hlt made.exploration.nodup).1 hq.symm

/-- A closure that edges lead to from the root is numbered, and a word runs to its number. -/
theorem MadeFrom.exists_run [LT L] (made : MadeFrom nfa root g dfa)
    (hparts : Alphabet.Partitions reads) {c : Closure}
    (h : Numbering.Reached nfa.subsetEdges SubsetEdge.closure root c) :
    ∃ id, g.states[id]? = some c ∧ ∃ w, dfa.Run reads w id := by
  induction h with
  | root => exact ⟨_, made.exploration.first, [], .nil⟩
  | @step c found t _ hfound ht ih =>
    obtain ⟨id, hid, w, run⟩ := ih
    obtain ⟨s, hs, rfl⟩ := made.exists_state hid
    obtain ⟨edges, hedges, htransitions, htarget⟩ := made.exists_edges hs
    rw [hedges] at hfound
    obtain rfl := Except.ok.inj hfound
    obtain ⟨e, he, rfl⟩ := List.mem_map.1 ht
    obtain ⟨a, ha⟩ := hparts.inhabited e.1.label
    refine ⟨e.2, htarget e he, w ++ [a], ?_⟩
    have hmem : ⟨e.1.label, e.2, e.1.completions⟩ ∈ s.transitions := by
      rw [htransitions]
      exact List.mem_map_of_mem he
    exact .concat run hs hmem ha

theorem MadeFrom.reachable [LT L] (made : MadeFrom nfa root g dfa)
    (hparts : Alphabet.Partitions reads) {p : Nat} {s : DfaState L} (hs : dfa.state p = .ok s) :
    ∃ w, dfa.Run reads w p := by
  obtain ⟨_, hp, -⟩ := (made.state_iff p s).1 hs
  have hreached := (made.exploration.mem_iff _).1 (Array.mem_of_getElem? hp)
  obtain ⟨id, hid, w, run⟩ := made.exists_run hparts hreached
  obtain ⟨t, ht, hclosure⟩ := made.exists_state hid
  obtain rfl := made.distinct ht hs hclosure
  exact ⟨w, run⟩

/-- The labels of a state are those of the edges out of its closure. -/
theorem MadeFrom.label_eq (made : MadeFrom nfa root g dfa) {p : Nat} {s : DfaState L}
    (hs : dfa.state p = .ok s) : ∃ edges, nfa.subsetEdges s.closure = .ok edges ∧
      s.transitions.map DfaTransition.label = edges.map SubsetEdge.label := by
  obtain ⟨edges, hedges, htransitions, -⟩ := made.exists_edges hs
  refine ⟨_, hedges, ?_⟩
  rw [htransitions]
  unfold transitionsOf
  rw [List.map_map, List.map_map]
  rfl

/-- Where a word runs to, the automaton it was made from is in some state. -/
theorem MadeFrom.exists_path [LT L] (made : MadeFrom nfa root g dfa)
    (hparts : Alphabet.Partitions reads) (h : Determines reads nfa start dfa) {w : List σ} {p : Nat}
    (run : dfa.Run reads w p) : ∃ id, nfa.Path reads start w id := by
  cases run with
  | nil => exact ⟨start, .nil start⟩
  | @concat w p s t c run hs ht ha =>
    obtain ⟨s', hs', hpath⟩ := h.closure_of_run run
    rw [hs] at hs'
    obtain rfl := Except.ok.inj hs'
    obtain ⟨edges, hedges, hlabel⟩ := made.label_eq hs
    obtain ⟨e, he, heq⟩ := List.mem_map.1 (hlabel ▸ List.mem_map_of_mem ht)
    obtain ⟨q, hq, r, hmove⟩ :=
      Nfa.exists_moves_of_reads hparts (made.within_of_state hs) hedges he (heq ▸ ha)
    exact ⟨r, Nfa.path_concat_iff.2 ⟨q, (hpath q).1 hq, hmove⟩⟩

/-- The subset construction makes an automaton that simulates the given one. -/
theorem build_determinizes [LT L] (hparts : Alphabet.Partitions reads) (htargets : nfa.TargetsExist)
    (hstart : start < nfa.size) (hdfa : Dfa.build nfa start = .ok dfa) :
    Determinizes reads nfa start dfa := by
  have hlimit := lt_sizeLimit_of_build hdfa
  obtain ⟨_, hdfa', root, g, made, -⟩ := build_madeFrom hparts.cuts hlimit htargets hstart
  rw [hdfa] at hdfa'
  obtain rfl := Except.ok.inj hdfa'
  obtain ⟨_, hdfa', determines⟩ := build_ok hparts.cuts hlimit htargets hstart
  rw [hdfa] at hdfa'
  obtain rfl := Except.ok.inj hdfa'
  have hclosure := fun w p (run : dfa.Run reads w p) => determines.closure_of_run run
  refine
    { distinct := fun p q s t hs ht => made.distinct hs ht
      reachable := fun p s hs => made.reachable hparts hs
      apart := fun p s hs => ?_
      unique := fun w p q hp hq => ?_
      closure := hclosure
      stuck := fun w => ?_
      accepts := fun p s hs => ?_
      completions := fun p s hs t ht => ?_ }
  · obtain ⟨edges, hedges, hlabel⟩ := made.label_eq hs
    rw [hlabel]
    exact Nfa.pairwise_subsetEdges hparts (made.within_of_state hs) hedges
  · -- Both runs end in states that stand for the same closure, and closures do not repeat.
    obtain ⟨s, hs, hpaths⟩ := hclosure w p hp
    obtain ⟨t, ht, hpatht⟩ := hclosure w q hq
    exact made.distinct hs ht (Closure.ext fun id => (hpaths id).trans (hpatht id).symm)
  · rw [← not_exists, ← not_exists, not_iff_not]
    constructor
    · rintro ⟨p, run⟩
      exact made.exists_path hparts determines run
    · rintro ⟨id, path⟩
      exact determines.exists_run path
  · refine ⟨determines.accepts p s hs, fun m hm => ?_⟩
    exact Nfa.states_of_mem_completions (made.within_of_state hs) (made.completions_eq hs) hm
  · obtain ⟨next, hnext, heq, -⟩ := determines.step p s hs t ht
    exact ⟨next, hnext, heq⟩

/-- The subset construction answers exactly if the automaton fits in memory. -/
theorem build_eq_ok_iff (hparts : Alphabet.Cuts reads) (htargets : nfa.TargetsExist)
    (hstart : start < nfa.size) :
    (∃ dfa, Dfa.build nfa start = .ok dfa) ↔ nfa.size < sizeLimit := by
  constructor
  · rintro ⟨dfa, hdfa⟩
    exact lt_sizeLimit_of_build hdfa
  · intro hlimit
    obtain ⟨dfa, hdfa, -⟩ := build_ok hparts hlimit htargets hstart
    exact ⟨dfa, hdfa⟩

end

/-- An automaton labelled by intervals or by characters, without missing targets, is made
deterministic from any of its states, if it fits in memory. -/
theorem build_exact :
    (∀ (nfa : Nfa Interval) (start : Nat), nfa.TargetsExist → start < nfa.size →
      ((∃ dfa, Dfa.build nfa start = .ok dfa) ↔ nfa.size < sizeLimit) ∧
        ∀ dfa, Dfa.build nfa start = .ok dfa → Determinizes Interval.reads nfa start dfa) ∧
    ∀ (nfa : Nfa Char) (start : Nat), nfa.TargetsExist → start < nfa.size →
      ((∃ dfa, Dfa.build nfa start = .ok dfa) ↔ nfa.size < sizeLimit) ∧
        ∀ dfa, Dfa.build nfa start = .ok dfa → Determinizes Eq nfa start dfa := by
  refine ⟨fun nfa start htargets hstart => ⟨?_, fun dfa hdfa => ?_⟩,
    fun nfa start htargets hstart => ⟨?_, fun dfa hdfa => ?_⟩⟩
  · exact build_eq_ok_iff Interval.cuts htargets hstart
  · exact build_determinizes Alphabet.partitions_interval htargets hstart hdfa
  · exact build_eq_ok_iff Alphabet.partitions_char.cuts htargets hstart
  · exact build_determinizes Alphabet.partitions_char htargets hstart hdfa

/-- Two states in a ring of null transitions, the second of which also reads a symbol. -/
def ring : Nfa Char :=
  ⟨#[{ transitions := [.null 1] }, { transitions := [.null 0, .symbol 'a' 1], accept := some 0 }]⟩

/-- A symbol that is read in the ring leads to a closure with both states. -/
theorem build_exact_ring : ∃ dfa, Dfa.build ring 0 = .ok dfa ∧ Determinizes Eq ring 0 dfa ∧
    ∃ p s, dfa.Run Eq ['a'] p ∧ dfa.state p = .ok s ∧ 0 ∈ s.closure ∧ 1 ∈ s.closure := by
  have hsize : ring.size < sizeLimit := by decide
  obtain ⟨hexists, hall⟩ := build_exact.2 ring 0 (by decide) (by decide)
  obtain ⟨dfa, hdfa⟩ := hexists.2 hsize
  have hdeterminizes := hall dfa hdfa
  have hnull : ring.Leaves 0 (.null 1) := ⟨_, rfl, by decide⟩
  have hback : ring.Leaves 1 (.null 0) := ⟨_, rfl, by decide⟩
  have hsymbol : ring.Leaves 1 (.symbol 'a' 1) := ⟨_, rfl, by decide⟩
  have hpath : ring.Path Eq 0 ['a'] 1 := .null hnull (.symbol hsymbol rfl (.nil 1))
  have hreturn : ring.Path Eq 0 ['a'] 0 :=
    .null hnull (.symbol hsymbol rfl (.null hback (.nil 0)))
  obtain ⟨p, hrun⟩ : ∃ p, dfa.Run Eq ['a'] p := by
    by_contra hstuck
    exact (hdeterminizes.stuck _).1 (not_exists.1 hstuck) 1 hpath
  obtain ⟨s, hs, hclosure⟩ := hdeterminizes.closure _ p hrun
  exact ⟨dfa, hdfa, hdeterminizes, p, s, hrun, hs, (hclosure 0).2 hreturn, (hclosure 1).2 hpath⟩

end Dfa

end LexChart
