import LexChart.Proofs.Automaton.Determinism
import LexChart.Proofs.Automaton.Transport
import LexChart.Proofs.Charset.Refinement
set_option autoImplicit false

/-!
# Automata with other labels

Replacing the labels of an automaton changes neither its states nor their closures, only what its
moves read.  If the classes of the new labels are those of the old ones with their labels replaced,
the edges out of every closure are the same up to that replacement, so both automata are explored in
the same order and made into the same deterministic automaton up to labels.

A character and the interval of that character alone are such labels: single characters are cut into
single characters, each with the positions at which it stands.
-/

namespace LexChart

variable {L M : Type} {f : L → M}

/-! ## Replaced labels -/

/-- The transition with its label replaced. -/
def Transition.mapLabel (f : L → M) : Transition L → Transition M
  | null target => .null target
  | symbol label target => .symbol (f label) target

/-- The state with the labels of its transitions replaced. -/
def NfaState.mapLabels (f : L → M) (s : NfaState L) : NfaState M :=
  ⟨s.transitions.map (Transition.mapLabel f), s.accept⟩

/-- The automaton with all labels replaced. -/
def Nfa.mapLabels (f : L → M) (nfa : Nfa L) : Nfa M := ⟨nfa.states.map (NfaState.mapLabels f)⟩

/-- The edge with its label replaced. -/
def SubsetEdge.mapLabel (f : L → M) (e : SubsetEdge L) : SubsetEdge M :=
  ⟨f e.label, e.closure, e.completions⟩

/-- The transition with its label replaced. -/
def DfaTransition.mapLabel (f : L → M) (t : DfaTransition L) : DfaTransition M :=
  ⟨f t.label, t.target, t.completions⟩

/-- The state with the labels of its transitions replaced. -/
def DfaState.mapLabels (f : L → M) (s : DfaState L) : DfaState M :=
  ⟨s.closure, s.accepts, s.transitions.map (DfaTransition.mapLabel f)⟩

/-- The automaton with all labels replaced. -/
def Dfa.mapLabels (f : L → M) (dfa : Dfa L) : Dfa M := ⟨dfa.states.map (DfaState.mapLabels f)⟩

/-! ## States and closures -/

@[simp] theorem NfaState.nullTargets_mapLabels (s : NfaState L) :
    (s.mapLabels f).nullTargets = s.nullTargets := by
  unfold nullTargets mapLabels
  rw [List.filterMap_map]
  refine List.filterMap_congr fun t _ => ?_
  cases t <;> rfl

@[simp] theorem NfaState.moves_mapLabels (s : NfaState L) :
    (s.mapLabels f).moves = s.moves.map fun move => (f move.1, move.2) := by
  unfold moves mapLabels
  rw [List.filterMap_map, List.map_filterMap]
  refine List.filterMap_congr fun t _ => ?_
  cases t <;> rfl

namespace Nfa

@[simp] theorem size_mapLabels (nfa : Nfa L) : (nfa.mapLabels f).size = nfa.size := by
  simp [size, mapLabels]

@[simp] theorem state_mapLabels (nfa : Nfa L) (id : Nat) :
    (nfa.mapLabels f).state id = (nfa.state id).map (NfaState.mapLabels f) := by
  unfold state mapLabels
  rw [Array.getElem?_map]
  cases nfa.states[id]? <;> rfl

theorem mapM_state_mapLabels (nfa : Nfa L) (ids : List Nat) :
    ids.mapM (nfa.mapLabels f).state =
      (ids.mapM nfa.state).map (List.map (NfaState.mapLabels f)) := by
  have hmapM := mapM_map_eq (f := fun id => id) fun id (_ : id ∈ ids) =>
    nfa.state_mapLabels (f := f) id
  rwa [List.map_id'] at hmapM

@[simp] theorem nullTargets_mapLabels (nfa : Nfa L) :
    (nfa.mapLabels f).nullTargets = nfa.nullTargets := by
  funext id
  unfold nullTargets
  rw [state_mapLabels]
  cases nfa.state id with
  | error fault => rfl
  | ok s => exact congrArg Except.ok s.nullTargets_mapLabels

@[simp] theorem nullClosure_mapLabels (nfa : Nfa L) (frontier : List Nat) :
    (nfa.mapLabels f).nullClosure frontier = nfa.nullClosure frontier := by
  unfold nullClosure sweepNull
  rw [size_mapLabels, nullTargets_mapLabels]

@[simp] theorem finals_mapLabels (nfa : Nfa L) (c : Closure) :
    (nfa.mapLabels f).finals c = nfa.finals c := by
  have haccept : (fun id => ((nfa.mapLabels f).state id).map NfaState.accept) =
      fun id => (nfa.state id).map NfaState.accept := by
    funext id
    rw [state_mapLabels]
    cases nfa.state id <;> rfl
  unfold finals
  rw [haccept]

@[simp] theorem completions_mapLabels (nfa : Nfa L) (c : Closure) :
    (nfa.mapLabels f).completions c = nfa.completions c := by
  unfold completions
  rw [finals_mapLabels]

theorem moves_mapLabels (nfa : Nfa L) (c : Closure) : (nfa.mapLabels f).moves c =
    (nfa.moves c).map (List.map fun move => (f move.1, move.2)) := by
  unfold moves
  rw [mapM_state_mapLabels]
  cases c.states.mapM nfa.state with
  | error fault => rfl
  | ok states =>
    have hmoves : (states.map (NfaState.mapLabels f)).flatMap NfaState.moves =
        (states.flatMap NfaState.moves).map fun move => (f move.1, move.2) := by
      rw [List.flatMap_map, List.map_flatMap]
      exact List.flatMap_congr fun s _ => s.moves_mapLabels
    exact congrArg Except.ok hmoves

end Nfa

/-! ## Edges -/

/-- The classes of replaced labels are the classes of the labels, each replaced as a whole. -/
def Alphabet.Commutes [Alphabet L] [Alphabet M] (f : L → M) : Prop :=
  ∀ labels : List L, classes (labels.map f) = (classes labels).map fun cls => (f cls.1, cls.2)

namespace Nfa

theorem targetsAt_map (moves : List (L × Nat)) (positions : List Nat) :
    targetsAt (moves.map fun move => (f move.1, move.2)) positions = targetsAt moves positions := by
  unfold targetsAt
  rw [List.map_map]
  rfl

theorem edgeOfClass_mapLabels (nfa : Nfa L) (moves : List (L × Nat)) (cls : L × List Nat) :
    (nfa.mapLabels f).edgeOfClass (moves.map fun move => (f move.1, move.2)) (f cls.1, cls.2) =
      (nfa.edgeOfClass moves cls).map (SubsetEdge.mapLabel f) := by
  unfold edgeOfClass
  simp only [targetsAt_map, nullClosure_mapLabels, completions_mapLabels]
  cases nfa.nullClosure (targetsAt moves cls.2) with
  | error fault => rfl
  | ok closure =>
    show (nfa.completions closure >>= _) = Except.map _ (nfa.completions closure >>= _)
    cases nfa.completions closure <;> rfl

variable [Alphabet L] [Alphabet M]

/-- The edges out of a closure are those of the automaton, with their labels replaced. -/
theorem subsetEdges_mapLabels (commutes : Alphabet.Commutes f) (nfa : Nfa L) (c : Closure) :
    (nfa.mapLabels f).subsetEdges c =
      (nfa.subsetEdges c).map (List.map (SubsetEdge.mapLabel f)) := by
  have hrelabelled := nfa.moves_mapLabels (f := f) c
  cases hmoves : nfa.moves c with
  | error fault =>
    rw [hmoves] at hrelabelled
    unfold subsetEdges
    rw [hmoves, hrelabelled]
    rfl
  | ok moves =>
    rw [hmoves] at hrelabelled
    have hlabels : (moves.map fun move => (f move.1, move.2)).map Prod.fst =
        (moves.map Prod.fst).map f := by
      rw [List.map_map, List.map_map]
      rfl
    rw [subsetEdges_eq hmoves, subsetEdges_eq hrelabelled, hlabels, commutes]
    exact mapM_map_eq fun cls _ => nfa.edgeOfClass_mapLabels moves cls

/-- Closures are explored in the same order. -/
theorem subsets_mapLabels (commutes : Alphabet.Commutes f) (nfa : Nfa L) (start : Nat) :
    (nfa.mapLabels f).subsets start =
      (nfa.subsets start).map (Numbering.map (fun c => c) (SubsetEdge.mapLabel f)) := by
  unfold subsets
  rw [nullClosure_mapLabels, size_mapLabels]
  cases nfa.nullClosure [start] with
  | error fault => rfl
  | ok root =>
    have carries : Numbering.Carries nfa.subsetEdges SubsetEdge.closure
        (nfa.mapLabels f).subsetEdges SubsetEdge.closure root (fun c => c)
        (SubsetEdge.mapLabel f) :=
      ⟨fun _ _ _ _ heq => heq, fun c _ => subsetEdges_mapLabels commutes nfa c, fun _ => rfl⟩
    exact carries.explore (Nat.pow 2 nfa.size)

end Nfa

/-! ## Deterministic automata -/

namespace Dfa

theorem ofClosure_mapLabels (nfa : Nfa L) (c : Closure) (edges : List (SubsetEdge L × Nat)) :
    ofClosure (nfa.mapLabels f) c (edges.map fun e => (e.1.mapLabel f, e.2)) =
      (ofClosure nfa c edges).map (DfaState.mapLabels f) := by
  unfold ofClosure
  rw [Nfa.completions_mapLabels]
  cases nfa.completions c with
  | error fault => rfl
  | ok accepts =>
    refine congrArg Except.ok ?_
    unfold DfaState.mapLabels
    rw [List.map_map, List.map_map]
    rfl

/-- The subset construction commutes with replacing labels, faults included. -/
theorem build_mapLabels [Alphabet L] [Alphabet M] (commutes : Alphabet.Commutes f) (nfa : Nfa L)
    (start : Nat) : build (nfa.mapLabels f) start = (build nfa start).map (mapLabels f) :=
  build_eq_map (Nfa.subsets_mapLabels commutes nfa start)
    fun _ _ c _ edges => ofClosure_mapLabels nfa c edges

end Dfa

/-! ## Characters as intervals -/

/-- The positions of a character come in ascending order. -/
theorem sorted_of_mem_classes_char {labels : List Char} {cls : Char × List Nat}
    (h : cls ∈ Alphabet.classes labels) : cls.2.Pairwise (· < ·) := by
  rw [values_of_mem_groups h]
  refine pairwise_filterMap_zipIdx labels fun entry k hk => ?_
  split at hk
  · exact (Option.some.inj hk).symm
  · cases hk

/-- Single characters are cut into single characters. -/
theorem isPartition_singles (labels : List Char) :
    Interval.IsPartition (labels.map Interval.single)
      ((Alphabet.classes labels).map fun cls => (Interval.single cls.1, cls.2)) := by
  have hascending : (Alphabet.classes labels).Pairwise fun a b => a.1 < b.1 :=
    List.pairwise_map.1 (pairwise_groups_fst labels.zipIdx)
  have hmem : ∀ cls ∈ Alphabet.classes labels, ∀ k, k ∈ cls.2 ↔ labels[k]? = some cls.1 :=
    fun cls hcls k => Alphabet.mem_class_char hcls
  refine
    { ascending := List.pairwise_map.2 hascending
      covers := fun c => ?_
      sorted := List.forall_mem_map.2 fun cls hcls => sorted_of_mem_classes_char hcls
      nonempty := List.forall_mem_map.2 (Alphabet.partitions_char.nonempty labels)
      positions := List.forall_mem_map.2 fun cls hcls c hc k => ?_
      apart := List.pairwise_map.2 (hascending.imp_of_mem fun {a b} ha hb hlt hsame => ?_) }
  · have hclass : c ∈ (Alphabet.classes labels).map Prod.fst ↔ c ∈ labels := by
      rw [Alphabet.mem_classes_char_fst, List.mem_iff_getElem?]
    simp [Interval.Covers, ← hclass]
  · rw [hmem cls hcls, Interval.mem_single.1 hc]
    simp
  · -- Both classes come with the same positions, at which different characters stand.
    obtain ⟨k, hk⟩ := List.exists_mem_of_ne_nil _ (Alphabet.partitions_char.nonempty labels a ha)
    have hleft := (hmem a ha k).1 hk
    have hright := (hmem b hb k).1 (hsame ▸ hk)
    rw [hleft] at hright
    exact absurd (Option.some.inj hright) (Char.ne_of_lt hlt)

theorem commutes_single : Alphabet.Commutes Interval.single := fun labels =>
  (Interval.isPartition_partition _).unique (isPartition_singles labels)

namespace Dfa

/-- The classes of single-character intervals are those of the characters, with the same positions.
So an automaton labelled by characters and the one labelled by their intervals are made into the
same deterministic automaton up to labels, which exists if the targets do and it fits in memory. -/
theorem alphabets_agree :
    (∀ labels : List Char, Alphabet.classes (labels.map Interval.single) =
      (Alphabet.classes labels).map fun cls => (Interval.single cls.1, cls.2)) ∧
    (∀ (nfa : Nfa Char) (start : Nat),
      build (nfa.mapLabels Interval.single) start =
        (build nfa start).map (mapLabels Interval.single)) ∧
    ∀ (nfa : Nfa Char) (start : Nat), nfa.TargetsExist → start < nfa.size →
      ((∃ dfa, build nfa start = .ok dfa) ↔ nfa.size < sizeLimit) :=
  ⟨commutes_single, build_mapLabels commutes_single,
    fun _ _ htargets hstart => build_eq_ok_iff Alphabet.partitions_char.cuts htargets hstart⟩

/-- A loop that reads the last character before the surrogates, and a way out that reads the first
one behind them or the same again. -/
def besideSurrogates : Nfa Char :=
  ⟨#[{ transitions := [.symbol (Char.ofNat 0xE000) 1, .symbol (Char.ofNat 0xD7FF) 0,
        .symbol (Char.ofNat 0xD7FF) 1] }, { accept := some 0 }]⟩

/-- The two characters stay two labels as intervals, neighbours though they are. -/
theorem alphabets_agree_besideSurrogates :
    Alphabet.classes ([Char.ofNat 0xE000, Char.ofNat 0xD7FF, Char.ofNat 0xD7FF].map
      Interval.single) = [(Interval.single (Char.ofNat 0xD7FF), [1, 2]),
        (Interval.single (Char.ofNat 0xE000), [0])] ∧
    ∃ dfa, build besideSurrogates 0 = .ok dfa ∧
      build (besideSurrogates.mapLabels Interval.single) 0 =
        .ok (dfa.mapLabels Interval.single) := by
  obtain ⟨hclasses, hsame, hanswers⟩ := alphabets_agree
  obtain ⟨dfa, hdfa⟩ := (hanswers besideSurrogates 0 (by decide) (by decide)).2 (by decide)
  refine ⟨?_, dfa, hdfa, ?_⟩
  · rw [hclasses]
    decide
  · rw [hsame, hdfa]
    rfl

end Dfa

end LexChart
