import LexChart.Automaton.Dfa
import LexChart.Proofs.Answers
import LexChart.Proofs.Automaton.Closure
import LexChart.Proofs.Automaton.Exploration
import LexChart.Proofs.Charset.Partition
set_option autoImplicit false

/-!
# The subset construction

A state of the deterministic automaton stands for a closure.  Its edges cut the symbols that leave
the closure into classes, and a class leads to the closure of everything that one of its symbols
leads to.  So the closure of the state that a word leads to holds exactly the states that the word
leads to in the automaton it was made from, and a word leads nowhere exactly if there are none.

The construction answers for every automaton that fits in memory.
-/

namespace LexChart

/-! ## Groups -/

theorem mem_groups_fst {α β : Type} [DecidableEq α] [LE α] [DecidableLE α] {pairs : List (α × β)}
    {key : α} : key ∈ (groups pairs).map Prod.fst ↔ ∃ value, (key, value) ∈ pairs := by
  unfold groups
  simp only [List.map_map, Function.comp_def, List.map_id', mem_ascending, List.mem_map,
    Prod.exists, exists_and_right, exists_eq_right]

/-- The keys of groups are ascending. -/
theorem pairwise_groups_fst {α β : Type} [DecidableEq α] [LE α] [DecidableLE α] [LT α]
    [Std.IsLinearOrder α] [Std.LawfulOrderLT α] (pairs : List (α × β)) :
    ((groups pairs).map Prod.fst).Pairwise (· < ·) := by
  unfold groups
  rw [List.map_map]
  show ((ascending (pairs.map Prod.fst)).map fun key => key).Pairwise _
  rw [List.map_id']
  exact pairwise_ascending _

theorem values_of_mem_groups {α β : Type} [DecidableEq α] [LE α] [DecidableLE α]
    {pairs : List (α × β)} {key : α} {values : List β} (h : (key, values) ∈ groups pairs) :
    values = pairs.filterMap fun pair => if pair.1 = key then some pair.2 else none := by
  obtain ⟨key', -, heq⟩ := List.mem_map.1 h
  cases heq
  rfl

/-- The values of a group are those listed under its key. -/
theorem mem_values_of_mem_groups {α β : Type} [DecidableEq α] [LE α] [DecidableLE α]
    {pairs : List (α × β)} {key : α} {values : List β}
    (h : (key, values) ∈ groups pairs) {value : β} :
    value ∈ values ↔ (key, value) ∈ pairs := by
  rw [values_of_mem_groups h]
  simp [List.mem_filterMap]

namespace Nfa

variable {L σ : Type} {nfa : Nfa L} {reads : L → σ → Prop}

/-! ## Words and closures -/

/-- A state is reached from another one by one symbol, null transitions behind it. -/
def Moves (nfa : Nfa L) (reads : L → σ → Prop) (p : Nat) (c : σ) (r : Nat) : Prop :=
  ∃ l q, nfa.Leaves p (.symbol l q) ∧ reads l c ∧ nfa.NullReach q r

theorem Path.split {p r : Nat} (u : List σ) {v : List σ} (h : nfa.Path reads p (u ++ v) r) :
    ∃ q, nfa.Path reads p u q ∧ nfa.Path reads q v r := by
  generalize hw : u ++ v = w at h
  induction h generalizing u with
  | nil p =>
    obtain ⟨rfl, rfl⟩ := List.append_eq_nil_iff.1 hw
    exact ⟨p, .nil p, .nil p⟩
  | null leaves _ ih =>
    obtain ⟨q, hu, hv⟩ := ih u hw
    exact ⟨q, .null leaves hu, hv⟩
  | @symbol p q r l c w leaves stands rest ih =>
    cases u with
    | nil =>
      obtain rfl : v = c :: w := hw
      exact ⟨p, .nil p, .symbol leaves stands rest⟩
    | cons d u =>
      obtain ⟨rfl, htail⟩ := List.cons.inj hw
      obtain ⟨q', hu, hv⟩ := ih u htail
      exact ⟨q', .symbol leaves stands hu, hv⟩

/-- A word that ends in a symbol is read up to the symbol, and then the symbol. -/
theorem path_concat_iff {p r : Nat} {w : List σ} {c : σ} :
    nfa.Path reads p (w ++ [c]) r ↔ ∃ q, nfa.Path reads p w q ∧ nfa.Moves reads q c r := by
  constructor
  · intro h
    obtain ⟨q, hw, hc⟩ := h.split w
    generalize hword : [c] = word at hc
    induction hc with
    | nil => cases hword
    | null leaves _ ih =>
      have hnull := hw.append (.null leaves (.nil _))
      rw [List.append_nil] at hnull
      exact ih h hnull hword
    | symbol leaves stands rest _ =>
      cases hword
      exact ⟨_, hw, _, _, leaves, stands, path_nil_iff.1 rest⟩
  · rintro ⟨q, hw, l, t, leaves, stands, hreach⟩
    exact hw.append (.symbol leaves stands (path_nil_iff.2 hreach))

/-! ## Completions of a closure -/

/-- The state is final for the rule. -/
def IsFinal (nfa : Nfa L) (id rule : Nat) : Prop :=
  ∃ s, nfa.state id = .ok s ∧ s.accept = some rule

/-- The rule that a state is final for, if it exists and is final. -/
def accept? (nfa : Nfa L) (id : Nat) : Option Nat := (nfa.states[id]?).bind NfaState.accept

theorem accept?_eq_some_iff {id rule : Nat} :
    nfa.accept? id = some rule ↔ nfa.IsFinal id rule := by
  unfold accept? IsFinal state
  cases nfa.states[id]? <;> simp

/-- The finals of a closure are its final states in their order, each after its rule. -/
theorem finals_eq {c : Closure} (h : c.Within nfa.size) :
    nfa.finals c = .ok (c.states.filterMap fun id => (nfa.accept? id).map (·, id)) := by
  have hrules : c.states.mapM (fun id => (nfa.state id).map NfaState.accept) =
      .ok (c.states.map nfa.accept?) := by
    rw [mapM_eq_ok_iff, List.forall₂_map_right_iff, List.forall₂_same]
    intro id hid
    have hlt := h id hid
    have haccept : nfa.accept? id = nfa.states[id].accept := by
      unfold accept?
      rw [Array.getElem?_eq_getElem hlt]
      rfl
    rw [haccept, state_of_lt hlt]
    rfl
  have hzip : (c.states.map nfa.accept?).zip c.states =
      c.states.map fun id => (nfa.accept? id, id) := by
    simpa using List.zip_map' (l := c.states) (f := nfa.accept?) (g := id)
  unfold finals
  rw [hrules]
  show Except.ok _ = Except.ok _
  rw [hzip, List.filterMap_map]
  rfl

/-- The finals of a closure list its final states under their rules. -/
theorem finals_ok {c : Closure} (h : c.Within nfa.size) :
    ∃ finals, nfa.finals c = .ok finals ∧ ∀ rule id, (rule, id) ∈ finals ↔
      id ∈ c ∧ nfa.IsFinal id rule := by
  refine ⟨_, finals_eq h, fun rule id => ?_⟩
  rw [List.mem_filterMap, ← accept?_eq_some_iff]
  constructor
  · rintro ⟨q, hq, heq⟩
    obtain ⟨r, hr, heq⟩ := Option.map_eq_some_iff.1 heq
    cases heq
    exact ⟨hq, hr⟩
  · rintro ⟨hid, haccept⟩
    exact ⟨id, hid, Option.map_eq_some_iff.2 ⟨rule, haccept, rfl⟩⟩

/-- The rules of some completions are those that states of a closure are final for, ascending. -/
def Completes (nfa : Nfa L) (c : Closure) (completions : List Completion) : Prop :=
  (∀ rule, rule ∈ completions.map Completion.rule ↔ ∃ id ∈ c, nfa.IsFinal id rule) ∧
    (completions.map Completion.rule).Pairwise (· < ·)

theorem completions_ok {c : Closure} (h : c.Within nfa.size) :
    ∃ completions, nfa.completions c = .ok completions ∧ nfa.Completes c completions := by
  obtain ⟨finals, hfinals, hmem⟩ := finals_ok h
  refine ⟨_, by unfold completions; rw [hfinals]; rfl, fun rule => ?_, ?_⟩
  · rw [List.map_map]
    show rule ∈ (groups finals).map Prod.fst ↔ _
    rw [mem_groups_fst]
    simp only [hmem]
  · rw [List.map_map]
    exact pairwise_groups_fst finals

/-- A completion of a closure has the states that are final for its rule, ascending. -/
theorem states_of_mem_completions {c : Closure} (h : c.Within nfa.size)
    {completions : List Completion} (hcompletions : nfa.completions c = .ok completions)
    {m : Completion} (hm : m ∈ completions) :
    m.states.Pairwise (· < ·) ∧ ∀ id, id ∈ m.states ↔ id ∈ c ∧ nfa.IsFinal id m.rule := by
  unfold Nfa.completions at hcompletions
  rw [finals_eq h] at hcompletions
  obtain rfl := Except.ok.inj hcompletions
  obtain ⟨⟨rule, states⟩, hgroup, rfl⟩ := List.mem_map.1 hm
  obtain ⟨finals, hfinals, hmem⟩ := finals_ok h
  rw [finals_eq h] at hfinals
  obtain rfl := Except.ok.inj hfinals
  refine ⟨?_, fun id => (mem_values_of_mem_groups hgroup).trans (hmem rule id)⟩
  -- What is listed under a rule keeps the order of the closure.
  rw [values_of_mem_groups hgroup, List.filterMap_filterMap, List.pairwise_filterMap]
  refine c.ascending.imp fun {p q} hpq a ha b hb => ?_
  obtain ⟨⟨_, _⟩, hp, ha⟩ := Option.bind_eq_some_iff.1 ha
  obtain ⟨⟨_, _⟩, hq, hb⟩ := Option.bind_eq_some_iff.1 hb
  obtain ⟨_, -, hp⟩ := Option.map_eq_some_iff.1 hp
  obtain ⟨_, -, hq⟩ := Option.map_eq_some_iff.1 hq
  cases hp
  cases hq
  dsimp only at ha hb
  split at ha <;> cases ha
  split at hb <;> cases hb
  exact hpq

end Nfa

/-! ## Classes of labels -/

/-- The classes of an alphabet cut its labels: a symbol of a class lies in exactly the labels whose
positions come with it, and every symbol of a label lies in some class. -/
structure Alphabet.Cuts {L σ : Type} [Alphabet L] (reads : L → σ → Prop) : Prop where
  exact : ∀ (labels : List L), ∀ cls ∈ Alphabet.classes labels, ∀ c, reads cls.1 c →
    ∀ k, k ∈ cls.2 ↔ ∃ l, labels[k]? = some l ∧ reads l c
  complete : ∀ (labels : List L) (l : L) (c : σ), l ∈ labels → reads l c →
    ∃ cls ∈ Alphabet.classes labels, reads cls.1 c

/-- An interval reads the characters that lie in it. -/
def Interval.reads (i : Interval) (c : Char) : Prop := c ∈ i

theorem Interval.cuts : Alphabet.Cuts Interval.reads := by
  refine ⟨fun labels cls hcls c hc k => ?_, fun labels l c hl hc => ?_⟩
  · rw [← (isClass_of_mem_partition cls hcls).2 c hc]
    exact mem_positions
  · exact exists_mem_partition ⟨l, hl, hc⟩

namespace Nfa

variable {L σ : Type} {nfa : Nfa L} {reads : L → σ → Prop}

/-! ## Edges -/

/-- What is listed for the states of a closure comes from their transitions. -/
theorem mem_flatMap_states {α : Type} {c : Closure} {states : List (NfaState L)}
    (h : c.states.mapM nfa.state = .ok states) {pick : Transition L → Option α} {a : α} :
    a ∈ states.flatMap (fun s => s.transitions.filterMap pick) ↔
      ∃ p ∈ c, ∃ t, nfa.Leaves p t ∧ pick t = some a := by
  have hall := mapM_eq_ok_iff.1 h
  rw [List.mem_flatMap]
  constructor
  · rintro ⟨s, hs, ha⟩
    obtain ⟨p, hp, hps⟩ := forall₂_mem_right hall hs
    obtain ⟨t, ht, heq⟩ := List.mem_filterMap.1 ha
    exact ⟨p, hp, t, ⟨s, hps, ht⟩, heq⟩
  · rintro ⟨p, hp, t, ⟨s, hps, ht⟩, heq⟩
    obtain ⟨s', hs', hps'⟩ := forall₂_mem_left hall hp
    rw [hps] at hps'
    cases hps'
    exact ⟨s, hs', List.mem_filterMap.2 ⟨t, ht, heq⟩⟩

theorem moves_ok {c : Closure} (h : c.Within nfa.size) :
    ∃ moves, nfa.moves c = .ok moves ∧
      ∀ l q, (l, q) ∈ moves ↔ ∃ p ∈ c, nfa.Leaves p (.symbol l q) := by
  obtain ⟨states, hstates⟩ : ∃ states, c.states.mapM nfa.state = .ok states :=
    exists_mapM_eq_ok fun id hid => ⟨_, state_of_lt (h id hid)⟩
  refine ⟨_, by unfold moves; rw [hstates]; rfl, fun l q => (mem_flatMap_states hstates).trans ?_⟩
  refine exists_congr fun p => and_congr_right fun _ => ?_
  constructor
  · rintro ⟨t, ht, heq⟩
    cases t with
    | null target => cases heq
    | symbol label target =>
      cases heq
      exact ht
  · exact fun leaves => ⟨_, leaves, rfl⟩

/-- The targets of the moves at some positions. -/
def targetsAt (moves : List (L × Nat)) (positions : List Nat) : List Nat :=
  positions.filterMap fun k => (moves.map Prod.snd).toArray[k]?

theorem mem_targetsAt {moves : List (L × Nat)} {positions : List Nat} {q : Nat} :
    q ∈ targetsAt moves positions ↔ ∃ k ∈ positions, ∃ l, moves[k]? = some (l, q) := by
  unfold targetsAt
  simp only [List.mem_filterMap, List.getElem?_toArray, List.getElem?_map, Option.map_eq_some_iff,
    Prod.exists, exists_eq_right]

/-- What an edge out of a closure stands for. -/
structure EdgeOf (nfa : Nfa L) (reads : L → σ → Prop) (c : Closure) (e : SubsetEdge L) : Prop where
  within : e.closure.Within nfa.size
  completions : nfa.completions e.closure = .ok e.completions
  mem_iff : ∀ a, reads e.label a → ∀ id, id ∈ e.closure ↔ ∃ p ∈ c, nfa.Moves reads p a id

/-- The edge for a class of moves. -/
def edgeOfClass (nfa : Nfa L) (moves : List (L × Nat)) (cls : L × List Nat) :
    Except Fault (SubsetEdge L) := do
  let closure ← nfa.nullClosure (targetsAt moves cls.2)
  let completions ← nfa.completions closure
  pure ⟨cls.1, closure, completions⟩

theorem edgeOfClass_ok (hlimit : nfa.size < sizeLimit) (htargets : nfa.TargetsExist)
    {moves : List (L × Nat)} (hmoves : ∀ l q, (l, q) ∈ moves → q < nfa.size)
    (cls : L × List Nat) :
    ∃ e, nfa.edgeOfClass moves cls = .ok e ∧ e.label = cls.1 ∧ e.closure.Within nfa.size ∧
      nfa.completions e.closure = .ok e.completions ∧
      ∀ id, id ∈ e.closure ↔ ∃ q ∈ targetsAt moves cls.2, nfa.NullReach q id := by
  have hlt : ∀ q ∈ targetsAt moves cls.2, q < nfa.size := by
    intro q hq
    obtain ⟨k, -, l, hk⟩ := mem_targetsAt.1 hq
    exact hmoves l q (List.mem_of_getElem? hk)
  obtain ⟨closure, hclosure, hmem⟩ := nullClosure_ok hlimit htargets hlt
  have hwithin : closure.Within nfa.size := by
    intro id hid
    obtain ⟨q, hq, hreach⟩ := (hmem id).1 hid
    exact hreach.lt htargets (hlt q hq)
  obtain ⟨completions, hcompletions, -⟩ := completions_ok hwithin
  refine ⟨⟨cls.1, closure, completions⟩, ?_, rfl, hwithin, hcompletions, hmem⟩
  exact bind_eq_ok_iff.2 ⟨closure, hclosure, bind_eq_ok_iff.2 ⟨completions, hcompletions, rfl⟩⟩

variable [Alphabet L]

theorem subsetEdges_eq {c : Closure} {moves : List (L × Nat)} (h : nfa.moves c = .ok moves) :
    nfa.subsetEdges c = (Alphabet.classes (moves.map Prod.fst)).mapM (nfa.edgeOfClass moves) := by
  unfold subsetEdges
  rw [h]
  rfl

/-- The edges out of a closure have the classes of the labels that leave it, in their order. -/
theorem labels_subsetEdges {c : Closure} {moves : List (L × Nat)} {edges : List (SubsetEdge L)}
    (hmoves : nfa.moves c = .ok moves) (hedges : nfa.subsetEdges c = .ok edges) :
    edges.map SubsetEdge.label = (Alphabet.classes (moves.map Prod.fst)).map Prod.fst := by
  rw [subsetEdges_eq hmoves, mapM_eq_ok_iff] at hedges
  rw [← List.forall₂_eq_eq_eq, List.forall₂_map_left_iff, List.forall₂_map_right_iff]
  refine hedges.flip.imp fun e cls hedge => ?_
  obtain ⟨closure, -, hedge⟩ := bind_eq_ok_iff.1 hedge
  obtain ⟨completions, -, hedge⟩ := bind_eq_ok_iff.1 hedge
  cases hedge
  rfl

/-- The positions of a class are those of the moves that its symbols make. -/
theorem mem_targetsAt_class (hcuts : Alphabet.Cuts reads) {c : Closure} {moves : List (L × Nat)}
    (hmoves : ∀ l q, (l, q) ∈ moves ↔ ∃ p ∈ c, nfa.Leaves p (.symbol l q)) {cls : L × List Nat}
    (hcls : cls ∈ Alphabet.classes (moves.map Prod.fst)) {a : σ} (ha : reads cls.1 a) {q : Nat} :
    q ∈ targetsAt moves cls.2 ↔ ∃ p ∈ c, ∃ l, nfa.Leaves p (.symbol l q) ∧ reads l a := by
  have hexact := hcuts.exact _ cls hcls a ha
  rw [mem_targetsAt]
  constructor
  · rintro ⟨k, hk, l, hl⟩
    obtain ⟨l', hl', stands⟩ := (hexact k).1 hk
    rw [List.getElem?_map, hl] at hl'
    cases hl'
    obtain ⟨p, hp, leaves⟩ := (hmoves l q).1 (List.mem_of_getElem? hl)
    exact ⟨p, hp, l, leaves, stands⟩
  · rintro ⟨p, hp, l, leaves, stands⟩
    obtain ⟨k, hk⟩ := List.mem_iff_getElem?.1 ((hmoves l q).2 ⟨p, hp, leaves⟩)
    refine ⟨k, (hexact k).2 ⟨l, ?_, stands⟩, l, hk⟩
    rw [List.getElem?_map, hk]
    rfl

/-- The edges out of a closure, one of them for every symbol that leaves it. -/
theorem subsetEdges_ok (hcuts : Alphabet.Cuts reads) (hlimit : nfa.size < sizeLimit)
    (htargets : nfa.TargetsExist) {c : Closure} (h : c.Within nfa.size) :
    ∃ edges, nfa.subsetEdges c = .ok edges ∧ (∀ e ∈ edges, nfa.EdgeOf reads c e) ∧
      ∀ a, ∀ p ∈ c, ∀ id, nfa.Moves reads p a id → ∃ e ∈ edges, reads e.label a := by
  obtain ⟨moves, hmoves, hmem⟩ := moves_ok h
  have hlt : ∀ l q, (l, q) ∈ moves → q < nfa.size := by
    intro l q hmove
    obtain ⟨p, -, leaves⟩ := (hmem l q).1 hmove
    exact htargets p _ leaves
  have hedge := edgeOfClass_ok hlimit htargets hlt
  obtain ⟨edges, hedges⟩ := exists_mapM_eq_ok
    fun cls (_ : cls ∈ Alphabet.classes (moves.map Prod.fst)) => (hedge cls).imp fun e he => he.1
  have hall := mapM_eq_ok_iff.1 hedges
  refine ⟨edges, (subsetEdges_eq hmoves).trans hedges, fun e he => ?_, fun a p hp id hmove => ?_⟩
  · obtain ⟨cls, hcls, heq⟩ := forall₂_mem_right hall he
    obtain ⟨e', heq', hlabel, hwithin, hcompletions, hclosure⟩ := hedge cls
    rw [heq] at heq'
    cases heq'
    refine ⟨hwithin, hcompletions, fun a ha id => ?_⟩
    rw [hlabel] at ha
    rw [hclosure]
    simp only [mem_targetsAt_class hcuts hmem hcls ha]
    constructor
    · rintro ⟨q, ⟨p, hp, l, leaves, stands⟩, hreach⟩
      exact ⟨p, hp, l, q, leaves, stands, hreach⟩
    · rintro ⟨p, hp, l, q, leaves, stands, hreach⟩
      exact ⟨q, ⟨p, hp, l, leaves, stands⟩, hreach⟩
  · obtain ⟨l, q, leaves, stands, -⟩ := hmove
    have hl : l ∈ moves.map Prod.fst := List.mem_map.2 ⟨_, (hmem l q).2 ⟨p, hp, leaves⟩, rfl⟩
    obtain ⟨cls, hcls, ha⟩ := hcuts.complete _ l a hl stands
    obtain ⟨e, he, heq⟩ := forall₂_mem_left hall hcls
    obtain ⟨e', heq', hlabel, -⟩ := hedge cls
    rw [heq] at heq'
    cases heq'
    exact ⟨e, he, by rwa [hlabel]⟩

/-- Closures that can be reached from one within the automaton are within it. -/
theorem within_of_reached (hcuts : Alphabet.Cuts reads) (hlimit : nfa.size < sizeLimit)
    (htargets : nfa.TargetsExist) {root c : Closure} (hroot : root.Within nfa.size)
    (hc : Numbering.Reached nfa.subsetEdges SubsetEdge.closure root c) : c.Within nfa.size := by
  induction hc with
  | root => exact hroot
  | step _ hfound he ih =>
    obtain ⟨edges, hedges, hspec, -⟩ := subsetEdges_ok hcuts hlimit htargets ih
    rw [hfound] at hedges
    cases hedges
    exact (hspec _ he).within

/-- The closures that can be reached hold states of the automaton, and their edges are known. -/
theorem subsets_ok (hcuts : Alphabet.Cuts reads) (hlimit : nfa.size < sizeLimit)
    (htargets : nfa.TargetsExist) {start : Nat} (hstart : start < nfa.size) :
    ∃ root g, nfa.subsets start = .ok g ∧
      Numbering.IsExploration nfa.subsetEdges SubsetEdge.closure root g ∧
      (∀ id, id ∈ root ↔ nfa.NullReach start id) ∧
      ∀ c, Numbering.Reached nfa.subsetEdges SubsetEdge.closure root c → c.Within nfa.size := by
  have hfrontier : ∀ id ∈ [start], id < nfa.size := by simpa using hstart
  obtain ⟨root, hroot, hmem⟩ := nullClosure_ok hlimit htargets hfrontier
  simp only [List.mem_singleton, exists_eq_left] at hmem
  have hroot_within : root.Within nfa.size := fun id hid => ((hmem id).1 hid).lt htargets hstart
  have hwithin : ∀ c, Numbering.Reached nfa.subsetEdges SubsetEdge.closure root c →
      c.Within nfa.size := fun c => within_of_reached hcuts hlimit htargets hroot_within
  have hfew : Numbering.ReachesAtMost nfa.subsetEdges SubsetEdge.closure root
      (Nat.pow 2 nfa.size) := fun cs nodup hcs =>
    Closure.length_le_of_nodup nodup fun c hc => hwithin c (hcs c hc)
  obtain ⟨g, hg, hspec⟩ := Numbering.explore_ok
    (fun c hc => (subsetEdges_ok hcuts hlimit htargets (hwithin c hc)).imp fun _ h => h.1) hfew
  refine ⟨root, g, ?_, hspec, hmem, hwithin⟩
  unfold subsets
  rw [hroot]
  exact hg

end Nfa

namespace Dfa

variable {L σ : Type}

/-! ## The deterministic automaton -/

/-- The states of the automaton stand for closures, the first one for the closure of the start; its
transitions lead to the closures that their symbols lead to, and there is one for each symbol that
leads anywhere. -/
structure Determines (reads : L → σ → Prop) (nfa : Nfa L) (start : Nat) (dfa : Dfa L) : Prop where
  first : ∃ s, dfa.state Dfa.start = .ok s ∧ ∀ id, id ∈ s.closure ↔ nfa.NullReach start id
  accepts : ∀ id s, dfa.state id = .ok s → nfa.Completes s.closure s.accepts
  step : ∀ id s, dfa.state id = .ok s → ∀ t ∈ s.transitions, ∃ next, dfa.state t.target = .ok next ∧
    t.completions = next.accepts ∧ ∀ a, reads t.label a →
      ∀ r, r ∈ next.closure ↔ ∃ p ∈ s.closure, nfa.Moves reads p a r
  total : ∀ id s, dfa.state id = .ok s → ∀ a, ∀ p ∈ s.closure, ∀ r, nfa.Moves reads p a r →
    ∃ t ∈ s.transitions, reads t.label a

theorem state_eq_ok_iff {dfa : Dfa L} {id : Nat} {s : DfaState L} :
    dfa.state id = .ok s ↔ dfa.states[id]? = some s := by
  unfold state
  cases dfa.states[id]? <;> simp

/-- The transitions of a state that is made from some edges. -/
def transitionsOf (edges : List (SubsetEdge L × Nat)) : List (DfaTransition L) :=
  edges.map fun edge => ⟨edge.1.label, edge.2, edge.1.completions⟩

theorem ofClosure_eq_ok_iff {nfa : Nfa L} {c : Closure} {edges : List (SubsetEdge L × Nat)}
    {s : DfaState L} : ofClosure nfa c edges = .ok s ↔
      s.closure = c ∧ nfa.completions c = .ok s.accepts ∧ s.transitions = transitionsOf edges := by
  unfold ofClosure
  rw [bind_eq_ok_iff]
  constructor
  · rintro ⟨accepts, haccepts, heq⟩
    cases heq
    exact ⟨rfl, haccepts, rfl⟩
  · rintro ⟨rfl, haccepts, htransitions⟩
    refine ⟨s.accepts, haccepts, ?_⟩
    show Except.ok (DfaState.mk s.closure s.accepts (transitionsOf edges)) = .ok s
    rw [← htransitions]

variable [Alphabet L]

/-- A state of the automaton is made from the closure and the edges of its number. -/
theorem build_eq_ok {nfa : Nfa L} {start : Nat} {g : Numbering Closure (SubsetEdge L)}
    (hg : nfa.subsets start = .ok g)
    (hwithin : ∀ c ∈ g.states, c.Within nfa.size) :
    ∃ dfa, Dfa.build nfa start = .ok dfa ∧ ∀ id s, dfa.state id = .ok s ↔ ∃ edges,
      g.states[id]? = some s.closure ∧ g.edges[id]? = some edges ∧
        nfa.completions s.closure = .ok s.accepts ∧ s.transitions = transitionsOf edges := by
  have hpairs : ∀ pair ∈ g.states.toList.zip g.edges.toList,
      ∃ s, ofClosure nfa pair.1 pair.2 = .ok s := by
    intro pair hpair
    have hmem := Array.mem_toList_iff.1 (List.of_mem_zip hpair).1
    obtain ⟨completions, hcompletions, -⟩ := Nfa.completions_ok (hwithin _ hmem)
    exact ⟨⟨_, _, _⟩, ofClosure_eq_ok_iff.2 ⟨rfl, hcompletions, rfl⟩⟩
  obtain ⟨states, hall⟩ := exists_mapM_eq_ok hpairs
  have hzip := mapM_eq_ok_iff.1 hall
  refine ⟨⟨states.toArray⟩, ?_, fun id s => ?_⟩
  · exact bind_eq_ok_iff.2 ⟨g, hg, bind_eq_ok_iff.2 ⟨states, hall, rfl⟩⟩
  rw [state_eq_ok_iff, List.getElem?_toArray]
  constructor
  · intro hs
    obtain ⟨⟨c, edges⟩, hpair, heq⟩ := forall₂_getElem?_right hzip hs
    obtain ⟨hc, hedges⟩ := List.getElem?_zip_eq_some.1 hpair
    rw [Array.getElem?_toList] at hc hedges
    obtain ⟨rfl, hrest⟩ := ofClosure_eq_ok_iff.1 heq
    exact ⟨edges, hc, hedges, hrest⟩
  · rintro ⟨edges, hc, hedges, hrest⟩
    rw [← Array.getElem?_toList] at hc hedges
    have hpair : (g.states.toList.zip g.edges.toList)[id]? = some (s.closure, edges) :=
      List.getElem?_zip_eq_some.2 ⟨hc, hedges⟩
    obtain ⟨s', hs', heq⟩ := forall₂_getElem?_left hzip hpair
    rw [ofClosure_eq_ok_iff.2 ⟨rfl, hrest⟩] at heq
    cases heq
    exact hs'

/-- The automaton is made from an exploration of the closures that can be reached from a root. -/
structure MadeFrom (nfa : Nfa L) (root : Closure) (g : Numbering Closure (SubsetEdge L))
    (dfa : Dfa L) : Prop where
  exploration : Numbering.IsExploration nfa.subsetEdges SubsetEdge.closure root g
  within : ∀ c ∈ g.states, c.Within nfa.size
  state_iff : ∀ id s, dfa.state id = .ok s ↔ ∃ edges,
    g.states[id]? = some s.closure ∧ g.edges[id]? = some edges ∧
      nfa.completions s.closure = .ok s.accepts ∧ s.transitions = transitionsOf edges

/-- The subset construction makes an automaton from an exploration if the given one fits in
memory. -/
theorem build_madeFrom {reads : L → σ → Prop} {nfa : Nfa L} (hcuts : Alphabet.Cuts reads)
    (hlimit : nfa.size < sizeLimit) (htargets : nfa.TargetsExist) {start : Nat}
    (hstart : start < nfa.size) :
    ∃ dfa, Dfa.build nfa start = .ok dfa ∧ ∃ root g, MadeFrom nfa root g dfa ∧
      ∀ id, id ∈ root ↔ nfa.NullReach start id := by
  obtain ⟨root, g, hg, hspec, hroot, hreached⟩ := Nfa.subsets_ok hcuts hlimit htargets hstart
  have hwithin : ∀ c ∈ g.states, c.Within nfa.size := fun c hc =>
    hreached c ((hspec.mem_iff c).1 hc)
  obtain ⟨dfa, hdfa, hstate⟩ := build_eq_ok hg hwithin
  exact ⟨dfa, hdfa, root, g, ⟨hspec, hwithin, hstate⟩, hroot⟩

namespace MadeFrom

variable {nfa : Nfa L} {root : Closure} {g : Numbering Closure (SubsetEdge L)} {dfa : Dfa L}

/-- Every closure has a state that stands for it. -/
theorem exists_state (made : MadeFrom nfa root g dfa) {id : Nat} {c : Closure}
    (hc : g.states[id]? = some c) : ∃ s, dfa.state id = .ok s ∧ s.closure = c := by
  obtain ⟨edges, hedges, -⟩ := made.exploration.exists_edges hc
  obtain ⟨completions, hcompletions, -⟩ :=
    Nfa.completions_ok (made.within c (Array.mem_of_getElem? hc))
  exact ⟨⟨c, completions, transitionsOf edges⟩,
    (made.state_iff _ _).2 ⟨edges, hc, hedges, hcompletions, rfl⟩, rfl⟩

/-- The transitions of a state are the edges that leave its closure, each with the number of the
closure it leads to. -/
theorem exists_edges (made : MadeFrom nfa root g dfa) {id : Nat} {s : DfaState L}
    (hs : dfa.state id = .ok s) : ∃ edges : List (SubsetEdge L × Nat),
      nfa.subsetEdges s.closure = .ok (edges.map Prod.fst) ∧
        s.transitions = transitionsOf edges ∧ ∀ e ∈ edges, g.states[e.2]? = some e.1.closure := by
  obtain ⟨edges, hc, hedges, -, htransitions⟩ := (made.state_iff id s).1 hs
  exact ⟨edges, made.exploration.found id _ edges hc hedges, htransitions,
    made.exploration.target_eq id edges hedges⟩

theorem within_of_state (made : MadeFrom nfa root g dfa) {id : Nat} {s : DfaState L}
    (hs : dfa.state id = .ok s) : s.closure.Within nfa.size := by
  obtain ⟨_, hc, -⟩ := (made.state_iff id s).1 hs
  exact made.within _ (Array.mem_of_getElem? hc)

theorem completions_eq (made : MadeFrom nfa root g dfa) {id : Nat} {s : DfaState L}
    (hs : dfa.state id = .ok s) : nfa.completions s.closure = .ok s.accepts := by
  obtain ⟨_, -, -, haccepts, -⟩ := (made.state_iff id s).1 hs
  exact haccepts

end MadeFrom

/-- The subset construction answers if the automaton fits in memory. -/
theorem build_ok {reads : L → σ → Prop} {nfa : Nfa L} (hcuts : Alphabet.Cuts reads)
    (hlimit : nfa.size < sizeLimit) (htargets : nfa.TargetsExist) {start : Nat}
    (hstart : start < nfa.size) :
    ∃ dfa, Dfa.build nfa start = .ok dfa ∧ Determines reads nfa start dfa := by
  obtain ⟨dfa, hdfa, root, g, made, hroot⟩ := build_madeFrom hcuts hlimit htargets hstart
  have hedges : ∀ id s, dfa.state id = .ok s → ∃ edges : List (SubsetEdge L × Nat),
      s.transitions = transitionsOf edges ∧
        (∀ e ∈ edges, g.states[e.2]? = some e.1.closure ∧ nfa.EdgeOf reads s.closure e.1) ∧
        ∀ a, ∀ p ∈ s.closure, ∀ r, nfa.Moves reads p a r → ∃ e ∈ edges, reads e.1.label a := by
    intro id s hs
    obtain ⟨edges, hfound, htransitions, htarget⟩ := made.exists_edges hs
    obtain ⟨found, hfound', hall, htotal⟩ :=
      Nfa.subsetEdges_ok hcuts hlimit htargets (made.within_of_state hs)
    rw [hfound] at hfound'
    obtain rfl := Except.ok.inj hfound'
    refine ⟨edges, htransitions, fun e he => ⟨htarget e he, ?_⟩, fun a p hp r hmove => ?_⟩
    · exact hall e.1 (List.mem_map_of_mem he)
    · obtain ⟨_, hmem, ha⟩ := htotal a p hp r hmove
      obtain ⟨e, he, rfl⟩ := List.mem_map.1 hmem
      exact ⟨e, he, ha⟩
  refine ⟨dfa, hdfa, ?_, ?_, ?_, ?_⟩
  · obtain ⟨s, hs, hclosure⟩ := made.exists_state made.exploration.first
    exact ⟨s, hs, hclosure ▸ hroot⟩
  · intro id s hs
    obtain ⟨completions, hcompletions, hcompletes⟩ :=
      Nfa.completions_ok (made.within_of_state hs)
    rw [made.completions_eq hs] at hcompletions
    cases hcompletions
    exact hcompletes
  · intro id s hs t ht
    obtain ⟨edges, htransitions, hspec, -⟩ := hedges id s hs
    rw [htransitions] at ht
    obtain ⟨e, he, rfl⟩ := List.mem_map.1 ht
    obtain ⟨htarget, hedgeOf⟩ := hspec e he
    obtain ⟨next, hnext, hclosure⟩ := made.exists_state htarget
    have haccepts := made.completions_eq hnext
    rw [hclosure, hedgeOf.completions] at haccepts
    exact ⟨next, hnext, Except.ok.inj haccepts, hclosure ▸ hedgeOf.mem_iff⟩
  · intro id s hs a p hp r hmove
    obtain ⟨edges, htransitions, -, htotal⟩ := hedges id s hs
    obtain ⟨e, he, ha⟩ := htotal a p hp r hmove
    rw [htransitions]
    exact ⟨_, List.mem_map_of_mem he, ha⟩

/-- The subset construction answers only if the automaton fits in memory. -/
theorem lt_sizeLimit_of_build {nfa : Nfa L} {start : Nat} {dfa : Dfa L}
    (h : Dfa.build nfa start = .ok dfa) : nfa.size < sizeLimit := by
  obtain ⟨subsets, hsubsets, -⟩ := bind_eq_ok_iff.1 h
  obtain ⟨root, hroot, -⟩ := bind_eq_ok_iff.1 hsubsets
  exact Sweep.lt_sizeLimit_of_fresh_collect hroot

end Dfa

end LexChart
