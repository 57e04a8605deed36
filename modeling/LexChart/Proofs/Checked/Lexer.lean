import LexChart.Proofs.Automaton.Dispatch
import LexChart.Proofs.Checked.Fragments
import LexChart.Proofs.Checked.Graphs
import LexChart.Proofs.Checked.Patterns
import LexChart.Proofs.Lexer.Captures
set_option autoImplicit false

/-!
# Making a lexer without breaking off

The automaton of all patterns, its determinization, and the dispatch tables of the result, with
every index checked: the class of a label lists positions of labels, a table has a slot for every
small code point, and it names transitions by positions that the state has.
-/

namespace LexChart.Checked

/-! ## The automaton of all patterns -/

/-- `Lexer.addRule`, checked. -/
def addRule (root : Nat) (nfa : Nfa Interval) (pattern : Pattern) (rule : Nat) :
    Option (Nfa Interval) := do
  let (nfa, fragment) ← build nfa intervalsOf pattern
  let nfa ← (nfa.addTransition root (.null fragment.entry)).toOption
  (nfa.setAccept fragment.exit rule).toOption

/-- `Lexer.nfa`, checked. -/
def lexerNfa (patterns : List Pattern) : Option (Nfa Interval) :=
  let (nfa, root) := Nfa.empty.addState
  patterns.zipIdx.foldlM (fun nfa (pattern, rule) => addRule root nfa pattern rule) nfa

theorem addRule_eq {root : Nat} {nfa : Nfa Interval} (h : root < nfa.size) (pattern : Pattern)
    (rule : Nat) : addRule root nfa pattern rule = some (Lexer.addRule root nfa pattern rule) ∧
      root < (Lexer.addRule root nfa pattern rule).size := by
  obtain ⟨hbuild, hle, -, hexit⟩ := build_eq intervalsOf_eq nfa pattern
  unfold addRule Lexer.addRule
  rw [hbuild]
  generalize nfa.build CharClass.intervals pattern = built at hle hexit ⊢
  obtain ⟨more, fragment⟩ := built
  dsimp only at hle hexit ⊢
  have hroot : root < more.size := Nat.lt_of_lt_of_le h hle
  have hlinked := Nfa.size_modifyState more root fun s => s.addTransition (.null fragment.entry)
  constructor
  · show (more.addTransition root (.null fragment.entry)).toOption.bind _ = _
    unfold Nfa.addTransition Nfa.setAccept
    rw [Nfa.changeState_of_lt hroot]
    show (Nfa.changeState _ _ _).toOption = _
    rw [Nfa.changeState_of_lt (by rw [hlinked]; exact hexit)]
    rfl
  · rw [Nfa.size_modifyState, hlinked]
    exact hroot

theorem lexerNfa_eq (patterns : List Pattern) : lexerNfa patterns = some (Lexer.nfa patterns) := by
  have hstep : ∀ (nfa : Nfa Interval) (entry : Pattern × Nat), 0 < nfa.size →
      addRule 0 nfa entry.1 entry.2 = some (Lexer.addRule 0 nfa entry.1 entry.2) ∧
        0 < (Lexer.addRule 0 nfa entry.1 entry.2).size :=
    fun _ entry h => addRule_eq h entry.1 entry.2
  exact foldlM_eq_some hstep patterns.zipIdx (by decide)

/-! ## The subset construction -/

/-- `Nfa.nullClosure` on an array of marks. -/
def nullClosure {L : Type} (nfa : Nfa L) (frontier : List Nat) : Marking Closure :=
  Marks.collect nfa.size nfa.nullTargets frontier

/-- `Nfa.subsetEdges`, checked. -/
def subsetEdges (nfa : Nfa Interval) (c : Closure) : Marking (List (SubsetEdge Interval)) := do
  let moves ← StateT.lift (nfa.moves c).toOption
  let targets := (moves.map Prod.snd).toArray
  let classes ← StateT.lift (partition (moves.map Prod.fst))
  classes.mapM fun (label, members) => do
    let frontier ← StateT.lift (members.mapM fun k => targets[k]?)
    let closure ← nullClosure nfa frontier
    let completions ← StateT.lift (nfa.completions closure).toOption
    pure ⟨label, closure, completions⟩

/-- `Nfa.subsets`, checked. -/
def subsets (nfa : Nfa Interval) (start : Nat) :
    Marking (Numbering Closure (SubsetEdge Interval)) := do
  let root ← nullClosure nfa [start]
  explore (subsetEdges nfa) SubsetEdge.closure (Nat.pow 2 nfa.size) root

/-- `Dfa.build`, checked. -/
def buildDfa (nfa : Nfa Interval) (start : Nat) : Option (Dfa Interval) := do
  let subsets ← ran (subsets nfa start)
  let states ← (subsets.states.toList.zip subsets.edges.toList).mapM fun (c, edges) =>
    (Dfa.ofClosure nfa c edges).toOption
  pure ⟨states.toArray⟩

/-- The members of a class are positions of labels, so each has a target. -/
theorem exists_target {moves : List (Interval × Nat)} {cls : Interval × List Nat}
    (hcls : cls ∈ Interval.partition (moves.map Prod.fst)) :
    ∀ k ∈ cls.2, ∃ target, (moves.map Prod.snd).toArray[k]? = some target := by
  intro k hk
  obtain ⟨-, hclass⟩ := Interval.isClass_of_mem_partition cls hcls
  rw [← hclass cls.1.lo ⟨Char.le_refl _, cls.1.lo_le_hi⟩] at hk
  obtain ⟨label, hlabel, -⟩ := Interval.mem_positions.1 hk
  rw [List.getElem?_map, Option.map_eq_some_iff] at hlabel
  obtain ⟨move, hmove, -⟩ := hlabel
  refine ⟨move.2, ?_⟩
  rw [List.getElem?_toArray, List.getElem?_map, hmove]
  rfl

section

variable {nfa : Nfa Interval} (hlimit : nfa.size < sizeLimit) (htargets : nfa.TargetsExist)
include hlimit htargets

theorem follows_nullClosure {frontier : List Nat} (h : ∀ id ∈ frontier, id < nfa.size) :
    Follows (nullClosure nfa frontier) (nfa.nullClosure frontier) :=
  .collect hlimit (Nfa.confined_nullTargets htargets) h

theorem follows_subsetEdges (c : Closure) : Follows (subsetEdges nfa c) (nfa.subsetEdges c) := by
  refine (Follows.toOption (nfa.moves c)).bind fun moves hmoves => ?_
  have hlt : ∀ l q, (l, q) ∈ moves → q < nfa.size := by
    obtain ⟨states, hstates, hmoves⟩ := bind_eq_ok_iff.1 hmoves
    cases hmoves
    intro l q hmove
    obtain ⟨s, hs, hmove⟩ := List.mem_flatMap.1 hmove
    obtain ⟨p, -, hp⟩ := forall₂_mem_right (mapM_eq_ok_iff.1 hstates) hs
    obtain ⟨t, ht, heq⟩ := List.mem_filterMap.1 hmove
    cases t with
    | null target => cases heq
    | symbol label target =>
      cases heq
      exact htargets p _ ⟨s, hp, ht⟩
  dsimp only
  rw [partition_eq, Follows.lift_some_bind]
  refine .mapM fun cls hcls => ?_
  rw [mapM_eq_some_filterMap (exists_target hcls), Follows.lift_some_bind]
  refine (follows_nullClosure hlimit htargets fun q hq => ?_).bind fun closure _ =>
    (Follows.toOption (nfa.completions closure)).bind fun completions _ => .pure _
  obtain ⟨k, -, l, hk⟩ := Nfa.mem_targetsAt.1 hq
  exact hlt l q (List.mem_of_getElem? hk)

/-- There are no more closures than sets of states, so all of them are expanded. -/
theorem follows_subsets {start : Nat} (hstart : start < nfa.size) :
    Follows (subsets nfa start) (nfa.subsets start) := by
  refine (follows_nullClosure hlimit htargets (by simpa using hstart)).bind fun root hroot => ?_
  refine follows_explore (follows_subsetEdges hlimit htargets) fun g hg => ?_
  obtain ⟨_, g', hg', hspec, -⟩ := Nfa.subsets_ok Interval.cuts hlimit htargets hstart
  obtain rfl := Except.ok.inj ((bind_eq_ok_iff.2 ⟨root, hroot, hg⟩).symm.trans hg')
  exact hspec.size_edges

theorem buildDfa_eq {start : Nat} (hstart : start < nfa.size) {dfa : Dfa Interval}
    (h : Dfa.build nfa start = .ok dfa) : buildDfa nfa start = some dfa := by
  obtain ⟨subsets, hsubsets, h⟩ := bind_eq_ok_iff.1 h
  obtain ⟨states, hstates, h⟩ := bind_eq_ok_iff.1 h
  cases h
  have hran := (follows_subsets hlimit htargets hstart).ran_eq hsubsets
  exact Option.bind_eq_some_iff.2 ⟨subsets, hran,
    Option.bind_eq_some_iff.2 ⟨states, mapM_toOption hstates, rfl⟩⟩

end

/-! ## Dispatch tables -/

/-- The free ones of the slots from `low` to `high` are given to a transition. -/
def fillSlots (position low high : Nat) (direct : Array (Option Nat)) :
    Option (Array (Option Nat)) :=
  if low ≤ high + 1 ∧ high < direct.size then
    some (DispatchTable.fill position direct low (high + 1 - low))
  else none

/-- The slots of a table with a transition after those it has. -/
def addDirect (table : DispatchTable) (label : Interval) (position : Nat) :
    Option (Array (Option Nat)) :=
  let low := label.lo.toNat
  let high := min label.hi.toNat (DispatchTable.directSize - 1)
  if low < DispatchTable.directSize then fillSlots position low high table.direct
  else some table.direct

/-- The intervals of a table with a transition after those it has. -/
def addWide (table : DispatchTable) (label : Interval) (position : Nat) :
    Option (List (Interval × Nat)) :=
  if DispatchTable.directSize ≤ label.hi.toNat then
    (DispatchTable.widePart label).map fun part => table.wide ++ [(part, position)]
  else some table.wide

/-- `DispatchTable.add`, checked. -/
def addLabel (table : DispatchTable) (label : Interval) (position : Nat) :
    Option DispatchTable := do
  let direct ← addDirect table label position
  let wide ← addWide table label position
  some ⟨direct, wide⟩

/-- `DispatchTable.ofState`, checked. -/
def tableOf (s : DfaState Interval) : Option DispatchTable :=
  (s.transitions.map DfaTransition.label).zipIdx.foldlM
    (fun table (label, position) => addLabel table label position) .empty

/-- `Dispatch.ofDfa`, checked. -/
def dispatchOf (dfa : Dfa Interval) : Option Dispatch :=
  (dfa.states.toList.mapM tableOf).map List.toArray

/-- `Lexer.ofRules`, checked. -/
def lexerOf (rules : List (Pattern × Bool)) : Option Lexer := do
  let nfa ← lexerNfa (rules.map Prod.fst)
  let dfa ← buildDfa nfa 0
  let tables ← dispatchOf dfa
  some ⟨dfa, tables, rules.map Prod.snd⟩

/-- `DispatchTable.lookup`, checked. -/
def lookup (table : DispatchTable) (c : Char) : Option (Option Nat) :=
  if c.toNat < DispatchTable.directSize then table.direct[c.toNat]?
  else some ((table.wide.find? fun entry => c ∈ entry.1).map Prod.snd)

/-- `Lexer.step`, checked. -/
def step (lexer : Lexer) (id : Nat) (c : Char) : Option (Option (DfaTransition Interval)) := do
  let table ← lexer.tables[id]?
  match ← lookup table c with
  | none => some none
  | some position =>
    let s ← (lexer.dfa.state id).toOption
    let t ← s.transitions[position]?
    some (some t)

section

open DispatchTable

variable {table : DispatchTable} (label : Interval) (position : Nat)

/-- A label begins before it ends, and there is a slot for each small character. -/
theorem addDirect_eq (h : table.direct.size = directSize) :
    addDirect table label position = some (table.add label position).direct := by
  have hle : label.lo.toNat ≤ label.hi.toNat := label.lo_le_hi
  unfold addDirect DispatchTable.add directSize at *
  dsimp only
  split
  · unfold fillSlots
    rw [if_pos (by omega)]
    congr 2
    omega
  · have hnone : min (label.hi.toNat + 1) 256 - label.lo.toNat = 0 := by omega
    rw [hnone]
    rfl

/-- A label that goes beyond the slots has a part without slots. -/
theorem addWide_eq : addWide table label position = some (table.add label position).wide := by
  unfold addWide DispatchTable.add
  split
  · rename_i hhi
    obtain ⟨part, hpart, -⟩ := (mem_widePart hhi label).2 ⟨label.lo_le_hi, Char.le_refl _⟩
    rw [hpart]
    rfl
  · rename_i hhi
    have hlo : label.lo ≤ firstWide := by
      have hle : label.lo.toNat ≤ label.hi.toNat := label.lo_le_hi
      show label.lo.toNat ≤ 256
      unfold directSize at hhi
      omega
    have hnone : widePart label = none := by
      unfold widePart Interval.ofChars?
      rw [if_pos hlo, dif_neg]
      exact hhi
    rw [hnone]
    simp

theorem addLabel_eq (h : table.direct.size = directSize) :
    addLabel table label position = some (table.add label position) ∧
      (table.add label position).direct.size = directSize := by
  constructor
  · exact Option.bind_eq_some_iff.2 ⟨_, addDirect_eq label position h,
      Option.bind_eq_some_iff.2 ⟨_, addWide_eq label position, rfl⟩⟩
  · unfold DispatchTable.add
    rw [size_fill]
    exact h

end

theorem tableOf_eq (s : DfaState Interval) : tableOf s = some (.ofState s) := by
  have hstep : ∀ (table : DispatchTable) (entry : Interval × Nat),
      table.direct.size = DispatchTable.directSize →
      addLabel table entry.1 entry.2 = some (table.add entry.1 entry.2) ∧
        (table.add entry.1 entry.2).direct.size = DispatchTable.directSize :=
    fun _ entry h => addLabel_eq entry.1 entry.2 h
  exact foldlM_eq_some hstep _ Array.size_replicate

theorem dispatchOf_eq (dfa : Dfa Interval) : dispatchOf dfa = some (.ofDfa dfa) := by
  have htables : dfa.states.toList.mapM tableOf =
      some (dfa.states.toList.map DispatchTable.ofState) := by
    rw [funext tableOf_eq]
    exact List.mapM_pure
  unfold dispatchOf Dispatch.ofDfa
  rw [htables, Option.map_some, ← Array.toList_map, Array.toArray_toList]

/-- The lexer is made without breaking off. -/
theorem lexerOf_eq {rules : List (Pattern × Bool)} {lexer : Lexer}
    (h : Lexer.ofRules rules = .ok lexer) : lexerOf rules = some lexer := by
  have hlimit := Lexer.lt_sizeLimit_of_ofRules h
  have hbranches := Lexer.branches_nfa (rules.map Prod.fst)
  obtain ⟨dfa, hdfa, heq⟩ := bind_eq_ok_iff.1 h
  cases heq
  exact Option.bind_eq_some_iff.2 ⟨_, lexerNfa_eq _, Option.bind_eq_some_iff.2
    ⟨dfa, buildDfa_eq hlimit hbranches.targets hbranches.size_pos hdfa,
      Option.bind_eq_some_iff.2 ⟨_, dispatchOf_eq dfa, rfl⟩⟩⟩

theorem lookup_ofState (s : DfaState Interval) (c : Char) :
    lookup (.ofState s) c = some ((DispatchTable.ofState s).lookup c) := by
  have hfinds := DispatchTable.finds_ofLabels (s.transitions.map DfaTransition.label)
  unfold lookup DispatchTable.lookup
  split
  · rename_i hc
    have hdirect := hfinds.direct c hc
    unfold DispatchTable.ofState
    rw [Array.getD_eq_getD_getElem?, hdirect]
    rfl
  · rfl

/-- A step finds the slot of its character, and its transition. -/
theorem step_eq {lexer : Lexer} (h : lexer.tables = .ofDfa lexer.dfa) {id : Nat} {c : Char}
    {found : Option (DfaTransition Interval)} (hstep : lexer.step id c = .ok found) :
    step lexer id c = some found := by
  have htable : lexer.tables[id]? = (lexer.dfa.states[id]?).map DispatchTable.ofState := by
    rw [h]
    exact Array.getElem?_map
  unfold Lexer.step Dispatch.step at hstep
  rw [htable] at hstep
  cases hs : lexer.dfa.states[id]? with
  | none =>
    rw [hs] at hstep
    cases hstep
  | some s =>
    rw [hs] at htable hstep
    refine Option.bind_eq_some_iff.2 ⟨_, htable, Option.bind_eq_some_iff.2
      ⟨_, lookup_ofState s c, ?_⟩⟩
    dsimp only [Option.map_some] at hstep
    cases hlookup : (DispatchTable.ofState s).lookup c with
    | none =>
      rw [hlookup] at hstep
      cases hstep
      rfl
    | some position =>
      rw [hlookup] at hstep
      have hstate := Dfa.state_eq_ok_iff.2 hs
      dsimp only at hstep ⊢
      rw [hstate] at hstep ⊢
      cases hstep
      rw [DispatchTable.lookup_ofState] at hlookup
      obtain ⟨hlt, -⟩ := List.findIdx?_eq_some_iff_findIdx_eq.1 hlookup
      have hfound := List.getElem?_eq_getElem hlt
      refine Option.bind_eq_some_iff.2 ⟨s, rfl, Option.bind_eq_some_iff.2 ⟨_, hfound, ?_⟩⟩
      rw [hfound]

end LexChart.Checked
