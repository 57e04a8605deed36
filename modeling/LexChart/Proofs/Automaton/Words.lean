import LexChart.Proofs.Checked.Lexer
set_option autoImplicit false

/-!
# Dispatch by words

A dispatch table may keep positions in words of 32 bits.  It is made and looked up in the same
steps, which may break off where a slice of slots or an interval does not exist, and a position that
is too large for a word loses its upper bits.

Whether a slot is taken does not depend on the position in it, so the table of words is at every
step the image of the table of positions.  It answers with the first label that holds a character,
modulo the number of words, and this is the first label itself where a state has fewer transitions.
-/

namespace LexChart

/-- The transitions of one state by their positions as words. -/
structure WordTable where
  direct : Array (Option UInt32)
  wide : List (Interval × UInt32)

namespace WordTable

/-- The positions of a table cut down to words. -/
def ofTable (table : DispatchTable) : WordTable where
  direct := table.direct.map (Option.map UInt32.ofNat)
  wide := table.wide.map fun (part, position) => (part, UInt32.ofNat position)

/-- `Checked.fillSlots` with a word. -/
def fillSlots (word : UInt32) (low high : Nat) (direct : Array (Option UInt32)) :
    Option (Array (Option UInt32)) :=
  if low ≤ high + 1 ∧ high < direct.size then
    some <| direct.mapIdx fun slot owner =>
      if low ≤ slot ∧ slot ≤ high then some (owner.getD word) else owner
  else none

/-- `Checked.addDirect` with a word. -/
def addDirect (table : WordTable) (label : Interval) (word : UInt32) :
    Option (Array (Option UInt32)) :=
  let low := label.lo.toNat
  let high := min label.hi.toNat (DispatchTable.directSize - 1)
  if low < DispatchTable.directSize then fillSlots word low high table.direct
  else some table.direct

/-- `Checked.addWide` with a word. -/
def addWide (table : WordTable) (label : Interval) (word : UInt32) :
    Option (List (Interval × UInt32)) :=
  if DispatchTable.directSize ≤ label.hi.toNat then
    (DispatchTable.widePart label).map fun part => table.wide ++ [(part, word)]
  else some table.wide

/-- The table with a transition after those it has. -/
def add (table : WordTable) (label : Interval) (position : Nat) : Option WordTable := do
  let direct ← addDirect table label (UInt32.ofNat position)
  let wide ← addWide table label (UInt32.ofNat position)
  some ⟨direct, wide⟩

/-- The table of a state. -/
def ofState (s : DfaState Interval) : Option WordTable :=
  (s.transitions.map DfaTransition.label).zipIdx.foldlM
    (fun table (label, position) => add table label position) (ofTable .empty)

/-- The tables of all states. -/
def ofDfa (dfa : Dfa Interval) : Option (Array WordTable) :=
  (dfa.states.toList.mapM ofState).map List.toArray

/-- The position of the transition that reads a character. -/
def lookup (table : WordTable) (c : Char) : Option (Option Nat) :=
  if c.toNat < DispatchTable.directSize then
    table.direct[c.toNat]?.map (Option.map UInt32.toNat)
  else some ((table.wide.find? fun entry => c ∈ entry.1).map fun entry => entry.2.toNat)

/-- The transition that leaves a state with a character. -/
def step (tables : Array WordTable) (dfa : Dfa Interval) (id : Nat) (c : Char) :
    Option (Option (DfaTransition Interval)) := do
  let table ← tables[id]?
  match ← lookup table c with
  | none => some none
  | some position =>
    let s ← (dfa.state id).toOption
    let t ← s.transitions[position]?
    some (some t)

/-! ## Words are images of positions -/

section

variable (table : DispatchTable) (label : Interval) (position : Nat)

theorem fillSlots_map (low high : Nat) (direct : Array (Option Nat)) :
    fillSlots (UInt32.ofNat position) low high (direct.map (Option.map UInt32.ofNat)) =
      (Checked.fillSlots position low high direct).map (Array.map (Option.map UInt32.ofNat)) := by
  unfold fillSlots Checked.fillSlots
  rw [Array.size_map]
  split
  · rename_i hslots
    rw [Option.map_some, Option.some.injEq]
    apply Array.ext_getElem?
    intro k
    have hrange : low ≤ k ∧ k < low + (high + 1 - low) ↔ low ≤ k ∧ k ≤ high := by omega
    rw [Array.getElem?_mapIdx, Array.getElem?_map, Array.getElem?_map, DispatchTable.getElem?_fill]
    simp only [hrange]
    cases direct[k]? with
    | none => simp
    | some owner =>
      by_cases hk : low ≤ k ∧ k ≤ high
      · cases owner <;> simp [hk]
      · simp [hk]
  · rfl

theorem addDirect_ofTable :
    addDirect (ofTable table) label (UInt32.ofNat position) =
      (Checked.addDirect table label position).map (Array.map (Option.map UInt32.ofNat)) := by
  unfold addDirect Checked.addDirect
  dsimp only
  split
  · exact fillSlots_map position _ _ table.direct
  · rfl

theorem addWide_ofTable :
    addWide (ofTable table) label (UInt32.ofNat position) =
      (Checked.addWide table label position).map
        (List.map fun (part, position) => (part, UInt32.ofNat position)) := by
  unfold addWide Checked.addWide
  split
  · cases DispatchTable.widePart label with
    | none => rfl
    | some part => simp [ofTable]
  · rfl

theorem add_ofTable :
    add (ofTable table) label position =
      (Checked.addLabel table label position).map ofTable := by
  unfold add Checked.addLabel
  rw [addDirect_ofTable, addWide_ofTable]
  cases Checked.addDirect table label position with
  | none => rfl
  | some direct =>
    cases Checked.addWide table label position <;> rfl

theorem lookup_ofTable (c : Char) :
    lookup (ofTable table) c =
      (Checked.lookup table c).map (Option.map (· % UInt32.size)) := by
  have hword : (UInt32.toNat ∘ UInt32.ofNat) = (· % UInt32.size) :=
    funext fun _ => UInt32.toNat_ofNat'
  unfold lookup Checked.lookup ofTable
  split
  · rw [Array.getElem?_map, Option.map_map, Option.map_comp_map, hword]
  · rw [List.find?_map, Option.map_map, Option.map_some, Option.map_map]
    rfl

end

theorem foldlM_add_ofTable (entries : List (Interval × Nat)) (table : DispatchTable) :
    entries.foldlM (fun table (label, position) => add table label position) (ofTable table) =
      (entries.foldlM (fun table (label, position) => Checked.addLabel table label position)
        table).map ofTable := by
  induction entries generalizing table with
  | nil => rfl
  | cons entry entries ih =>
    obtain ⟨label, position⟩ := entry
    rw [List.foldlM_cons, List.foldlM_cons]
    dsimp only
    rw [add_ofTable]
    cases Checked.addLabel table label position with
    | none => rfl
    | some next => exact ih next

/-- The table of words is made without breaking off. -/
theorem ofState_eq (s : DfaState Interval) : ofState s = some (ofTable (.ofState s)) := by
  have htable := Checked.tableOf_eq s
  unfold Checked.tableOf at htable
  rw [ofState, foldlM_add_ofTable, htable]
  rfl

theorem ofDfa_eq (dfa : Dfa Interval) :
    ofDfa dfa = some (dfa.states.map fun s => ofTable (.ofState s)) := by
  have htables : dfa.states.toList.mapM ofState =
      some (dfa.states.toList.map fun s => ofTable (.ofState s)) := by
    rw [funext ofState_eq]
    exact List.mapM_pure
  rw [ofDfa, htables, Option.map_some, ← Array.toList_map, Array.toArray_toList]

/-- A word is the position of the first label that holds the character, without its upper bits. -/
theorem lookup_ofState (s : DfaState Interval) (c : Char) :
    lookup (ofTable (.ofState s)) c =
      some ((s.transitions.findIdx? fun t => c ∈ t.label).map (· % UInt32.size)) := by
  rw [lookup_ofTable, Checked.lookup_ofState, DispatchTable.lookup_ofState]
  rfl

/-- A position fits into a word if the state has no more transitions than there are words. -/
theorem findIdx?_mod {s : DfaState Interval} (h : s.transitions.length < UInt32.size) (c : Char) :
    (s.transitions.findIdx? fun t => c ∈ t.label).map (· % UInt32.size) =
      s.transitions.findIdx? fun t => c ∈ t.label := by
  cases hfound : s.transitions.findIdx? fun t => c ∈ t.label with
  | none => rfl
  | some position =>
    obtain ⟨hlt, -⟩ := List.findIdx?_eq_some_iff_findIdx_eq.1 hfound
    rw [Option.map_some, Nat.mod_eq_of_lt (Nat.lt_trans hlt h)]

/-- A step finds the first transition that reads the character. -/
theorem step_ofDfa {dfa : Dfa Interval} {id : Nat} {s : DfaState Interval}
    (hstate : dfa.state id = .ok s) (h : s.transitions.length < UInt32.size) (c : Char) :
    step (dfa.states.map fun s => ofTable (.ofState s)) dfa id c =
      some (s.transitions.find? fun t => c ∈ t.label) := by
  have htable : (dfa.states.map fun s => ofTable (.ofState s))[id]? =
      some (ofTable (.ofState s)) := by
    rw [Array.getElem?_map, Dfa.state_eq_ok_iff.1 hstate]
    rfl
  have hlookup := lookup_ofState s c
  rw [findIdx?_mod h] at hlookup
  refine Option.bind_eq_some_iff.2 ⟨_, htable, Option.bind_eq_some_iff.2 ⟨_, hlookup, ?_⟩⟩
  rw [List.find?_eq_bind_findIdx?_getElem?]
  cases hfound : s.transitions.findIdx? fun t => c ∈ t.label with
  | none => rfl
  | some position =>
    obtain ⟨hlt, -⟩ := List.findIdx?_eq_some_iff_findIdx_eq.1 hfound
    have htransition := List.getElem?_eq_getElem hlt
    refine Option.bind_eq_some_iff.2 ⟨s, Checked.toOption_of_ok hstate,
      Option.bind_eq_some_iff.2 ⟨_, htransition, ?_⟩⟩
    rw [Option.bind_some, htransition]

/-- Where a state has fewer transitions than there are words, its table answers with the position of
the first one whose label holds the character, whether it keeps positions or words, and a step from
the state takes this transition.  Tables of words are made for every automaton, and neither a lookup
nor a step breaks off. -/
theorem dispatch_exact (s : DfaState Interval) (hcount : s.transitions.length < UInt32.size)
    (c : Char) :
    (DispatchTable.ofState s).lookup c = (s.transitions.findIdx? fun t => c ∈ t.label) ∧
    (∃ table, ofState s = some table ∧
      table.lookup c = some (s.transitions.findIdx? fun t => c ∈ t.label)) ∧
    ∀ (dfa : Dfa Interval) (id : Nat), dfa.state id = .ok s →
      Dispatch.step (.ofDfa dfa) dfa id c = .ok (s.transitions.find? fun t => c ∈ t.label) ∧
      ∃ tables, ofDfa dfa = some tables ∧
        step tables dfa id c = some (s.transitions.find? fun t => c ∈ t.label) := by
  refine ⟨?_, ⟨_, ofState_eq s, ?_⟩, fun dfa id hstate => ⟨?_, _, ofDfa_eq dfa, ?_⟩⟩
  · exact DispatchTable.lookup_ofState s c
  · rw [lookup_ofState, findIdx?_mod hcount]
  · exact Dispatch.step_ofDfa hstate c
  · exact step_ofDfa hstate hcount c

/-- Two labels that hold characters with slots and without, and share some of either kind. -/
def acrossSlots : DfaState Interval where
  closure := ⟨[], .nil⟩
  accepts := []
  transitions := [⟨⟨Char.ofNat 0xFE, Char.ofNat 0x102, by decide⟩, 1, []⟩,
    ⟨⟨'a', Char.ofNat 0x103, by decide⟩, 2, []⟩]

/-- What both labels hold goes to the first one, behind the slots too. -/
theorem dispatch_exact_acrossSlots :
    acrossSlots.transitions.length < UInt32.size ∧
    (DispatchTable.ofState acrossSlots).lookup (Char.ofNat 0x101) = some 0 ∧
    ∃ tables, ofDfa ⟨#[acrossSlots]⟩ = some tables ∧
      step tables ⟨#[acrossSlots]⟩ 0 (Char.ofNat 0x103) =
        some (some ⟨⟨'a', Char.ofNat 0x103, by decide⟩, 2, []⟩) := by
  have hcount : acrossSlots.transitions.length < UInt32.size := by decide
  obtain ⟨hshared, -, -⟩ := dispatch_exact acrossSlots hcount (Char.ofNat 0x101)
  obtain ⟨-, -, hsteps⟩ := dispatch_exact acrossSlots hcount (Char.ofNat 0x103)
  obtain ⟨-, tables, htables, hstep⟩ := hsteps ⟨#[acrossSlots]⟩ 0 rfl
  refine ⟨hcount, ?_, tables, htables, ?_⟩
  · rw [hshared]
    decide
  · rw [hstep]
    decide

end WordTable

end LexChart
