import LexChart.Proofs.Checked.Fragments
import LexChart.Proofs.Checked.Graphs
import LexChart.Proofs.Checked.Steps
import LexChart.Proofs.Recognizer.Steps
set_option autoImplicit false

/-!
# Putting a network together without breaking off

The calls of a network are kept in a table with a place for each state, which grows as references
are resolved.  A checked step breaks off where a state, a transition, a place or a fragment does not
exist, and where rules are left once the limit on their number is reached.

A reference is listed with the position of a transition and resolved later, while other references
are; it still stands open at its turn, so the transition is still there.
-/

namespace LexChart.Checked

open RuleNetwork

/-- A network on its way, its calls by the states that they leave. -/
structure Workspace where
  nfa : Nfa NetworkLabel := .empty
  fragments : List (Nat × Fragment) := []
  calls : Array (List Call) := #[]

/-- The table with `size` places, which hold what they held before, if there were any. -/
def resized (calls : Array (List Call)) (size : Nat) : Array (List Call) :=
  ((List.range size).map fun id => calls.getD id []).toArray

/-- The table with one more call, in a place that is made for it. -/
def recorded (calls : Array (List Call)) (call : Call) : Option (Array (List Call)) :=
  let calls := if calls.size ≤ call.source then resized calls (call.source + 1) else calls
  if call.source < calls.size then some (calls.modify call.source fun found => found ++ [call])
  else none

namespace Workspace

/-- `Draft.addFragment`, checked. -/
def addFragment (g : Grammar) (w : Workspace) (rule : Nat) : Option (Workspace × Fragment) := do
  let r ← (g.rule rule).toOption
  let (nfa, fragment) ← build w.nfa (fun symbol => some [NetworkLabel.ofSymbol symbol]) (bodyOf r)
  let nfa ← (nfa.setAccept fragment.exit rule).toOption
  some ({ w with nfa := nfa, fragments := w.fragments ++ [(rule, fragment)] }, fragment)

/-- The open reference at a position of a state, where the transition is looked up again. -/
def referenceAt (nfa : Nfa NetworkLabel) (source position target : Nat) :
    Option (Option OpenReference) := do
  let s ← (nfa.state source).toOption
  let t ← s.transitions[position]?
  match t.label? with
  | some (.resolve rule) => some (some ⟨⟨source, rule, target⟩, position⟩)
  | _ => some none

/-- `Draft.openReferences`, checked. -/
def openReferences (nfa : Nfa NetworkLabel) (fragment : Fragment) :
    Option (List OpenReference) := do
  let inner := fun id => StateT.lift (Draft.innerTransitions nfa id).toOption
  let walked ← ran (explore inner (fun t => t.2.target) nfa.size fragment.entry)
  let found ← (walked.states.toList.zip walked.edges.toList).mapM fun (source, edges) =>
    edges.filterMapM fun (t, _) => referenceAt nfa source t.1 t.2.target
  some found.flatten

/-- `Draft.join`, checked. -/
def join (w : Workspace) (r : OpenReference) (callee : Fragment) : Option Workspace := do
  let s ← (w.nfa.state r.call.source).toOption
  if r.position < s.transitions.length then
    let nfa := w.nfa.replaced r.call.source r.position (.symbol (.predict r.call.rule) callee.entry)
    let complete := Transition.symbol (.complete r.call.rule) r.call.target
    let nfa ← (nfa.addTransition callee.exit complete).toOption
    let calls ← recorded w.calls r.call
    some ⟨nfa, w.fragments, calls⟩
  else none

/-- `Draft.resolve`, checked. -/
def resolve (g : Grammar) (state : Workspace × List Nat) (r : OpenReference) :
    Option (Workspace × List Nat) :=
  let (w, pending) := state
  match w.fragments.lookup r.call.rule with
  | some callee => do
    let w ← w.join r callee
    some (w, pending)
  | none => do
    let (w, callee) ← w.addFragment g r.call.rule
    let w ← w.join r callee
    some (w, r.call.rule :: pending)

/-- `Draft.resolveAll`, which has to end before the limit. -/
def resolveAll (g : Grammar) : Nat → Workspace × List Nat → Option Workspace
  | _, (w, []) => some w
  | 0, (_, _ :: _) => none
  | limit + 1, (w, rule :: pending) => do
    let fragment ← w.fragments.lookup rule
    let found ← openReferences w.nfa fragment
    let state ← found.foldlM (resolve g) (w, pending)
    resolveAll g limit state

end Workspace

/-- `RuleNetwork.ofGrammar`, checked. -/
def network (g : Grammar) : Option RuleNetwork := do
  let (w, _) ← Workspace.addFragment g {} g.start
  let w ← Workspace.resolveAll g (g.rules.length + 1) (w, [g.start])
  some ⟨w.nfa, w.fragments, resized w.calls w.nfa.size, g.start⟩

namespace Workspace

/-! ## The table of calls -/

/-- The table has the calls of a list, each in the place of its source. -/
def Lists (table : Array (List Call)) (calls : List Call) : Prop :=
  ∀ id, table.getD id [] = calls.filter fun call => call.source = id

section

variable {table : Array (List Call)} {calls : List Call}

theorem size_resized (table : Array (List Call)) (size : Nat) :
    (resized table size).size = size := by
  simp [resized]

/-- Places that are made hold nothing. -/
theorem Lists.resized (h : Lists table calls) {size : Nat} (hsize : table.size ≤ size) :
    Lists (resized table size) calls := by
  intro id
  rw [← h id]
  unfold Checked.resized
  by_cases hid : id < size
  · simp [Array.getD_eq_getD_getElem?, hid]
  · simp [Array.getD_eq_getD_getElem?, hid, Array.getElem?_eq_none (show table.size ≤ id by omega)]

theorem Lists.modify (h : Lists table calls) {call : Call} (hlt : call.source < table.size) :
    Lists (table.modify call.source fun found => found ++ [call]) (calls ++ [call]) := by
  intro id
  rw [Array.getD_eq_getD_getElem?, Array.getElem?_modify, List.filter_append]
  by_cases hid : call.source = id
  · subst hid
    rw [if_pos rfl, ← h, Array.getD_eq_getD_getElem?, Array.getElem?_eq_getElem hlt]
    simp
  · rw [if_neg hid, ← Array.getD_eq_getD_getElem?, h id]
    simp [hid]

/-- A call has its place. -/
theorem Lists.recorded (h : Lists table calls) (call : Call) :
    ∃ table', recorded table call = some table' ∧ Lists table' (calls ++ [call]) := by
  unfold Checked.recorded
  dsimp only
  split
  · rename_i hsize
    have hlt : call.source < (Checked.resized table (call.source + 1)).size := by
      rw [size_resized]
      exact Nat.lt_succ_self _
    exact ⟨_, if_pos hlt, (h.resized (by omega)).modify hlt⟩
  · rename_i hsize
    have hlt := Nat.not_le.1 hsize
    exact ⟨_, if_pos hlt, h.modify hlt⟩

end

/-! ## Small steps -/

/-- A workspace and a draft that hold the same. -/
structure Holds (w : Workspace) (d : Draft) : Prop where
  nfa_eq : w.nfa = d.nfa
  fragments_eq : w.fragments = d.fragments
  calls : Lists w.calls d.calls

variable {w : Workspace} {d d' : Draft} {g : Grammar} {ref : OpenReference}

theorem holds_empty : Holds {} {} := by
  refine ⟨rfl, rfl, fun id => ?_⟩
  rfl

theorem Holds.addFragment (h : w.Holds d) {rule : Nat} {r : Rule} (hr : g.rules[rule]? = some r) :
    ∃ w', w.addFragment g rule = some (w', d.fragmentOf r) ∧ w'.Holds (d.added rule r) := by
  obtain ⟨nfa, fragments, calls⟩ := w
  obtain ⟨rfl, rfl, hcalls⟩ := h
  have hrule : g.rule rule = .ok r := by
    unfold Grammar.rule
    rw [hr]
  obtain ⟨hbuild, -, -, hexit⟩ := build_eq
    (fun s => (rfl : some [NetworkLabel.ofSymbol s] = some _)) d.nfa (bodyOf r)
  have haccept : ((d.nfa.build (fun s => [NetworkLabel.ofSymbol s]) (bodyOf r)).1.setAccept
      (d.fragmentOf r).exit rule).toOption = some (d.added rule r).nfa := by
    unfold Nfa.setAccept
    rw [Nfa.changeState_of_lt (show (d.fragmentOf r).exit < _ from hexit)]
    rfl
  exact ⟨⟨(d.added rule r).nfa, (d.added rule r).fragments, calls⟩,
    Option.bind_eq_some_iff.2 ⟨r, toOption_of_ok hrule, Option.bind_eq_some_iff.2 ⟨_, hbuild,
      Option.bind_eq_some_iff.2 ⟨_, haccept, rfl⟩⟩⟩, rfl, rfl, hcalls⟩

/-- A reference that stands open has a transition, and the fragment of its rule has an exit. -/
theorem Holds.join (h : w.Holds d) (hopen : d.Open ref) {callee : Fragment}
    (hexit : callee.exit < d.nfa.size) :
    ∃ w', w.join ref callee = some w' ∧ w'.Holds (d.join ref callee) := by
  obtain ⟨nfa, fragments, calls⟩ := w
  obtain ⟨rfl, rfl, hcalls⟩ := h
  obtain ⟨s, hs, ht⟩ := Option.bind_eq_some_iff.1 hopen
  have hposition := (List.getElem?_eq_some_iff.1 ht).1
  have hnfa : ((d.nfa.replaced ref.call.source ref.position
      (.symbol (.predict ref.call.rule) callee.entry)).addTransition callee.exit
      (.symbol (.complete ref.call.rule) ref.call.target)).toOption =
      some (d.join ref callee).nfa := by
    unfold Nfa.addTransition
    rw [Nfa.changeState_of_lt (by rwa [Nfa.replaced, Nfa.size_modifyState])]
    rfl
  obtain ⟨table, htable, hlists⟩ := hcalls.recorded ref.call
  refine ⟨⟨(d.join ref callee).nfa, d.fragments, table⟩, ?_, rfl, rfl, hlists⟩
  refine Option.bind_eq_some_iff.2 ⟨s, toOption_of_ok (Nfa.state_eq_ok_iff.2 hs), ?_⟩
  rw [if_pos hposition]
  exact Option.bind_eq_some_iff.2 ⟨_, hnfa, Option.bind_eq_some_iff.2 ⟨table, htable, rfl⟩⟩

/-! ## The references of a rule -/

/-- A transition that a walk has listed is still there when it is looked up. -/
theorem referenceAt_eq {nfa : Nfa NetworkLabel} {source position : Nat}
    {t : Transition NetworkLabel} (h : nfa.transitionAt source position = some t) :
    referenceAt nfa source position t.target =
      some (Draft.openReference? source (position, t)) := by
  obtain ⟨s, hs, ht⟩ := Option.bind_eq_some_iff.1 h
  refine Option.bind_eq_some_iff.2 ⟨s, toOption_of_ok (Nfa.state_eq_ok_iff.2 hs),
    Option.bind_eq_some_iff.2 ⟨t, ht, ?_⟩⟩
  cases t with
  | null target => rfl
  | symbol label target => cases label <;> rfl

/-- All of a fragment is explored, and the references in it are found again. -/
theorem openReferences_eq {owner : Nat → Nat} (valid : d.Valid g owner) {rule : Nat} {f : Fragment}
    (hf : (rule, f) ∈ d.fragments) (hcalls : ∀ call ∈ d.calls, owner call.source ≠ rule)
    {found : List OpenReference} (hfound : Draft.openReferences d.nfa f = .ok found) :
    openReferences d.nfa f = some found := by
  obtain ⟨walked, hwalked, hspec, -⟩ := Draft.explore_innerTransitions_ok valid hf hcalls
  have hexplore : Follows
      (explore (fun id => StateT.lift (Draft.innerTransitions d.nfa id).toOption)
        (fun t => t.2.target) d.nfa.size f.entry) _ := follows_explore
    (fun id => .toOption (Draft.innerTransitions d.nfa id)) fun walked' hwalked' => by
      obtain rfl := Except.ok.inj (hwalked.symm.trans hwalked')
      exact hspec.size_edges
  have hedges : ∀ pair ∈ walked.states.toList.zip walked.edges.toList,
      (pair.2.filterMapM fun (t, _) => referenceAt d.nfa pair.1 t.1 t.2.target) =
        some (pair.2.filterMap fun (t, _) => Draft.openReference? pair.1 t) := by
    rintro ⟨source, edges⟩ hpair
    refine filterMapM_eq_some (List.forall₂_same.2 ?_)
    rintro ⟨⟨position, t⟩, target⟩ ht
    obtain ⟨id, hid⟩ := List.mem_iff_getElem?.1 hpair
    rw [List.getElem?_zip_eq_some, Array.getElem?_toList, Array.getElem?_toList] at hid
    have hinner := hspec.found id source edges hid.1 hid.2
    exact referenceAt_eq (Draft.transitionAt_of_innerTransitions hinner
      (List.mem_map.2 ⟨_, ht, rfl⟩))
  obtain ⟨walked', hwalked', heq⟩ := bind_eq_ok_iff.1 hfound
  obtain rfl := Except.ok.inj (hwalked.symm.trans hwalked')
  cases heq
  refine Option.bind_eq_some_iff.2 ⟨walked, hexplore.ran_eq hwalked,
    Option.bind_eq_some_iff.2 ⟨_, mapM_eq_some hedges, ?_⟩⟩
  rw [List.flatMap_def]

/-! ## The whole network -/

/-- All fragments that a draft has end in states. -/
theorem exit_lt_of_grown (h : Draft.Grown g d) : ∀ x ∈ d.fragments, x.2.exit < d.nfa.size := by
  have hadded : ∀ (d : Draft) (rule : Nat) (r : Rule), (∀ x ∈ d.fragments, x.2.exit < d.nfa.size) →
      ∀ x ∈ (d.added rule r).fragments, x.2.exit < (d.added rule r).nfa.size := by
    intro d rule r h x hx
    rcases Draft.mem_fragments_added.1 hx with hx | ⟨-, heq⟩
    · exact Nat.lt_of_lt_of_le (h x hx) (Draft.extends_added d rule r).size_le
    · rw [heq]
      exact (Draft.inside_fragmentOf d rule r).2.2.2
  induction h with
  | start _ => exact hadded _ _ _ fun x hx => nomatch hx
  | added _ _ _ _ ih => exact hadded _ _ _ ih
  | joined _ _ _ ih =>
    rw [Draft.size_join]
    exact ih

theorem Holds.resolve (h : w.Holds d) (grown : Draft.Grown g d) (hopen : d.Open ref)
    {pending pending' : List Nat}
    (hresolve : Draft.resolve g (d, pending) ref = .ok (d', pending')) :
    ∃ w', Workspace.resolve g (w, pending) ref = some (w', pending') ∧ w'.Holds d' := by
  unfold Draft.resolve at hresolve
  unfold Workspace.resolve
  dsimp only at hresolve ⊢
  rw [h.fragments_eq]
  cases hlookup : d.fragments.lookup ref.call.rule with
  | some callee =>
    rw [hlookup] at hresolve
    cases hresolve
    have hexit := exit_lt_of_grown grown _ (mem_of_lookup_eq_some hlookup)
    obtain ⟨w', hw', hholds⟩ := h.join hopen hexit
    exact ⟨w', Option.bind_eq_some_iff.2 ⟨w', hw', rfl⟩, hholds⟩
  | none =>
    rw [hlookup] at hresolve
    obtain ⟨⟨d₁, callee⟩, hadd, heq⟩ := bind_eq_ok_iff.1 hresolve
    cases heq
    obtain ⟨r, hr⟩ := Draft.exists_rule_of_addFragment hadd
    rw [Draft.addFragment_eq hr] at hadd
    cases hadd
    obtain ⟨w₁, hw₁, hholds₁⟩ := h.addFragment hr
    have hexit := (Draft.inside_fragmentOf d ref.call.rule r).2.2.2
    obtain ⟨w', hw', hholds⟩ := hholds₁.join (hopen.added ref.call.rule r) hexit
    exact ⟨w', Option.bind_eq_some_iff.2 ⟨_, hw₁, Option.bind_eq_some_iff.2 ⟨w', hw', rfl⟩⟩, hholds⟩

/-- References that stand open stay so until it is their turn. -/
theorem Holds.foldlM {found : List OpenReference} {pending pending' : List Nat} (h : w.Holds d)
    (grown : Draft.Grown g d) (hnodup : found.Nodup) (hopen : ∀ ref ∈ found, d.Open ref)
    (hfold : found.foldlM (Draft.resolve g) (d, pending) = .ok (d', pending')) :
    ∃ w', found.foldlM (Workspace.resolve g) (w, pending) = some (w', pending') ∧ w'.Holds d' := by
  induction found generalizing w d pending with
  | nil =>
    cases hfold
    exact ⟨w, rfl, h⟩
  | cons ref found ih =>
    rw [List.foldlM_cons] at hfold
    obtain ⟨⟨d₁, pending₁⟩, hresolve, hrest⟩ := bind_eq_ok_iff.1 hfold
    obtain ⟨hne, hnodup⟩ := List.nodup_cons.1 hnodup
    obtain ⟨hfirst, hopen⟩ := List.forall_mem_cons.1 hopen
    obtain ⟨w₁, hw₁, hholds₁⟩ := h.resolve grown hfirst hresolve
    obtain ⟨hgrown, hstay⟩ := grown.resolve hfirst hresolve
    obtain ⟨w', hw', hholds⟩ := ih hholds₁ hgrown hnodup
      (fun other hother => hstay other (hopen other hother) fun heq => hne (heq ▸ hother)) hrest
    refine ⟨w', ?_, hholds⟩
    rw [List.foldlM_cons, hw₁]
    exact hw'

/-- Every rule is pending once at most, so none is left when the limit is reached. -/
theorem Holds.resolveAll (wellFormed : g.WellFormed) (limit : Nat) {owner : Nat → Nat}
    {done pending : List Nat} (h : w.Holds d) (progress : Draft.Progress g d owner done pending)
    (grown : Draft.Grown g d) (hlimit : g.rules.length < done.length + limit)
    (hall : Draft.resolveAll g limit (d, pending) = .ok d') :
    ∃ w', Workspace.resolveAll g limit (w, pending) = some w' ∧ w'.Holds d' := by
  have hle := progress.length_le
  induction limit generalizing w d owner done pending with
  | zero => omega
  | succ limit ih =>
    cases pending with
    | nil =>
      cases hall
      exact ⟨w, rfl, h⟩
    | cons rule pending =>
      obtain ⟨f, found, d₁, owner₁, pending₁, hlookup, hfound, hfold, h₁, -⟩ :=
        progress.next wellFormed
      have hrest : Draft.resolveAll g limit (d₁, pending₁) = .ok d' := by
        rw [Draft.resolveAll, hlookup] at hall
        obtain ⟨found', hfound', hall⟩ := bind_eq_ok_iff.1 hall
        obtain rfl := Except.ok.inj (hfound.symm.trans hfound')
        obtain ⟨state, hstate, hall⟩ := bind_eq_ok_iff.1 hall
        obtain rfl := Except.ok.inj (hfold.symm.trans hstate)
        exact hall
      have hreferences := openReferences_eq progress.valid (mem_of_lookup_eq_some hlookup)
        progress.no_calls hfound
      obtain ⟨hnodup, hopen⟩ := Draft.open_of_openReferences hfound
      obtain ⟨w₁, hw₁, hholds₁⟩ := h.foldlM grown hnodup hopen hfold
      obtain ⟨w', hw', hholds⟩ := ih hholds₁ h₁ (grown.foldlM hnodup hopen hfold)
        (by rw [List.length_cons]; omega) hrest h₁.length_le
      refine ⟨w', ?_, hholds⟩
      rw [Workspace.resolveAll, h.fragments_eq, h.nfa_eq]
      exact Option.bind_eq_some_iff.2 ⟨f, hlookup, Option.bind_eq_some_iff.2 ⟨found, hreferences,
        Option.bind_eq_some_iff.2 ⟨_, hw₁, hw'⟩⟩⟩

end Workspace

/-- The network of a well-formed grammar is put together without breaking off. -/
theorem network_eq {g : Grammar} (wellFormed : g.WellFormed) {net : RuleNetwork}
    (h : RuleNetwork.ofGrammar g = .ok net) : network g = some net := by
  obtain ⟨r, hstart⟩ : ∃ r, g.rules[g.start]? = some r :=
    ⟨_, List.getElem?_eq_getElem wellFormed.start_lt⟩
  obtain ⟨owner, progress⟩ := Draft.progress_start wellFormed hstart
  obtain ⟨d, -, -, hall, -⟩ :=
    Draft.resolveAll_ok wellFormed (g.rules.length + 1) progress (by simp)
  rw [ofGrammar_of_resolveAll hstart hall] at h
  cases h
  obtain ⟨w₁, hw₁, hholds₁⟩ := Workspace.holds_empty.addFragment hstart
  obtain ⟨w, hw, hholds⟩ := hholds₁.resolveAll wellFormed _ progress (.start hstart) (by simp) hall
  refine Option.bind_eq_some_iff.2 ⟨_, hw₁, Option.bind_eq_some_iff.2 ⟨w, hw, ?_⟩⟩
  obtain ⟨nfa, fragments, calls⟩ := w
  obtain ⟨rfl, rfl, hcalls⟩ := hholds
  unfold ofDraft resized
  rw [funext hcalls]

end LexChart.Checked
