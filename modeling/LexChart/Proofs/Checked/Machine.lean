import LexChart.Proofs.Checked.Network
import LexChart.Proofs.Recognizer.Machine
set_option autoImplicit false

/-!
# Making a machine without breaking off

The closures of a network are collected with one array of marks, used again for each of them, and
explored with a queue.  No closure leads to a state that the network does not have, and there are no
more closures than sets of states, so no walk is cut short.
-/

namespace LexChart.Checked

open RuleNetwork

/-- `RuleNetwork.silentClosure` on an array of marks. -/
def silentClosure (net : RuleNetwork) (nullable : NullableTable) (predict : Bool)
    (frontier : List Nat) : Marking Closure :=
  Marks.collect net.nfa.size (net.silentTargets nullable predict) frontier

/-- The edges for the groups of some states, one for each key. -/
def groupEdges (net : RuleNetwork) (nullable : NullableTable) (step : Nat → MachineStep)
    (pairs : List (Nat × Nat)) : Marking (List MachineEdge) :=
  (groups pairs).mapM fun (key, targets) => do
    let closure ← silentClosure net nullable false targets
    pure ⟨step key, closure⟩

/-- `RuleNetwork.predictEdge` on an array of marks. -/
def predictEdge (net : RuleNetwork) (nullable : NullableTable) (c : Closure)
    (predicted : List Nat) : Marking (List MachineEdge) :=
  if predicted.isEmpty then pure []
  else do
    let prediction ← silentClosure net nullable true predicted
    pure (if prediction.isSubset c then [] else [⟨.predict, prediction⟩])

/-- `RuleNetwork.edges`, checked. -/
def edges (net : RuleNetwork) (nullable : NullableTable) (c : Closure) :
    Marking (List MachineEdge) := do
  let states ← StateT.lift (c.states.mapM net.nfa.state).toOption
  let scans ← groupEdges net nullable .scan (states.flatMap scansOf)
  let calls := (c.states.flatMap net.callsFrom).map fun call => (call.rule, call.target)
  let resumptions ← groupEdges net nullable .resume calls
  let predictions ← predictEdge net nullable c (states.flatMap predictionsOf)
  pure (scans ++ resumptions ++ predictions)

/-- `RuleNetwork.closures`, checked. -/
def closures (net : RuleNetwork) (g : Grammar) : Marking (Numbering Closure MachineEdge) := do
  let entry ← StateT.lift net.entry.toOption
  let nullable := NullableTable.ofGrammar g
  let root ← silentClosure net nullable false [entry]
  explore (edges net nullable) MachineEdge.closure (Nat.pow 2 net.nfa.size) root

/-- `Machine.ofNetwork`, checked. -/
def machineOf (net : RuleNetwork) (g : Grammar) : Option Machine := do
  let closures ← ran (closures net g)
  let states ← (closures.states.toList.zip closures.edges.toList).mapM fun (c, edges) =>
    (MachineState.ofClosure net c edges).toOption
  some ⟨states.toArray, g.start, g.lexRules.map LexRule.name, g.rules.map Rule.name⟩

section

variable {net : RuleNetwork} {g : Grammar} (represents : net.Represents g)
  (nullable : g.NullableExact) (hlimit : net.nfa.size < sizeLimit)
include represents nullable hlimit

theorem follows_silentClosure (predict : Bool) {frontier : List Nat}
    (h : ∀ id ∈ frontier, id < net.nfa.size) :
    Follows (silentClosure net (.ofGrammar g) predict frontier)
      (net.silentClosure (.ofGrammar g) predict frontier) :=
  .collect hlimit (confined_silentTargets represents nullable predict) h

theorem follows_groupEdges (step : Nat → MachineStep) {pairs : List (Nat × Nat)}
    (h : ∀ pair ∈ pairs, pair.2 < net.nfa.size) :
    Follows (groupEdges net (.ofGrammar g) step pairs)
      ((groups pairs).mapM fun (key, targets) => do
        let closure ← net.silentClosure (.ofGrammar g) false targets
        pure (MachineEdge.mk (step key) closure)) := by
  refine .mapM fun (key, targets) hgroup => ?_
  refine (follows_silentClosure represents nullable hlimit false fun id hid => ?_).bind
    fun closure _ => .pure _
  exact h _ ((mem_values_of_mem_groups hgroup).1 hid)

theorem follows_predictEdge (c : Closure) {predicted : List Nat}
    (h : ∀ id ∈ predicted, id < net.nfa.size) :
    Follows (predictEdge net (.ofGrammar g) c predicted)
      (net.predictEdge (.ofGrammar g) c predicted) := by
  unfold predictEdge RuleNetwork.predictEdge
  split
  · exact .pure []
  · exact (follows_silentClosure represents nullable hlimit true h).bind fun _ _ => .pure _

theorem follows_edges (c : Closure) :
    Follows (edges net (.ofGrammar g) c) (net.edges (.ofGrammar g) c) := by
  refine (Follows.toOption (c.states.mapM net.nfa.state)).bind fun states hstates => ?_
  have hscans : ∀ pair ∈ states.flatMap scansOf, pair.2 < net.nfa.size := by
    rintro ⟨lex, q⟩ hpair
    obtain ⟨p, -, hmove⟩ := (mem_scans_iff hstates).1 hpair
    exact (represents.lt_size p _ q hmove).2
  have hcalls : ∀ pair ∈ (c.states.flatMap net.callsFrom).map fun call => (call.rule, call.target),
      pair.2 < net.nfa.size := by
    rintro ⟨rule, q⟩ hpair
    obtain ⟨p, -, hmove⟩ := (mem_calls_iff represents).1 hpair
    exact (represents.lt_size p _ q hmove).2
  have hpredictions : ∀ q ∈ states.flatMap predictionsOf, q < net.nfa.size := by
    intro q hq
    obtain ⟨p, -, henters⟩ := (mem_predictions_iff represents hstates).1 hq
    exact henters.lt represents
  exact (follows_groupEdges represents nullable hlimit .scan hscans).bind fun scans _ =>
    (follows_groupEdges represents nullable hlimit .resume hcalls).bind fun resumptions _ =>
      (follows_predictEdge represents nullable hlimit c hpredictions).bind fun predictions _ =>
        .pure _

theorem follows_closures : Follows (closures net g) (net.closures g) := by
  refine (Follows.toOption net.entry).bind fun entry hentry => ?_
  have hlt : ∀ id ∈ [entry], id < net.nfa.size := by
    obtain ⟨f, hf⟩ := represents.start_fragment
    unfold RuleNetwork.entry at hentry
    rw [hf] at hentry
    cases hentry
    simpa using (represents.fragment_lt net.start f hf).2.1
  refine (follows_silentClosure represents nullable hlimit false hlt).bind fun root hroot => ?_
  refine follows_explore (follows_edges represents nullable hlimit) fun found hfound => ?_
  obtain ⟨_, found', hfound', hspec, -⟩ := closures_ok represents nullable hlimit
  have hclosures : net.closures g = .ok found :=
    bind_eq_ok_iff.2 ⟨entry, hentry, bind_eq_ok_iff.2 ⟨root, hroot, hfound⟩⟩
  obtain rfl := Except.ok.inj (hclosures.symm.trans hfound')
  exact hspec.size_edges

/-- The machine of a network is made without breaking off. -/
theorem machineOf_eq {m : Machine} (h : Machine.ofNetwork net g = .ok m) :
    machineOf net g = some m := by
  obtain ⟨found, hfound, h⟩ := bind_eq_ok_iff.1 h
  obtain ⟨states, hstates, h⟩ := bind_eq_ok_iff.1 h
  cases h
  have hran := (follows_closures represents nullable hlimit).ran_eq hfound
  exact Option.bind_eq_some_iff.2 ⟨found, hran,
    Option.bind_eq_some_iff.2 ⟨states, mapM_toOption hstates, rfl⟩⟩

end

end LexChart.Checked
