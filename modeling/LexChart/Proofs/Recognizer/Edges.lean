import LexChart.Proofs.Recognizer.Silent
set_option autoImplicit false

/-!
# The edges of a machine

Out of a closure there is one edge for each symbol that its states read, to the closure of what the
symbol leads to.  A further one leads to everything that the closure predicts, unless the closure
holds that itself.

A network whose states fit in memory has no more closures than it has sets of states, so all that
can be reached are found.
-/

namespace LexChart

/-- The step of the machine that a symbol stands for. -/
def MachineStep.ofSymbol : Symbol → MachineStep
  | .lex id => .scan id
  | .rule id => .resume id

theorem MachineStep.ofSymbol_inj {s s' : Symbol} (h : ofSymbol s = ofSymbol s') : s = s' := by
  cases s <;> cases s' <;> cases h <;> rfl

theorem MachineStep.ofSymbol_ne_predict (s : Symbol) : ofSymbol s ≠ .predict := by
  cases s <;> exact nofun

namespace RuleNetwork

/-- A symbol leads from one state to another. -/
def Next (net : RuleNetwork) (g : Grammar) (p : Nat) (s : Symbol) (r : Nat) : Prop :=
  ∃ q, net.moves p (some s) q ∧ net.Silent g false q r

/-- The entry of a rule is predicted in a state. -/
def Enters (net : RuleNetwork) (p entry : Nat) : Prop :=
  ∃ rule q f, net.moves p (some (.rule rule)) q ∧ net.fragmentOf? rule = some f ∧ f.entry = entry

/-- A state is predicted in another one. -/
def Predicted (net : RuleNetwork) (g : Grammar) (p r : Nat) : Prop :=
  ∃ entry, net.Enters p entry ∧ net.Silent g true entry r

variable {net : RuleNetwork} {g : Grammar}

theorem Enters.lt (represents : net.Represents g) {p entry : Nat} (h : net.Enters p entry) :
    entry < net.nfa.size := by
  obtain ⟨rule, q, f, -, hf, rfl⟩ := h
  exact (represents.fragment_lt rule f hf).2.1

/-- What a symbol leads to is closed under silent steps. -/
theorem closed_of_next {c c' : Closure} {s : Symbol} (h : ∀ r, r ∈ c' ↔ ∃ p ∈ c, net.Next g p s r) :
    ∀ p ∈ c', ∀ q, net.SilentStep g false p q → q ∈ c' := by
  intro p hp q hstep
  obtain ⟨p', hp', t, hmove, hreach⟩ := (h p).1 hp
  exact (h q).2 ⟨p', hp', t, hmove, hreach.tail hstep⟩

/-- What the edges out of a closure stand for. -/
structure EdgesOf (net : RuleNetwork) (g : Grammar) (c : Closure) (edges : List MachineEdge) :
    Prop where
  within : ∀ e ∈ edges, e.closure.Within net.nfa.size
  next : ∀ s, ∀ e ∈ edges, e.step = .ofSymbol s → ∀ r, r ∈ e.closure ↔ ∃ p ∈ c, net.Next g p s r
  reads : ∀ s, (∃ e ∈ edges, e.step = .ofSymbol s) ↔ ∃ p ∈ c, ∃ q, net.moves p (some s) q
  predicts : ∀ e ∈ edges, e.step = .predict → ∀ r, r ∈ e.closure ↔ ∃ p ∈ c, net.Predicted g p r
  /-- What is predicted is not all in the closure. -/
  adds : ∀ e ∈ edges, e.step = .predict → ∃ p ∈ c, ∃ r, net.Predicted g p r ∧ r ∉ c
  keeps : (∀ e ∈ edges, e.step ≠ .predict) → ∀ p ∈ c, ∀ r, net.Predicted g p r → r ∈ c

/-- What the edges out of a closure stand for that are labelled with symbols of one kind. -/
structure EdgesOfKind (net : RuleNetwork) (g : Grammar) (c : Closure) (kind : Nat → Symbol)
    (edges : List MachineEdge) : Prop where
  spec : ∀ e ∈ edges, e.closure.Within net.nfa.size ∧ ∃ id, e.step = .ofSymbol (kind id) ∧
    (∃ p ∈ c, ∃ q, net.moves p (some (kind id)) q) ∧
    ∀ r, r ∈ e.closure ↔ ∃ p ∈ c, net.Next g p (kind id) r
  total : ∀ id, ∀ p ∈ c, ∀ q, net.moves p (some (kind id)) q →
    ∃ e ∈ edges, e.step = .ofSymbol (kind id)

/-- What the edges out of a closure stand for that predict. -/
structure EdgesOfPredictions (net : RuleNetwork) (g : Grammar) (c : Closure)
    (edges : List MachineEdge) : Prop where
  spec : ∀ e ∈ edges, e.closure.Within net.nfa.size ∧ e.step = .predict ∧
    (∀ r, r ∈ e.closure ↔ ∃ p ∈ c, net.Predicted g p r) ∧
    ∃ p ∈ c, ∃ r, net.Predicted g p r ∧ r ∉ c
  total : edges = [] → ∀ p ∈ c, ∀ r, net.Predicted g p r → r ∈ c

section

variable {c : Closure} {kind : Nat → Symbol} {edges : List MachineEdge} {e : MachineEdge}

theorem EdgesOfKind.exists_move (h : net.EdgesOfKind g c kind edges) (he : e ∈ edges) {s : Symbol}
    (hstep : e.step = .ofSymbol s) : ∃ p ∈ c, ∃ q, net.moves p (some s) q := by
  obtain ⟨-, id, hid, hmove, -⟩ := h.spec e he
  rwa [← MachineStep.ofSymbol_inj (hstep.symm.trans hid)] at hmove

theorem EdgesOfKind.mem_closure_iff (h : net.EdgesOfKind g c kind edges) (he : e ∈ edges)
    {s : Symbol} (hstep : e.step = .ofSymbol s) {r : Nat} :
    r ∈ e.closure ↔ ∃ p ∈ c, net.Next g p s r := by
  obtain ⟨-, id, hid, -, hclosure⟩ := h.spec e he
  rw [hclosure, MachineStep.ofSymbol_inj (hstep.symm.trans hid)]

theorem EdgesOfKind.ne_predict (h : net.EdgesOfKind g c kind edges) (he : e ∈ edges) :
    e.step ≠ .predict := by
  obtain ⟨-, id, hid, -⟩ := h.spec e he
  rw [hid]
  exact MachineStep.ofSymbol_ne_predict _

theorem EdgesOfPredictions.ne_ofSymbol (h : net.EdgesOfPredictions g c edges) (he : e ∈ edges)
    (s : Symbol) : e.step ≠ .ofSymbol s := by
  rw [(h.spec e he).2.1]
  exact (MachineStep.ofSymbol_ne_predict s).symm

/-- The edges for tokens, those for rules and the one that predicts are all the edges out of a
closure. -/
theorem edgesOf_append {scans resumptions predictions : List MachineEdge}
    (hscans : net.EdgesOfKind g c .lex scans) (hresumptions : net.EdgesOfKind g c .rule resumptions)
    (hpredictions : net.EdgesOfPredictions g c predictions) :
    net.EdgesOf g c (scans ++ resumptions ++ predictions) := by
  have hcases : ∀ e, e ∈ scans ++ resumptions ++ predictions ↔
      e ∈ scans ∨ e ∈ resumptions ∨ e ∈ predictions := by
    intro e
    rw [List.mem_append, List.mem_append, or_assoc]
  constructor
  case within =>
    intro e he
    rcases (hcases e).1 he with he | he | he
    · exact (hscans.spec e he).1
    · exact (hresumptions.spec e he).1
    · exact (hpredictions.spec e he).1
  case next =>
    intro s e he hstep r
    rcases (hcases e).1 he with he | he | he
    · exact hscans.mem_closure_iff he hstep
    · exact hresumptions.mem_closure_iff he hstep
    · exact absurd hstep (hpredictions.ne_ofSymbol he s)
  case reads =>
    intro s
    constructor
    · rintro ⟨e, he, hstep⟩
      rcases (hcases e).1 he with he | he | he
      · exact hscans.exists_move he hstep
      · exact hresumptions.exists_move he hstep
      · exact absurd hstep (hpredictions.ne_ofSymbol he s)
    · rintro ⟨p, hp, q, hmove⟩
      cases s with
      | lex id =>
        obtain ⟨e, he, hstep⟩ := hscans.total id p hp q hmove
        exact ⟨e, (hcases e).2 (.inl he), hstep⟩
      | rule id =>
        obtain ⟨e, he, hstep⟩ := hresumptions.total id p hp q hmove
        exact ⟨e, (hcases e).2 (.inr (.inl he)), hstep⟩
  case predicts =>
    intro e he hstep
    rcases (hcases e).1 he with he | he | he
    · exact absurd hstep (hscans.ne_predict he)
    · exact absurd hstep (hresumptions.ne_predict he)
    · exact (hpredictions.spec e he).2.2.1
  case adds =>
    intro e he hstep
    rcases (hcases e).1 he with he | he | he
    · exact absurd hstep (hscans.ne_predict he)
    · exact absurd hstep (hresumptions.ne_predict he)
    · exact (hpredictions.spec e he).2.2.2
  case keeps =>
    intro hnone
    refine hpredictions.total (List.eq_nil_iff_forall_not_mem.2 fun e he => ?_)
    exact hnone e ((hcases e).2 (.inr (.inr he))) (hpredictions.spec e he).2.1

end

theorem mem_scans_iff {c : Closure} {states : List (NfaState NetworkLabel)}
    (h : c.states.mapM net.nfa.state = .ok states) {lex q : Nat} :
    (lex, q) ∈ states.flatMap scansOf ↔ ∃ p ∈ c, net.moves p (some (.lex lex)) q := by
  unfold scansOf
  rw [Nfa.mem_flatMap_states h]
  refine exists_congr fun p => and_congr_right fun _ => ?_
  constructor
  · rintro ⟨t, ht, heq⟩
    split at heq
    · cases heq
      exact ht
    · cases heq
  · exact fun hmove => ⟨_, hmove, rfl⟩

theorem mem_calls_iff (represents : net.Represents g) {c : Closure} {rule q : Nat} :
    (rule, q) ∈ (c.states.flatMap net.callsFrom).map (fun call => (call.rule, call.target)) ↔
      ∃ p ∈ c, net.moves p (some (.rule rule)) q := by
  rw [List.mem_map]
  constructor
  · rintro ⟨call, hcall, heq⟩
    obtain ⟨p, hp, hcall⟩ := List.mem_flatMap.1 hcall
    cases heq
    exact ⟨p, hp, represents.moves_of_mem_callsFrom hcall⟩
  · rintro ⟨p, hp, hmove⟩
    exact ⟨_, List.mem_flatMap.2 ⟨p, hp, hmove⟩, rfl⟩

theorem mem_predictions_iff (represents : net.Represents g) {c : Closure}
    {states : List (NfaState NetworkLabel)} (h : c.states.mapM net.nfa.state = .ok states)
    {q : Nat} :
    q ∈ states.flatMap predictionsOf ↔ ∃ p ∈ c, net.Enters p q := by
  unfold predictionsOf
  rw [Nfa.mem_flatMap_states h]
  refine exists_congr fun p => and_congr_right fun _ => ?_
  constructor
  · rintro ⟨t, ht, heq⟩
    split at heq
    · cases heq
      obtain ⟨f, q', hf, rfl, hmove⟩ := (represents.predict_iff p _ _).1 ht
      exact ⟨_, q', f, hmove, hf, rfl⟩
    · cases heq
  · rintro ⟨rule, q', f, hmove, hf, rfl⟩
    exact ⟨_, (represents.predict_iff p rule f.entry).2 ⟨f, q', hf, rfl, hmove⟩, rfl⟩

section

variable (represents : net.Represents g) (nullable : g.NullableExact)
    (hlimit : net.nfa.size < sizeLimit)
include represents nullable hlimit

/-- One edge for each key, to the closure of the states listed under it. -/
theorem groupEdges_ok (step : Nat → MachineStep) {pairs : List (Nat × Nat)}
    (hlt : ∀ pair ∈ pairs, pair.2 < net.nfa.size) :
    ∃ edges, ((groups pairs).mapM fun (key, targets) => do
        let closure ← net.silentClosure (NullableTable.ofGrammar g) false targets
        pure (MachineEdge.mk (step key) closure)) = .ok edges ∧
      (∀ e ∈ edges, e.closure.Within net.nfa.size ∧ ∃ key, e.step = step key ∧
        (∃ q, (key, q) ∈ pairs) ∧
        ∀ r, r ∈ e.closure ↔ ∃ q, (key, q) ∈ pairs ∧ net.Silent g false q r) ∧
      ∀ pair ∈ pairs, ∃ e ∈ edges, e.step = step pair.1 := by
  have hgroup : ∀ group ∈ groups pairs, ∃ closure,
      net.silentClosure (NullableTable.ofGrammar g) false group.2 = .ok closure ∧
      closure.Within net.nfa.size ∧
      ∀ r, r ∈ closure ↔ ∃ q, (group.1, q) ∈ pairs ∧ net.Silent g false q r := by
    rintro ⟨key, targets⟩ hgroup
    have hvalues : ∀ q, q ∈ targets ↔ (key, q) ∈ pairs := fun q => mem_values_of_mem_groups hgroup
    have htargets : ∀ q ∈ targets, q < net.nfa.size := fun q hq => hlt _ ((hvalues q).1 hq)
    obtain ⟨closure, hclosure, hwithin, hmem⟩ :=
      silentClosure_ok represents nullable hlimit false htargets
    refine ⟨closure, hclosure, hwithin, fun r => (hmem r).trans ?_⟩
    exact exists_congr fun q => and_congr_left fun _ => hvalues q
  obtain ⟨edges, hedges⟩ := exists_mapM_eq_ok (f := fun group : Nat × List Nat => do
      let closure ← net.silentClosure (NullableTable.ofGrammar g) false group.2
      pure (MachineEdge.mk (step group.1) closure))
    fun group hmem => (hgroup group hmem).imp' (MachineEdge.mk (step group.1)) fun closure h =>
      bind_eq_ok_iff.2 ⟨closure, h.1, rfl⟩
  have hall := mapM_eq_ok_iff.1 hedges
  refine ⟨edges, hedges, fun e he => ?_, fun pair hpair => ?_⟩
  · obtain ⟨group, hmem, heq⟩ := forall₂_mem_right hall he
    obtain ⟨closure, hclosure, heq⟩ := bind_eq_ok_iff.1 heq
    cases heq
    obtain ⟨closure', hclosure', hwithin, hspec⟩ := hgroup group hmem
    rw [hclosure] at hclosure'
    obtain rfl := Except.ok.inj hclosure'
    exact ⟨hwithin, group.1, rfl, mem_groups_fst.1 (List.mem_map.2 ⟨group, hmem, rfl⟩), hspec⟩
  · obtain ⟨group, hmem, hkey⟩ := List.mem_map.1 (mem_groups_fst.2 ⟨pair.2, hpair⟩)
    obtain ⟨e, he, heq⟩ := forall₂_mem_left hall hmem
    obtain ⟨closure, -, heq⟩ := bind_eq_ok_iff.1 heq
    cases heq
    exact ⟨_, he, congrArg step hkey⟩

/-- The edges for the symbols of one kind, from a list of the moves with them. -/
theorem edgesOfKind_ok {c : Closure} {kind : Nat → Symbol} {step : Nat → MachineStep}
    (hstep : ∀ id, step id = .ofSymbol (kind id)) {pairs : List (Nat × Nat)}
    (hpairs : ∀ id q, (id, q) ∈ pairs ↔ ∃ p ∈ c, net.moves p (some (kind id)) q) :
    ∃ edges, ((groups pairs).mapM fun (key, targets) => do
        let closure ← net.silentClosure (NullableTable.ofGrammar g) false targets
        pure (MachineEdge.mk (step key) closure)) = .ok edges ∧
      net.EdgesOfKind g c kind edges := by
  have hlt : ∀ pair ∈ pairs, pair.2 < net.nfa.size := by
    intro pair hpair
    obtain ⟨p, -, hmove⟩ := (hpairs pair.1 pair.2).1 hpair
    exact (represents.lt_size p _ _ hmove).2
  obtain ⟨edges, hedges, hspec, htotal⟩ := groupEdges_ok represents nullable hlimit step hlt
  refine ⟨edges, hedges, fun e he => ?_, fun id p hp q hmove => ?_⟩
  · obtain ⟨hwithin, id, hid, ⟨q, hq⟩, hclosure⟩ := hspec e he
    obtain ⟨p, hp, hmove⟩ := (hpairs id q).1 hq
    refine ⟨hwithin, id, hid.trans (hstep id), ⟨p, hp, q, hmove⟩, fun r => ?_⟩
    rw [hclosure]
    constructor
    · rintro ⟨q, hq, hsilent⟩
      obtain ⟨p, hp, hmove⟩ := (hpairs id q).1 hq
      exact ⟨p, hp, q, hmove, hsilent⟩
    · rintro ⟨p, hp, q, hmove, hsilent⟩
      exact ⟨q, (hpairs id q).2 ⟨p, hp, hmove⟩, hsilent⟩
  · obtain ⟨e, he, heq⟩ := htotal (id, q) ((hpairs id q).2 ⟨p, hp, hmove⟩)
    exact ⟨e, he, heq.trans (hstep id)⟩

/-- The edge that predicts is missing if and only if the closure holds what it predicts. -/
theorem predictEdge_ok {c : Closure} {predicted : List Nat}
    (hpredicted : ∀ q, q ∈ predicted ↔ ∃ p ∈ c, net.Enters p q) :
    ∃ edges, net.predictEdge (NullableTable.ofGrammar g) c predicted = .ok edges ∧
      net.EdgesOfPredictions g c edges := by
  have hlt : ∀ q ∈ predicted, q < net.nfa.size := by
    intro q hq
    obtain ⟨p, -, henters⟩ := (hpredicted q).1 hq
    exact henters.lt represents
  obtain ⟨prediction, hprediction, hwithin, hmem⟩ :=
    silentClosure_ok represents nullable hlimit true hlt
  have hspec : ∀ r, r ∈ prediction ↔ ∃ p ∈ c, net.Predicted g p r := by
    intro r
    rw [hmem]
    constructor
    · rintro ⟨q, hq, hsilent⟩
      obtain ⟨p, hp, henters⟩ := (hpredicted q).1 hq
      exact ⟨p, hp, q, henters, hsilent⟩
    · rintro ⟨p, hp, q, henters, hsilent⟩
      exact ⟨q, (hpredicted q).2 ⟨p, hp, henters⟩, hsilent⟩
  unfold predictEdge
  split
  · rename_i hempty
    refine ⟨[], rfl, List.forall_mem_nil _, fun _ p hp r hr => ?_⟩
    obtain ⟨entry, henters, -⟩ := hr
    have hentry := (hpredicted entry).2 ⟨p, hp, henters⟩
    rw [List.isEmpty_iff.1 hempty] at hentry
    cases hentry
  · rw [hprediction]
    refine ⟨_, rfl, fun e he => ?_, fun hnil p hp r hr => ?_⟩
    · split at he
      · cases he
      · rename_i hsubset
        obtain rfl := List.mem_singleton.1 he
        refine ⟨hwithin, rfl, hspec, ?_⟩
        by_contra hall
        refine hsubset (Closure.isSubset_iff.2 fun r hr => ?_)
        obtain ⟨p, hp, hpredicted⟩ := (hspec r).1 hr
        by_contra hout
        exact hall ⟨p, hp, r, hpredicted, hout⟩
    · split at hnil
      · rename_i hsubset
        exact Closure.isSubset_iff.1 hsubset r ((hspec r).2 ⟨p, hp, hr⟩)
      · cases hnil

theorem edges_ok {c : Closure} (h : c.Within net.nfa.size) :
    ∃ edges, net.edges (NullableTable.ofGrammar g) c = .ok edges ∧ net.EdgesOf g c edges := by
  obtain ⟨states, hstates⟩ : ∃ states, c.states.mapM net.nfa.state = .ok states :=
    exists_mapM_eq_ok fun id hid => ⟨_, Nfa.state_of_lt (h id hid)⟩
  obtain ⟨scans, hscans_ok, hscans⟩ :=
    edgesOfKind_ok represents nullable hlimit (fun _ => rfl) fun _ _ => mem_scans_iff hstates
  obtain ⟨resumptions, hresumptions_ok, hresumptions⟩ :=
    edgesOfKind_ok represents nullable hlimit (fun _ => rfl) fun _ _ => mem_calls_iff represents
  obtain ⟨predictions, hpredictions_ok, hpredictions⟩ :=
    predictEdge_ok represents nullable hlimit fun _ => mem_predictions_iff represents hstates
  refine ⟨scans ++ resumptions ++ predictions, ?_,
    edgesOf_append hscans hresumptions hpredictions⟩
  exact bind_eq_ok_iff.2 ⟨states, hstates, bind_eq_ok_iff.2 ⟨scans, hscans_ok,
    bind_eq_ok_iff.2 ⟨resumptions, hresumptions_ok,
      bind_eq_ok_iff.2 ⟨predictions, hpredictions_ok, rfl⟩⟩⟩⟩

/-- A network whose states fit in memory has closures: that of the entry, and what edges lead to. -/
theorem closures_ok : ∃ root closures, net.closures g = .ok closures ∧
    Numbering.IsExploration (net.edges (NullableTable.ofGrammar g)) MachineEdge.closure root
      closures ∧
    (∀ r, r ∈ root ↔ ∃ f, net.fragmentOf? net.start = some f ∧ net.Silent g false f.entry r) ∧
    ∀ c, Numbering.Reached (net.edges (NullableTable.ofGrammar g)) MachineEdge.closure root c →
      c.Within net.nfa.size ∧ ∀ p ∈ c, ∀ q, net.SilentStep g false p q → q ∈ c := by
  obtain ⟨f, hf⟩ := represents.start_fragment
  have hentry : net.entry = .ok f.entry := by
    unfold entry
    rw [hf]
  have hfrontier : ∀ id ∈ [f.entry], id < net.nfa.size := by
    simpa using (represents.fragment_lt net.start f hf).2.1
  obtain ⟨root, hroot, hroot_within, hroot_mem⟩ :=
    silentClosure_ok represents nullable hlimit false hfrontier
  simp only [List.mem_singleton, exists_eq_left] at hroot_mem
  have hreached : ∀ c, Numbering.Reached (net.edges (NullableTable.ofGrammar g)) MachineEdge.closure
      root c → c.Within net.nfa.size ∧ ∀ p ∈ c, ∀ q, net.SilentStep g false p q → q ∈ c := by
    intro c hc
    induction hc with
    | root =>
      exact ⟨hroot_within, fun p hp q hstep =>
        (hroot_mem q).2 (((hroot_mem p).1 hp).tail hstep)⟩
    | @step c found e _ hfound he ih =>
      obtain ⟨edges, hedges, hspec⟩ := edges_ok represents nullable hlimit ih.1
      rw [hfound] at hedges
      obtain rfl := Except.ok.inj hedges
      refine ⟨hspec.within e he, ?_⟩
      cases hstep : e.step with
      | scan lex =>
        exact closed_of_next fun r => hspec.next (.lex lex) e he hstep r
      | resume rule =>
        exact closed_of_next fun r => hspec.next (.rule rule) e he hstep r
      | predict =>
        intro p hp q hsilent
        have hmem := hspec.predicts e he hstep
        obtain ⟨p', hp', entry, henters, hreach⟩ := (hmem p).1 hp
        exact (hmem q).2 ⟨p', hp', entry, henters, hreach.tail hsilent.mono⟩
  have hfew : Numbering.ReachesAtMost (net.edges (NullableTable.ofGrammar g)) MachineEdge.closure
      root (Nat.pow 2 net.nfa.size) := fun cs nodup hcs =>
    Closure.length_le_of_nodup nodup fun c hc => (hreached c (hcs c hc)).1
  obtain ⟨closures, hclosures, hspec⟩ := Numbering.explore_ok
    (fun c hc => (edges_ok represents nullable hlimit (hreached c hc).1).imp fun _ h => h.1) hfew
  refine ⟨root, closures, ?_, hspec, fun r => ?_, hreached⟩
  · exact bind_eq_ok_iff.2 ⟨f.entry, hentry, bind_eq_ok_iff.2 ⟨root, hroot, hclosures⟩⟩
  · rw [hroot_mem, hf]
    simp

end

end RuleNetwork

end LexChart
