import LexChart.Proofs.Recognizer.Edges
set_option autoImplicit false

/-!
# The machine of a network

The states of a machine are made of the closures that can be reached and of their edges.
`Machine.Simulates` says what the machine is about: a symbol leads from the closure of a state to
the closure of what it leads to, and the prediction of a state holds everything that its closure
predicts, unless the closure holds that itself.
-/

namespace LexChart

/-- The state after a symbol. -/
def MachineState.next (s : MachineState) : Symbol → Option Nat
  | .lex id => s.scan id
  | .rule id => s.goto id

/-- The state lists another one for a symbol. -/
def MachineState.Lists (s : MachineState) : Symbol → Nat → Prop
  | .lex id, target => (id, target) ∈ s.scans
  | .rule id, target => (id, target) ∈ s.gotos

theorem MachineState.lists_of_next {s : MachineState} {symbol : Symbol} {target : Nat}
    (h : s.next symbol = some target) : s.Lists symbol target := by
  cases symbol with
  | lex id => exact mem_of_lookup_eq_some h
  | rule id => exact mem_of_lookup_eq_some h

/-- The state leads where the edges of its closure do. -/
structure MachineState.Follows (s : MachineState) (edges : List (MachineEdge × Nat)) : Prop where
  lists : ∀ symbol target, s.Lists symbol target →
    ∃ e ∈ edges, e.1.step = .ofSymbol symbol ∧ e.2 = target
  total : ∀ symbol, ∀ e ∈ edges, e.1.step = .ofSymbol symbol → ∃ target, s.next symbol = some target
  predicts : ∀ target, s.prediction = some target → ∃ e ∈ edges, e.1.step = .predict ∧ e.2 = target
  keeps : s.prediction = none → ∀ e ∈ edges, e.1.step ≠ .predict

/-- The lex rule that an edge scans, and where it leads. -/
def scanOf : MachineEdge × Nat → Option (Nat × Nat)
  | (⟨.scan lex, _⟩, target) => some (lex, target)
  | _ => none

/-- The rule behind which an edge resumes, and where it leads. -/
def gotoOf : MachineEdge × Nat → Option (Nat × Nat)
  | (⟨.resume rule, _⟩, target) => some (rule, target)
  | _ => none

theorem scanOf_eq_some_iff (e : MachineEdge × Nat) (pair : Nat × Nat) :
    scanOf e = some pair ↔ e.1.step = .scan pair.1 ∧ e.2 = pair.2 := by
  obtain ⟨⟨step, closure⟩, target⟩ := e
  cases step <;> simp [scanOf, Prod.ext_iff]

theorem gotoOf_eq_some_iff (e : MachineEdge × Nat) (pair : Nat × Nat) :
    gotoOf e = some pair ↔ e.1.step = .resume pair.1 ∧ e.2 = pair.2 := by
  obtain ⟨⟨step, closure⟩, target⟩ := e
  cases step <;> simp [gotoOf, Prod.ext_iff]

/-- What is listed under a key stands for an edge, and there is something if there is an edge. -/
theorem lookup_filterMap {pick : MachineEdge × Nat → Option (Nat × Nat)} {step : Nat → MachineStep}
    (hpick : ∀ e pair, pick e = some pair ↔ e.1.step = step pair.1 ∧ e.2 = pair.2)
    (edges : List (MachineEdge × Nat)) (key : Nat) :
    (∀ target, (key, target) ∈ edges.filterMap pick →
      ∃ e ∈ edges, e.1.step = step key ∧ e.2 = target) ∧
    ∀ e ∈ edges, e.1.step = step key →
      ∃ target, (edges.filterMap pick).lookup key = some target := by
  refine ⟨fun target hmem => ?_, fun e he hstep => ?_⟩
  · obtain ⟨e, he, hpair⟩ := List.mem_filterMap.1 hmem
    exact ⟨e, he, (hpick e _).1 hpair⟩
  · have hmem : (key, e.2) ∈ edges.filterMap pick :=
      List.mem_filterMap.2 ⟨e, he, (hpick e _).2 ⟨hstep, rfl⟩⟩
    cases hlookup : (edges.filterMap pick).lookup key with
    | none => simpa using List.lookup_eq_none_iff.1 hlookup _ hmem
    | some target => exact ⟨target, rfl⟩

/-- The state that is made of a closure and its edges. -/
theorem MachineState.ofClosure_ok {net : RuleNetwork} {c : Closure} (h : c.Within net.nfa.size)
    (edges : List (MachineEdge × Nat)) : ∃ s, ofClosure net c edges = .ok s ∧ s.closure = c ∧
      net.nfa.Completes c s.completions ∧ s.Follows edges := by
  obtain ⟨completions, hcompletions, hcompletes⟩ := Nfa.completions_ok h
  refine ⟨_, bind_eq_ok_iff.2 ⟨completions, hcompletions, rfl⟩, rfl, hcompletes, ?_⟩
  constructor
  case lists =>
    intro symbol target hlists
    cases symbol with
    | lex id => exact (lookup_filterMap scanOf_eq_some_iff edges id).1 target hlists
    | rule id => exact (lookup_filterMap gotoOf_eq_some_iff edges id).1 target hlists
  case total =>
    intro symbol e he hstep
    cases symbol with
    | lex id => exact (lookup_filterMap scanOf_eq_some_iff edges id).2 e he hstep
    | rule id => exact (lookup_filterMap gotoOf_eq_some_iff edges id).2 e he hstep
  case predicts =>
    intro target hprediction
    obtain ⟨⟨⟨step, closure⟩, target'⟩, he, heq⟩ :=
      List.mem_filterMap.1 (List.mem_of_getLast? hprediction)
    cases step with
    | predict => exact ⟨_, he, rfl, Option.some.inj heq⟩
    | scan lex => cases heq
    | resume rule => cases heq
  case keeps =>
    rintro hnone ⟨⟨step, closure⟩, target⟩ he rfl
    have hmem : target ∈ ([] : List Nat) := by
      rw [← List.getLast?_eq_none_iff.1 hnone]
      exact List.mem_filterMap.2 ⟨_, he, rfl⟩
    cases hmem

namespace Machine

/-- The states of the machine stand for closures of the network: the first one for that of the
entry, and the others for what symbols and predictions lead to. -/
structure Simulates (net : RuleNetwork) (g : Grammar) (m : Machine) : Prop where
  startRule_eq : m.startRule = g.start
  lexNames_eq : m.lexNames = g.lexRules.map LexRule.name
  first : ∃ s, m.state Machine.start = .ok s ∧
    ∀ r, r ∈ s.closure ↔ ∃ f, net.fragmentOf? net.start = some f ∧ net.Silent g false f.entry r
  closed : ∀ id s, m.state id = .ok s → ∀ p ∈ s.closure,
    ∀ q, net.SilentStep g false p q → q ∈ s.closure
  reads : ∀ id s, m.state id = .ok s → ∀ symbol, (∃ target, s.next symbol = some target) ↔
    ∃ p ∈ s.closure, ∃ q, net.moves p (some symbol) q
  lists : ∀ id s, m.state id = .ok s → ∀ symbol target, s.Lists symbol target →
    ∃ t, m.state target = .ok t ∧ ∀ r, r ∈ t.closure ↔ ∃ p ∈ s.closure, net.Next g p symbol r
  predicts : ∀ id s, m.state id = .ok s → ∀ target, s.prediction = some target →
    ∃ t, m.state target = .ok t ∧ ∀ r, r ∈ t.closure ↔ ∃ p ∈ s.closure, net.Predicted g p r
  adds : ∀ id s, m.state id = .ok s → ∀ target, s.prediction = some target →
    ∃ p ∈ s.closure, ∃ r, net.Predicted g p r ∧ r ∉ s.closure
  keeps : ∀ id s, m.state id = .ok s → s.prediction = none →
    ∀ p ∈ s.closure, ∀ r, net.Predicted g p r → r ∈ s.closure
  completes_iff : ∀ id s, m.state id = .ok s → ∀ rule, s.completes rule = true ↔
    ∃ f, net.fragmentOf? rule = some f ∧ f.exit ∈ s.closure

theorem Simulates.next {net : RuleNetwork} {g : Grammar} {m : Machine} (h : m.Simulates net g)
    (id : Nat) (s : MachineState) (hs : m.state id = .ok s) (symbol : Symbol) (target : Nat)
    (hnext : s.next symbol = some target) :
    ∃ t, m.state target = .ok t ∧ ∀ r, r ∈ t.closure ↔ ∃ p ∈ s.closure, net.Next g p symbol r :=
  h.lists id s hs symbol target (MachineState.lists_of_next hnext)

theorem state_eq_ok_iff {m : Machine} {id : Nat} {s : MachineState} :
    m.state id = .ok s ↔ m.states[id]? = some s := by
  unfold state
  cases m.states[id]? <;> simp

variable {net : RuleNetwork} {g : Grammar}

/-- The states of a machine are made of the closures of their numbers and the edges of these. -/
theorem ofNetwork_eq_ok {closures : Numbering Closure MachineEdge}
    (hclosures : net.closures g = .ok closures)
    (hwithin : ∀ c ∈ closures.states, c.Within net.nfa.size)
    (hsize : closures.edges.size = closures.states.size) :
    ∃ m, ofNetwork net g = .ok m ∧ m.startRule = g.start ∧
      m.lexNames = g.lexRules.map LexRule.name ∧
      (∀ id c, closures.states[id]? = some c → ∃ s, m.state id = .ok s ∧ s.closure = c) ∧
      ∀ id s, m.state id = .ok s → ∃ edges, closures.states[id]? = some s.closure ∧
        closures.edges[id]? = some edges ∧ net.nfa.Completes s.closure s.completions ∧
        s.Follows edges := by
  obtain ⟨states, hstates⟩ := exists_mapM_eq_ok
    fun (pair : Closure × List (MachineEdge × Nat))
      (hpair : pair ∈ closures.states.toList.zip closures.edges.toList) =>
      (MachineState.ofClosure_ok (hwithin pair.1
        (Array.mem_toList_iff.1 (List.of_mem_zip hpair).1)) pair.2).imp fun _ h => h.1
  have hall := mapM_eq_ok_iff.1 hstates
  refine ⟨_, bind_eq_ok_iff.2 ⟨closures, hclosures, bind_eq_ok_iff.2 ⟨states, hstates, rfl⟩⟩, rfl,
    rfl, fun id c hc => ?_, fun id s hs => ?_⟩
  · have hlt : id < closures.edges.size := by
      rw [hsize]
      exact (Array.getElem?_eq_some_iff.1 hc).1
    have hpair : (closures.states.toList.zip closures.edges.toList)[id]? =
        some (c, closures.edges[id]) := by
      rw [List.getElem?_zip_eq_some, Array.getElem?_toList, Array.getElem?_toList]
      exact ⟨hc, Array.getElem?_eq_getElem hlt⟩
    obtain ⟨s, hs, heq⟩ := forall₂_getElem?_left hall hpair
    obtain ⟨s', heq', hclosure, -⟩ :=
      MachineState.ofClosure_ok (hwithin c (Array.mem_of_getElem? hc)) closures.edges[id]
    rw [heq] at heq'
    cases heq'
    exact ⟨s, state_eq_ok_iff.2 (by rwa [List.getElem?_toArray]), hclosure⟩
  · rw [state_eq_ok_iff, List.getElem?_toArray] at hs
    obtain ⟨⟨c, edges⟩, hpair, heq⟩ := forall₂_getElem?_right hall hs
    rw [List.getElem?_zip_eq_some, Array.getElem?_toList, Array.getElem?_toList] at hpair
    obtain ⟨s', heq', hclosure, hcompletes, hfollows⟩ :=
      MachineState.ofClosure_ok (hwithin c (Array.mem_of_getElem? hpair.1)) edges
    rw [heq] at heq'
    cases heq'
    subst hclosure
    exact ⟨edges, hpair.1, hpair.2, hcompletes, hfollows⟩

/-- A state is made of edges: those of its closure, which lead to the states of their closures. -/
structure MadeOf (m : Machine) (net : RuleNetwork) (g : Grammar) (s : MachineState)
    (edges : List (MachineEdge × Nat)) : Prop where
  follows : s.Follows edges
  edgesOf : net.EdgesOf g s.closure (edges.map Prod.fst)
  target : ∀ e ∈ edges, ∃ t, m.state e.2 = .ok t ∧ t.closure = e.1.closure

section

variable {m : Machine} {s : MachineState} {edges : List (MachineEdge × Nat)}

theorem MadeOf.reads_iff (h : m.MadeOf net g s edges) (symbol : Symbol) :
    (∃ target, s.next symbol = some target) ↔
      ∃ p ∈ s.closure, ∃ q, net.moves p (some symbol) q := by
  rw [← h.edgesOf.reads]
  constructor
  · rintro ⟨target, hnext⟩
    obtain ⟨e, he, hstep, -⟩ := h.follows.lists symbol target (MachineState.lists_of_next hnext)
    exact ⟨e.1, List.mem_map.2 ⟨e, he, rfl⟩, hstep⟩
  · rintro ⟨_, hmem, hstep⟩
    obtain ⟨e, he, rfl⟩ := List.mem_map.1 hmem
    exact h.follows.total symbol e he hstep

theorem MadeOf.lists (h : m.MadeOf net g s edges) {symbol : Symbol} {target : Nat}
    (hlists : s.Lists symbol target) :
    ∃ t, m.state target = .ok t ∧ ∀ r, r ∈ t.closure ↔ ∃ p ∈ s.closure, net.Next g p symbol r := by
  obtain ⟨e, he, hstep, rfl⟩ := h.follows.lists symbol target hlists
  obtain ⟨t, ht, hclosure⟩ := h.target e he
  refine ⟨t, ht, ?_⟩
  rw [hclosure]
  exact h.edgesOf.next symbol e.1 (List.mem_map.2 ⟨e, he, rfl⟩) hstep

theorem MadeOf.predicts (h : m.MadeOf net g s edges) {target : Nat}
    (hprediction : s.prediction = some target) :
    ∃ t, m.state target = .ok t ∧ ∀ r, r ∈ t.closure ↔ ∃ p ∈ s.closure, net.Predicted g p r := by
  obtain ⟨e, he, hstep, rfl⟩ := h.follows.predicts target hprediction
  obtain ⟨t, ht, hclosure⟩ := h.target e he
  refine ⟨t, ht, ?_⟩
  rw [hclosure]
  exact h.edgesOf.predicts e.1 (List.mem_map.2 ⟨e, he, rfl⟩) hstep

theorem MadeOf.adds (h : m.MadeOf net g s edges) {target : Nat}
    (hprediction : s.prediction = some target) :
    ∃ p ∈ s.closure, ∃ r, net.Predicted g p r ∧ r ∉ s.closure := by
  obtain ⟨e, he, hstep, -⟩ := h.follows.predicts target hprediction
  exact h.edgesOf.adds e.1 (List.mem_map.2 ⟨e, he, rfl⟩) hstep

theorem MadeOf.keeps (h : m.MadeOf net g s edges) (hnone : s.prediction = none) :
    ∀ p ∈ s.closure, ∀ r, net.Predicted g p r → r ∈ s.closure := by
  refine h.edgesOf.keeps fun e he => ?_
  obtain ⟨e', he', rfl⟩ := List.mem_map.1 he
  exact h.follows.keeps hnone e' he'

end

theorem completes_iff_of_completes (represents : net.Represents g) {s : MachineState}
    (h : net.nfa.Completes s.closure s.completions) (rule : Nat) :
    s.completes rule = true ↔ ∃ f, net.fragmentOf? rule = some f ∧ f.exit ∈ s.closure := by
  have hmem : s.completes rule = true ↔ rule ∈ s.completions.map Completion.rule := by
    simp [MachineState.completes]
  rw [hmem, h.1]
  simp only [represents.final_iff]
  constructor
  · rintro ⟨_, hq, f, hf, rfl⟩
    exact ⟨f, hf, hq⟩
  · rintro ⟨f, hf, hq⟩
    exact ⟨f.exit, hq, f, hf, rfl⟩

/-- A network whose states fit in memory has a machine that simulates it. -/
theorem ofNetwork_ok (represents : net.Represents g) (nullable : g.NullableExact)
    (hlimit : net.nfa.size < sizeLimit) : ∃ m, ofNetwork net g = .ok m ∧ m.Simulates net g := by
  obtain ⟨root, closures, hclosures, hspec, hroot, hreached⟩ :=
    RuleNetwork.closures_ok represents nullable hlimit
  have hwithin : ∀ c ∈ closures.states, c.Within net.nfa.size := fun c hc =>
    (hreached c ((hspec.mem_iff c).1 hc)).1
  obtain ⟨m, hm, hstart, hnames, hmade, hstate⟩ :=
    ofNetwork_eq_ok hclosures hwithin hspec.size_edges
  have hedges : ∀ id s, m.state id = .ok s → ∃ edges, m.MadeOf net g s edges := by
    intro id s hs
    obtain ⟨edges, hc, hedge, -, hfollows⟩ := hstate id s hs
    obtain ⟨found, hfound, hof⟩ :=
      RuleNetwork.edges_ok represents nullable hlimit (hwithin _ (Array.mem_of_getElem? hc))
    rw [hspec.found id _ edges hc hedge] at hfound
    obtain rfl := Except.ok.inj hfound
    exact ⟨edges, hfollows, hof, fun e he => hmade _ _ (hspec.target_eq id edges hedge e he)⟩
  refine ⟨m, hm, ?_⟩
  constructor
  case startRule_eq => exact hstart
  case lexNames_eq => exact hnames
  case first =>
    obtain ⟨s, hs, rfl⟩ := hmade 0 root hspec.first
    exact ⟨s, hs, hroot⟩
  case closed =>
    intro id s hs
    obtain ⟨edges, hc, -⟩ := hstate id s hs
    exact (hreached _ ((hspec.mem_iff _).1 (Array.mem_of_getElem? hc))).2
  case reads =>
    intro id s hs symbol
    obtain ⟨edges, made⟩ := hedges id s hs
    exact made.reads_iff symbol
  case lists =>
    intro id s hs symbol target hlists
    obtain ⟨edges, made⟩ := hedges id s hs
    exact made.lists hlists
  case predicts =>
    intro id s hs target hprediction
    obtain ⟨edges, made⟩ := hedges id s hs
    exact made.predicts hprediction
  case adds =>
    intro id s hs target hprediction
    obtain ⟨edges, made⟩ := hedges id s hs
    exact made.adds hprediction
  case keeps =>
    intro id s hs hnone
    obtain ⟨edges, made⟩ := hedges id s hs
    exact made.keeps hnone
  case completes_iff =>
    intro id s hs rule
    obtain ⟨edges, -, -, hcompletes, -⟩ := hstate id s hs
    exact completes_iff_of_completes represents hcompletes rule

/-- A network that has a machine fits in memory. -/
theorem lt_sizeLimit_of_ofNetwork {m : Machine} (h : ofNetwork net g = .ok m) :
    net.nfa.size < sizeLimit := by
  obtain ⟨closures, hclosures, -⟩ := bind_eq_ok_iff.1 h
  obtain ⟨entry, -, hclosures⟩ := bind_eq_ok_iff.1 hclosures
  obtain ⟨root, hroot, -⟩ := bind_eq_ok_iff.1 hclosures
  exact Sweep.lt_sizeLimit_of_fresh_collect hroot

end Machine

end LexChart
