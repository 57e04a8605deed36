import LexChart.Proofs.Checked.Machine
import LexChart.Proofs.Recognizer.Exactness
set_option autoImplicit false

/-!
# The states of a machine

Two states of a machine never share a closure.  The tokens and rules that a state goes on with are
listed in ascending order, for they come out of groups, so that halving the list finds what stands
under a key.

`Machine.Structured` says what the lists and lookups of a state mean, in terms of the transitions
and calls that leave the members of its closure.
-/

namespace LexChart

/-! ## Halving -/

/-- What stands under a key between two positions of ascending pairs, by halving. -/
def bisectFrom (pairs : List (Nat × Nat)) (key lo hi : Nat) : Option Nat :=
  if lo < hi then
    match pairs[(lo + hi) / 2]? with
    | none => none
    | some pair =>
      if pair.1 < key then bisectFrom pairs key ((lo + hi) / 2 + 1) hi
      else if key < pair.1 then bisectFrom pairs key lo ((lo + hi) / 2)
      else some pair.2
  else none
termination_by hi - lo

/-- What stands under a key of ascending pairs, by halving. -/
def bisect (pairs : List (Nat × Nat)) (key : Nat) : Option Nat :=
  bisectFrom pairs key 0 pairs.length

section

variable {pairs : List (Nat × Nat)} {key value : Nat}

theorem mem_of_bisectFrom {lo hi : Nat} (h : bisectFrom pairs key lo hi = some value) :
    (key, value) ∈ pairs := by
  fun_induction bisectFrom pairs key lo hi with
  | case1 => cases h
  | case2 lo hi _ pair hpair hlt ih => exact ih h
  | case3 lo hi _ pair hpair _ hlt ih => exact ih h
  | case4 lo hi _ pair hpair hle hge =>
    cases h
    have hkey : pair.1 = key := by omega
    rw [← hkey]
    exact List.mem_of_getElem? hpair
  | case5 => cases h

/-- Positions of ascending pairs are ordered as their keys are. -/
theorem key_lt_iff (ascend : (pairs.map Prod.fst).Pairwise (· < ·)) {i j : Nat} {p q : Nat × Nat}
    (hp : pairs[i]? = some p) (hq : pairs[j]? = some q) : p.1 < q.1 ↔ i < j := by
  obtain ⟨hi, rfl⟩ := List.getElem?_eq_some_iff.1 hp
  obtain ⟨hj, rfl⟩ := List.getElem?_eq_some_iff.1 hq
  have hkeys := List.pairwise_iff_getElem.1 (List.pairwise_map.1 ascend)
  constructor
  · intro hless
    by_contra hle
    rcases Nat.lt_or_eq_of_le (Nat.not_lt.1 hle) with hlt | rfl
    · exact Nat.lt_asymm hless (hkeys j i hj hi hlt)
    · exact Nat.lt_irrefl _ hless
  · exact hkeys i j hi hj

/-- The position of the key stays between the two others. -/
theorem bisectFrom_eq_some (ascend : (pairs.map Prod.fst).Pairwise (· < ·)) {lo hi k : Nat}
    (hlo : lo ≤ k) (hhi : k < hi) (hbound : hi ≤ pairs.length)
    (hk : pairs[k]? = some (key, value)) : bisectFrom pairs key lo hi = some value := by
  fun_induction bisectFrom pairs key lo hi with
  | case1 lo hi hlt hnone =>
    have hlength := List.getElem?_eq_none_iff.1 hnone
    omega
  | case2 lo hi _ pair hpair hless ih =>
    have hmiddle := (key_lt_iff ascend hpair hk).1 hless
    exact ih hmiddle hhi hbound
  | case3 lo hi _ pair hpair _ hless ih =>
    have hmiddle := (key_lt_iff ascend hk hpair).1 hless
    exact ih hlo hmiddle (by omega)
  | case4 lo hi _ pair hpair hle hge =>
    have hmiddle : (lo + hi) / 2 = k := by
      have hleft := (key_lt_iff ascend hpair hk).not.1 hle
      have hright := (key_lt_iff ascend hk hpair).not.1 hge
      omega
    rw [hmiddle, hk] at hpair
    cases hpair
    rfl
  | case5 lo hi hge => omega

/-- Halving finds what a search from the front finds. -/
theorem bisect_eq_lookup (ascend : (pairs.map Prod.fst).Pairwise (· < ·)) :
    bisect pairs key = pairs.lookup key := by
  apply Option.ext
  intro value
  rw [lookup_eq_some_iff_mem (ascend.imp Nat.ne_of_lt)]
  constructor
  · exact mem_of_bisectFrom
  · intro hmem
    obtain ⟨k, hk⟩ := List.mem_iff_getElem?.1 hmem
    have hlt := (List.getElem?_eq_some_iff.1 hk).1
    exact bisectFrom_eq_some ascend (Nat.zero_le k) hlt (Nat.le_refl _) hk

end

/-! ## The order of edges -/

namespace MachineStep

/-- The lex rule that is scanned. -/
def lex? : MachineStep → Option Nat
  | scan lex => some lex
  | _ => none

/-- The rule that is completed. -/
def rule? : MachineStep → Option Nat
  | resume rule => some rule
  | _ => none

/-- The steps scan tokens, then complete rules, both in ascending order, and then predict. -/
def Ordered (steps : List MachineStep) : Prop :=
  ∃ (lexes rules : List Nat) (predictions : List MachineStep),
    steps = lexes.map scan ++ rules.map resume ++ predictions ∧
    lexes.Pairwise (· < ·) ∧ rules.Pairwise (· < ·) ∧ ∀ step ∈ predictions, step = predict

variable {steps : List MachineStep}

theorem Ordered.lexes (h : Ordered steps) : (steps.filterMap lex?).Pairwise (· < ·) := by
  obtain ⟨lexes, rules, predictions, rfl, hlexes, -, hpredictions⟩ := h
  have hnone : predictions.filterMap lex? = [] :=
    List.filterMap_eq_nil_iff.2 fun step hstep => by rw [hpredictions step hstep]; rfl
  simpa [List.filterMap_append, List.filterMap_map, Function.comp_def, lex?, hnone] using hlexes

theorem Ordered.rules (h : Ordered steps) : (steps.filterMap rule?).Pairwise (· < ·) := by
  obtain ⟨lexes, rules, predictions, rfl, -, hrules, hpredictions⟩ := h
  have hnone : predictions.filterMap rule? = [] :=
    List.filterMap_eq_nil_iff.2 fun step hstep => by rw [hpredictions step hstep]; rfl
  simpa [List.filterMap_append, List.filterMap_map, Function.comp_def, rule?, hnone] using hrules

end MachineStep

namespace RuleNetwork

/-- The edges for groups stand for their keys. -/
theorem steps_of_groups {step : Nat → MachineStep} {closureOf : List Nat → Except Fault Closure}
    {found : List (Nat × List Nat)} {edges : List MachineEdge}
    (h : (found.mapM fun (key, targets) => do
      let closure ← closureOf targets
      pure (MachineEdge.mk (step key) closure)) = .ok edges) :
    edges.map MachineEdge.step = (found.map Prod.fst).map step := by
  rw [mapM_eq_ok_iff] at h
  induction h with
  | nil => rfl
  | @cons group e _ _ hedge _ ih =>
    obtain ⟨closure, -, hedge⟩ := bind_eq_ok_iff.1 hedge
    cases hedge
    rw [List.map_cons, ih]
    rfl

theorem ordered_of_edges {net : RuleNetwork} {nullable : NullableTable} {c : Closure}
    {edges : List MachineEdge} (h : net.edges nullable c = .ok edges) :
    MachineStep.Ordered (edges.map MachineEdge.step) := by
  obtain ⟨states, -, h⟩ := bind_eq_ok_iff.1 h
  obtain ⟨scans, hscans, h⟩ := bind_eq_ok_iff.1 h
  obtain ⟨resumptions, hresumptions, h⟩ := bind_eq_ok_iff.1 h
  obtain ⟨predictions, hpredictions, h⟩ := bind_eq_ok_iff.1 h
  cases h
  have hlexes := steps_of_groups hscans
  have hrules := steps_of_groups hresumptions
  rw [MachineStep.Ordered, List.map_append, List.map_append, hlexes, hrules]
  refine ⟨_, _, _, rfl, pairwise_groups_fst _, pairwise_groups_fst _, fun step hstep => ?_⟩
  obtain ⟨e, he, rfl⟩ := List.mem_map.1 hstep
  unfold predictEdge at hpredictions
  split at hpredictions
  · cases hpredictions
    cases he
  · obtain ⟨prediction, -, heq⟩ := bind_eq_ok_iff.1 hpredictions
    cases heq
    split at he
    · cases he
    · rw [List.mem_singleton.1 he]

end RuleNetwork

/-! ## The lists of a state -/

namespace Machine

variable {net : RuleNetwork} {g : Grammar} {m : Machine} {id : Nat} {s : MachineState}

/-- A state is made of a closure of the network and the edges that leave it. -/
theorem exists_edges_of_state {closures : Numbering Closure MachineEdge}
    (hclosures : net.closures g = .ok closures) (hm : ofNetwork net g = .ok m)
    (hs : m.state id = .ok s) : ∃ edges, closures.states[id]? = some s.closure ∧
      closures.edges[id]? = some edges ∧ MachineState.ofClosure net s.closure edges = .ok s := by
  obtain ⟨closures', hclosures', hm⟩ := bind_eq_ok_iff.1 hm
  rw [hclosures] at hclosures'
  cases hclosures'
  obtain ⟨states, hstates, hm⟩ := bind_eq_ok_iff.1 hm
  cases hm
  rw [state_eq_ok_iff, List.getElem?_toArray] at hs
  obtain ⟨⟨c, edges⟩, hpair, hmade⟩ := forall₂_getElem?_right (mapM_eq_ok_iff.1 hstates) hs
  rw [List.getElem?_zip_eq_some, Array.getElem?_toList, Array.getElem?_toList] at hpair
  obtain rfl : s.closure = c := by
    obtain ⟨completions, -, heq⟩ := bind_eq_ok_iff.1 hmade
    cases heq
    rfl
  exact ⟨edges, hpair.1, hpair.2, hmade⟩

end Machine

theorem MachineState.keys_of_ofClosure {net : RuleNetwork} {c : Closure}
    {edges : List (MachineEdge × Nat)} {s : MachineState} (h : ofClosure net c edges = .ok s) :
    s.scans.map Prod.fst =
        ((edges.map Prod.fst).map MachineEdge.step).filterMap MachineStep.lex? ∧
      s.gotos.map Prod.fst =
        ((edges.map Prod.fst).map MachineEdge.step).filterMap MachineStep.rule? := by
  obtain ⟨completions, -, heq⟩ := bind_eq_ok_iff.1 h
  cases heq
  constructor
  all_goals
    simp only [List.map_map, List.map_filterMap, List.filterMap_map]
    refine List.filterMap_congr fun e _ => ?_
    obtain ⟨⟨step, closure⟩, target⟩ := e
    cases step <;> rfl

/-! ## What states say -/

namespace Machine

/-- No two states share a closure.  Closures are closed under null transitions and under steps over
calls of nullable rules; the lists of a state ascend and are looked up by halving; a token leads on
where a member of the closure scans it, a rule where a member calls it, and in either case to the
state of what the targets reach silently; and a rule is complete where its exit is a member. -/
structure Structured (net : RuleNetwork) (g : Grammar) (m : Machine) : Prop where
  distinct : ∀ i j s t, m.state i = .ok s → m.state j = .ok t → s.closure = t.closure → i = j
  nullable_iff : ∀ rule < g.rules.length, g.isNullable rule = .ok true ↔ g.Generates rule []
  null_closed : ∀ id s, m.state id = .ok s → ∀ p ∈ s.closure, ∀ q,
    net.nfa.Leaves p (.null q) → q ∈ s.closure
  skip_closed : ∀ id s, m.state id = .ok s → ∀ p ∈ s.closure, ∀ call ∈ net.callsFrom p,
    g.isNullable call.rule = .ok true → call.target ∈ s.closure
  ascending : ∀ id s, m.state id = .ok s →
    (s.scans.map Prod.fst).Pairwise (· < ·) ∧ (s.gotos.map Prod.fst).Pairwise (· < ·)
  bisected : ∀ id s, m.state id = .ok s →
    ∀ key, bisect s.scans key = s.scan key ∧ bisect s.gotos key = s.goto key
  scan_iff : ∀ id s, m.state id = .ok s → ∀ lex target, s.scan lex = some target ↔
    (∃ p ∈ s.closure, ∃ q, net.nfa.Leaves p (.symbol (.scan lex) q)) ∧
    ∃ t, m.state target = .ok t ∧ ∀ r, r ∈ t.closure ↔
      ∃ p ∈ s.closure, ∃ q, net.nfa.Leaves p (.symbol (.scan lex) q) ∧ net.Silent g false q r
  scan_isSome_iff : ∀ id s, m.state id = .ok s → ∀ lex, (s.scan lex).isSome ↔
    ∃ p ∈ s.closure, ∃ q, net.nfa.Leaves p (.symbol (.scan lex) q)
  goto_iff : ∀ id s, m.state id = .ok s → ∀ rule target, s.goto rule = some target ↔
    (∃ p ∈ s.closure, ∃ call ∈ net.callsFrom p, call.rule = rule) ∧
    ∃ t, m.state target = .ok t ∧ ∀ r, r ∈ t.closure ↔
      ∃ p ∈ s.closure, ∃ call ∈ net.callsFrom p, call.rule = rule ∧
        net.Silent g false call.target r
  goto_isSome_iff : ∀ id s, m.state id = .ok s → ∀ rule, (s.goto rule).isSome ↔
    ∃ p ∈ s.closure, ∃ call ∈ net.callsFrom p, call.rule = rule
  completes_iff : ∀ id s, m.state id = .ok s → ∀ rule, s.completes rule = true ↔
    ∃ f, net.fragmentOf? rule = some f ∧ f.exit ∈ s.closure

section

variable {net : RuleNetwork} {g : Grammar} {m : Machine} {id : Nat} {s : MachineState}

/-- States have different numbers because the closures that are explored are different. -/
theorem distinct_of_nodup {closures : Numbering Closure MachineEdge}
    (hclosures : net.closures g = .ok closures) (nodup : closures.states.toList.Nodup)
    (hm : ofNetwork net g = .ok m) (i j : Nat) (s t : MachineState) (hs : m.state i = .ok s)
    (ht : m.state j = .ok t) (heq : s.closure = t.closure) : i = j := by
  obtain ⟨-, hi, -⟩ := exists_edges_of_state hclosures hm hs
  obtain ⟨-, hj, -⟩ := exists_edges_of_state hclosures hm ht
  rw [← Array.getElem?_toList] at hi hj
  have hlt := (List.getElem?_eq_some_iff.1 hi).1
  exact (List.getElem?_inj hlt nodup).1 (by rw [hi, hj, heq])

/-- The lists of a state ascend because edges come in the order of their groups. -/
theorem ascending_of_state (represents : net.Represents g) (nullable : g.NullableExact)
    (hm : ofNetwork net g = .ok m) (hs : m.state id = .ok s) :
    (s.scans.map Prod.fst).Pairwise (· < ·) ∧ (s.gotos.map Prod.fst).Pairwise (· < ·) := by
  obtain ⟨root, closures, hclosures, hspec, -⟩ :=
    RuleNetwork.closures_ok represents nullable (lt_sizeLimit_of_ofNetwork hm)
  obtain ⟨edges, hc, hedges, hmade⟩ := exists_edges_of_state hclosures hm hs
  have hordered := RuleNetwork.ordered_of_edges (hspec.found id _ edges hc hedges)
  obtain ⟨hscans, hgotos⟩ := MachineState.keys_of_ofClosure hmade
  rw [hscans, hgotos]
  exact ⟨hordered.lexes, hordered.rules⟩

/-- A symbol leads to one state at most, which is the one with the closure of what it leads to. -/
theorem Simulates.next_iff (simulates : m.Simulates net g)
    (distinct : ∀ i j s t, m.state i = .ok s → m.state j = .ok t → s.closure = t.closure → i = j)
    (hs : m.state id = .ok s) (symbol : Symbol) (target : Nat) :
    s.next symbol = some target ↔
      (∃ p ∈ s.closure, ∃ q, net.moves p (some symbol) q) ∧ ∃ t, m.state target = .ok t ∧
        ∀ r, r ∈ t.closure ↔ ∃ p ∈ s.closure, net.Next g p symbol r := by
  constructor
  · intro hnext
    exact ⟨(simulates.reads id s hs symbol).1 ⟨target, hnext⟩,
      simulates.next id s hs symbol target hnext⟩
  · rintro ⟨hreads, t, ht, hclosure⟩
    obtain ⟨target', hnext⟩ := (simulates.reads id s hs symbol).2 hreads
    obtain ⟨t', ht', hclosure'⟩ := simulates.next id s hs symbol target' hnext
    have hsame : t'.closure = t.closure :=
      Closure.ext fun r => (hclosure' r).trans (hclosure r).symm
    rw [hnext, distinct target' target t' t ht' ht hsame]

/-- The calls of a rule that leave a closure are the moves of its members with that rule. -/
theorem exists_move_iff_exists_call (represents : net.Represents g) {c : Closure} {rule : Nat} :
    (∃ p ∈ c, ∃ q, net.moves p (some (.rule rule)) q) ↔
      ∃ p ∈ c, ∃ call ∈ net.callsFrom p, call.rule = rule := by
  refine exists_congr fun p => and_congr_right fun _ => ?_
  constructor
  · rintro ⟨q, hmove⟩
    exact ⟨_, hmove, rfl⟩
  · rintro ⟨call, hcall, rfl⟩
    exact ⟨call.target, represents.moves_of_mem_callsFrom hcall⟩

/-- What a rule leads to is what the continuations of its calls reach silently. -/
theorem exists_next_iff_exists_call (represents : net.Represents g) {c : Closure} {rule r : Nat} :
    (∃ p ∈ c, net.Next g p (.rule rule) r) ↔ ∃ p ∈ c, ∃ call ∈ net.callsFrom p,
      call.rule = rule ∧ net.Silent g false call.target r := by
  refine exists_congr fun p => and_congr_right fun _ => ?_
  constructor
  · rintro ⟨q, hmove, hsilent⟩
    exact ⟨_, hmove, rfl, hsilent⟩
  · rintro ⟨call, hcall, rfl, hsilent⟩
    exact ⟨call.target, represents.moves_of_mem_callsFrom hcall, hsilent⟩

theorem structured_of_ofNetwork (represents : net.Represents g) (simulates : m.Simulates net g)
    (nullable : g.NullableExact) (hm : ofNetwork net g = .ok m) : m.Structured net g := by
  obtain ⟨root, closures, hclosures, hspec, -⟩ :=
    RuleNetwork.closures_ok represents nullable (lt_sizeLimit_of_ofNetwork hm)
  have distinct := distinct_of_nodup hclosures hspec.nodup hm
  have hnullable : ∀ rule < g.rules.length,
      (g.isNullable rule = .ok true ↔ g.Generates rule []) := by
    intro rule hlt
    have hr := List.getElem?_eq_getElem hlt
    rw [← nullable rule _ hr]
    unfold Grammar.isNullable Grammar.rule
    rw [hr]
    simp [Except.map]
  constructor
  case distinct => exact distinct
  case nullable_iff => exact hnullable
  case null_closed =>
    intro id s hs p hp q hnull
    exact simulates.closed id s hs p hp q (.null hnull)
  case skip_closed =>
    intro id s hs p hp call hcall hmarked
    have hmove := represents.moves_of_mem_callsFrom hcall
    obtain ⟨f, hf⟩ := represents.callee p _ _ hmove
    have hlt := (represents.fragment_lt _ f hf).1
    exact simulates.closed id s hs p hp _ (.skip hmove ((hnullable _ hlt).1 hmarked))
  case ascending => exact fun id s hs => ascending_of_state represents nullable hm hs
  case bisected =>
    intro id s hs key
    obtain ⟨hscans, hgotos⟩ := ascending_of_state represents nullable hm hs
    exact ⟨bisect_eq_lookup hscans, bisect_eq_lookup hgotos⟩
  case scan_iff => exact fun id s hs lex => simulates.next_iff distinct hs (.lex lex)
  case scan_isSome_iff =>
    intro id s hs lex
    rw [Option.isSome_iff_exists]
    exact simulates.reads id s hs (.lex lex)
  case goto_iff =>
    intro id s hs rule target
    refine (simulates.next_iff distinct hs (.rule rule) target).trans ?_
    simp only [exists_move_iff_exists_call represents, exists_next_iff_exists_call represents]
  case goto_isSome_iff =>
    intro id s hs rule
    rw [Option.isSome_iff_exists]
    exact (simulates.reads id s hs (.rule rule)).trans (exists_move_iff_exists_call represents)
  case completes_iff => exact simulates.completes_iff

end

/-- The network of a grammar that was built has a machine if its states fit in memory.  The loops
that make the machine end by themselves, with one array of marks for all closures and a queue of
those that wait, and the machine is structured. -/
theorem machine_structured {d : Declarations} {g : Grammar} (declared : Declarations.Declared d)
    (built : d.build = .ok (.ok g)) : ∃ net, RuleNetwork.ofGrammar g = .ok net ∧
      ((∃ m, ofNetwork net g = .ok m) ↔ net.nfa.size < sizeLimit) ∧
      ∀ m, ofNetwork net g = .ok m → Checked.machineOf net g = some m ∧ m.Structured net g := by
  have wellFormed := Declarations.wellFormed_of_build declared built
  have nullable := nullableExact_of_build declared built
  obtain ⟨net, hnet, represents⟩ := RuleNetwork.ofGrammar_ok wellFormed
  refine ⟨net, hnet, ⟨fun ⟨m, hm⟩ => lt_sizeLimit_of_ofNetwork hm, fun hlimit => ?_⟩,
    fun m hm => ⟨?_, ?_⟩⟩
  · obtain ⟨m, hm, -⟩ := ofNetwork_ok represents nullable hlimit
    exact ⟨m, hm⟩
  · exact Checked.machineOf_eq represents nullable (lt_sizeLimit_of_ofNetwork hm) hm
  · obtain ⟨-, simulates⟩ := simulates_network wellFormed nullable hnet
      (bind_eq_ok_iff.2 ⟨net, hnet, hm⟩)
    exact structured_of_ofNetwork represents simulates nullable hm

/-- The network of balanced parentheses has a machine, which is structured. -/
theorem machine_structured_balanced : ∃ g net m, Declarations.balanced.build = .ok (.ok g) ∧
    RuleNetwork.ofGrammar g = .ok net ∧ ofNetwork net g = .ok m ∧ m.Structured net g := by
  obtain ⟨g, built, wellFormed, -, hsize, -⟩ := Recognizer.generates_balanced
  obtain ⟨net, hnet, hexists, hall⟩ := machine_structured Declarations.declared_balanced built
  have hle := RuleNetwork.size_le_stateCount wellFormed hnet
  obtain ⟨m, hm⟩ := hexists.2 (Nat.lt_of_le_of_lt hle hsize)
  exact ⟨g, net, m, built, hnet, hm, (hall m hm).2⟩

end Machine

end LexChart
