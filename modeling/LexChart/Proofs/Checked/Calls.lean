import LexChart.Proofs.Checked.Recognizer
import LexChart.Proofs.Recognizer.Exactness
set_option autoImplicit false

/-!
# Calls that change a chart

Tokens are read into one chart, which every call changes in place.  A call can be refused, or break
off, after it has begun to change the chart; what it did before then stays done.  So that a refused
call leaves no trace is a fact about the order of its steps: everything that can go wrong comes
before the first change.

Calls come in any order, with any location and any token.  `Outcome` says what one call does to the
chart of a recognizer, and `Orderly` holds of the chart after all of them.
-/

namespace LexChart

/-! ## Charts in order -/

/-- The set stands at its location, it has items, none of them twice, and looks up the ones it
lists; all of them have states of the machine. -/
structure ChartSet.Orderly (m : Machine) (location : Nat) (set : ChartSet) : Prop where
  location_eq : set.location = location
  nonempty : 0 < set.size
  nodup : set.items.toList.Nodup
  contains_iff : ∀ i, set.contains i = true ↔ i ∈ set.items
  known : ∀ i ∈ set.items, ∃ s, m.state i.state = .ok s

/-- All sets of the chart are in order, each at its own location. -/
def Chart.Orderly (m : Machine) (chart : Chart) : Prop :=
  ∀ location set, chart.set location = .ok set → set.Orderly m location

theorem ChartSet.orderly_of_fits {m : Machine} {location : Nat} {set : ChartSet}
    (hlocation : set.location = location) (fits : set.Fits m) {i : ChartItem} (hi : i ∈ set.items) :
    set.Orderly m location :=
  ⟨hlocation, Array.size_pos_of_mem hi, fits.nodup, fun _ => ChartSet.contains_iff,
    fun j hj => Machine.exists_state_of_lt (fits.state_lt j hj)⟩

namespace Recognizer

/-- A recognizer is its machine and its chart, which say what is waiting. -/
theorem eq_of_chart {r s : Recognizer} (hmachine : r.machine = s.machine)
    (hchart : r.chart = s.chart) : r = s := by
  obtain ⟨m, chart, waiting, hwaiting⟩ := r
  obtain ⟨m', chart', waiting', hwaiting'⟩ := s
  cases hmachine
  cases hchart
  cases hwaiting
  cases hwaiting'
  rfl

variable {r : Recognizer} {token : Nat} {next : ChartSet}

/-- A token that is scanned begins the set behind it. -/
theorem NextSet.orderly (h : r.NextSet token next) (hscans : r.Scans token) :
    next.Orderly r.machine r.chart.size := by
  obtain ⟨i, s, target, hi, hs, hscan⟩ := hscans
  exact ChartSet.orderly_of_fits h.location_eq h.fits ((h.mem_iff _).2 (.scan hi hs hscan))

theorem orderly_push (valid : r.Valid) (orderly : r.chart.Orderly r.machine)
    (hnext : next.Orderly r.machine r.chart.size) : (r.push next).chart.Orderly r.machine := by
  intro location set hset
  rw [set_push valid] at hset
  split at hset
  · rename_i heq
    cases hset
    rw [heq, valid.location_succ]
    exact hnext
  · exact orderly location set hset

/-- The first chart has one set. -/
theorem orderly_ofMachine {m : Machine} (closed : m.Closed) :
    ∃ r, ofMachine m = .ok r ∧ r.machine = m ∧ r.Valid ∧ r.chart.size = 1 ∧ r.chart.Orderly m := by
  obtain ⟨r, hr, rfl, valid, hlocation, ⟨set, hset, hi⟩, -⟩ := ofMachine_ok closed
  have hsize : r.chart.size = 1 := by rw [← valid.location_succ, hlocation]
  refine ⟨r, hr, rfl, valid, hsize, fun location found hfound => ?_⟩
  obtain rfl : location = 0 := by
    have hlt := Chart.lt_of_set hfound
    omega
  obtain rfl := Except.ok.inj (hset.symm.trans hfound)
  obtain ⟨hat, fits, -⟩ := valid.sets 0 set hset
  exact ChartSet.orderly_of_fits hat fits hi

end Recognizer

namespace Checked

/-! ## Steps that change a chart -/

/-- Steps on a chart that may break off; what was done to the chart before stays done. -/
abbrev Charting (α : Type) := OptionT (StateM Chart) α

namespace Charting

variable {α β : Type}

/-- The answer, and the chart that is left. -/
def runOn (x : Charting α) (chart : Chart) : Option α × Chart := (x.run.run chart).run

/-- Breaks off where there is no value. -/
def need (found : Option α) : Charting α := OptionT.mk (pure found)

/-- One change of the chart. -/
def change (step : Chart → Option Chart) : Charting Unit := do
  let chart ← get
  let chart ← need (step chart)
  set chart

/-- The steps answer, and change a chart into another one. -/
def Does (x : Charting α) (chart : Chart) (a : α) (chart' : Chart) : Prop :=
  x.runOn chart = (some a, chart')

variable {x : Charting α} {f : α → Charting β} {chart chart' chart'' : Chart} {a : α} {b : β}

theorem runOn_bind (x : Charting α) (f : α → Charting β) (chart : Chart) :
    (x >>= f).runOn chart = match x.runOn chart with
      | (none, chart') => (none, chart')
      | (some a, chart') => (f a).runOn chart' := by
  unfold runOn
  rw [OptionT.run_bind, Option.elimM, StateT.run_bind]
  show (match (x.run.run chart : Option α × Chart) with | (a, chart') => _) = _
  rcases (x.run.run chart : Option α × Chart) with ⟨_ | a, chart'⟩ <;> rfl

theorem Does.bind (h : x.Does chart a chart') (k : (f a).Does chart' b chart'') :
    (x >>= f).Does chart b chart'' := by
  unfold Does at *
  rw [runOn_bind, h]
  exact k

theorem Does.then_breaks (h : x.Does chart a chart') (k : (f a).runOn chart' = (none, chart'')) :
    (x >>= f).runOn chart = (none, chart'') := by
  rw [runOn_bind, h]
  exact k

theorem does_pure (a : α) (chart : Chart) : (pure a : Charting α).Does chart a chart := rfl

theorem does_get (chart : Chart) : (get : Charting Chart).Does chart chart chart := rfl

theorem does_need {found : Option α} (h : found = some a) (chart : Chart) :
    (need found).Does chart a chart := by
  rw [h]
  rfl

theorem does_change {step : Chart → Option Chart} (h : step chart = some chart') :
    (change step).Does chart () chart' :=
  (does_get chart).bind ((does_need h chart).bind rfl)

/-- Changes made one after the other. -/
theorem does_forM {step : α → Chart → Option Chart} {xs : List α}
    (h : xs.foldlM (fun (chart : Chart) a => step a chart) chart = some chart') :
    (xs.forM fun a => change (step a)).Does chart () chart' := by
  induction xs generalizing chart with
  | nil =>
    cases h
    exact does_pure () chart'
  | cons a xs ih =>
    rw [List.foldlM_cons] at h
    obtain ⟨between, hfirst, hrest⟩ := Option.bind_eq_some_iff.1 h
    exact (does_change hfirst).bind (ih hrest)

end Charting

/-! ## One call -/

/-- `Recognizer.advance`, in place: the token is looked for in the last set, and if it is found a
new set is opened and grown. -/
def read (m : Machine) (location token : Nat) : Charting (Except Diagnostic Unit) := do
  let chart ← get
  let last ← Charting.need (lastLocation chart)
  if location ≠ last then failure
  else
    let set ← Charting.need (chart.set location).toOption
    let items ← Charting.need (Recognizer.scanned m set token).toOption
    if items.isEmpty then
      let expected ← Charting.need (expectedNames m chart)
      pure (.error ⟨.noViableContinuation location (m.lexName token) expected, none⟩)
    else
      let next := location + 1
      Charting.change fun chart => some (pushSet chart)
      items.forM fun i => Charting.change fun chart => add m next chart i
      Charting.change (completeFrom m next (m.size * (next + 1) + 1) 0)
      pure (.ok ())

/-- What a call answers on the chart of a recognizer, and the chart it leaves. -/
inductive Outcome (r : Recognizer) (location token : Nat) :
    Option (Except Diagnostic Unit) × Chart → Prop where
  | accepted {next : ChartSet} : location = r.location →
      r.advance location token = .ok (.ok (r.push next)) →
      next.Orderly r.machine r.chart.size →
      Outcome r location token (some (.ok ()), r.chart.push next)
  | rejected {refusal : Diagnostic} : location = r.location →
      r.advance location token = .ok (.error refusal) →
      Outcome r location token (some (.error refusal), r.chart)
  | misplaced : location ≠ r.location →
      r.advance location token = .error (.wrongLocation location r.location) →
      Outcome r location token (none, r.chart)

section

open Charting (does_get does_need does_change does_forM does_pure)

variable {r : Recognizer} {token : Nat}

theorem read_misplaced (valid : r.Valid) {location : Nat} (h : location ≠ r.location) :
    (read r.machine location token).runOn r.chart = (none, r.chart) := by
  refine (does_get r.chart).then_breaks ?_
  refine (does_need (lastLocation_eq valid) r.chart).then_breaks ?_
  rw [if_pos h]
  rfl

/-- The chart behind a call that was answered. -/
def chartBehind (r : Recognizer) : Except Diagnostic Recognizer → Chart
  | .ok s => s.chart
  | .error _ => r.chart

/-- A call at the last location answers as `Recognizer.advance` does.  The first change comes behind
the last step that can refuse the token. -/
theorem read_answered (valid : r.Valid) {answer : Except Diagnostic Recognizer}
    (h : r.advance r.location token = .ok answer) :
    (read r.machine r.location token).Does r.chart (answer.map fun _ => ())
      (chartBehind r answer) := by
  unfold Recognizer.advance at h
  rw [if_neg fun hne => hne rfl] at h
  obtain ⟨set, hset, h⟩ := bind_eq_ok_iff.1 h
  obtain ⟨items, hitems, h⟩ := bind_eq_ok_iff.1 h
  refine (does_get r.chart).bind ?_
  refine (does_need (lastLocation_eq valid) r.chart).bind ?_
  rw [if_neg fun hne => hne rfl]
  refine (does_need (toOption_of_ok hset) r.chart).bind ?_
  refine (does_need (toOption_of_ok hitems) r.chart).bind ?_
  split
  · rename_i hempty
    rw [if_pos hempty] at h
    obtain ⟨expected, hexpected, h⟩ := bind_eq_ok_iff.1 h
    cases h
    exact (does_need (expectedNames_eq valid hexpected) r.chart).bind (does_pure _ r.chart)
  · rename_i hempty
    rw [if_neg hempty] at h
    obtain ⟨start, hstart, h⟩ := bind_eq_ok_iff.1 h
    obtain ⟨next, hnext, h⟩ := bind_eq_ok_iff.1 h
    cases h
    obtain ⟨hadded, hcompleted⟩ := nextChart_eq valid hset hitems hstart hnext
    have hopened : (Charting.change fun chart => some (pushSet chart)).Does r.chart ()
        (pushSet r.chart) := does_change rfl
    refine hopened.bind ?_
    refine (does_forM hadded).bind ?_
    exact (does_change hcompleted).bind (does_pure _ (r.chart.push next))

/-- One call on a chart in order. -/
theorem outcome_read (valid : r.Valid) (location token : Nat) :
    Outcome r location token ((read r.machine location token).runOn r.chart) := by
  by_cases hlocation : location = r.location
  · subst hlocation
    by_cases hscans : r.Scans token
    · obtain ⟨next, hnext, hset⟩ := Recognizer.advance_of_scans valid hscans
      have hread : (read r.machine r.location token).runOn r.chart =
          (some (.ok ()), r.chart.push next) := read_answered valid hnext
      rw [hread]
      exact .accepted rfl hnext (hset.orderly hscans)
    · obtain ⟨expected, hexpected, -⟩ := Recognizer.expected_ok valid
      have hrejected := Recognizer.advance_of_not_scans valid hscans hexpected
      have hread : (read r.machine r.location token).runOn r.chart = (some (.error _), r.chart) :=
        read_answered valid hrejected
      rw [hread]
      exact .rejected rfl hrejected
  · rw [read_misplaced valid hlocation]
    exact .misplaced hlocation (if_pos hlocation)

section

variable {g : Grammar} {tokens : List Nat} {answered : Option (Except Diagnostic Unit) × Chart}

/-- A token that can come next is accepted at the last location. -/
theorem Outcome.accepted_of_continues (wellFormed : g.WellFormed) (nullable : g.NullableExact)
    (reached : Recognizer.ReachedBy g tokens r) (h : g.Continues tokens token)
    (houtcome : Outcome r r.location token answered) :
    ∃ next, answered = (some (.ok ()), r.chart.push next) ∧
      r.advance r.location token = .ok (.ok (r.push next)) := by
  obtain ⟨net, agrees, hend⟩ := reached.agrees wellFormed nullable
  obtain ⟨next, hnext, -⟩ :=
    Recognizer.advance_of_scans agrees.valid ((agrees.scans_iff_continues hend token).2 h)
  cases houtcome with
  | accepted _ hadvance _ => exact ⟨_, rfl, hadvance⟩
  | rejected _ hadvance => cases hnext.symm.trans hadvance
  | misplaced hne _ => exact absurd rfl hne

/-- Any other token is rejected there. -/
theorem Outcome.rejected_of_not_continues (wellFormed : g.WellFormed) (nullable : g.NullableExact)
    (reached : Recognizer.ReachedBy g tokens r) (h : ¬ g.Continues tokens token)
    (houtcome : Outcome r r.location token answered) :
    ∃ refusal, answered = (some (.error refusal), r.chart) := by
  obtain ⟨net, agrees, hend⟩ := reached.agrees wellFormed nullable
  cases houtcome with
  | accepted _ hadvance _ =>
    have hscans := Recognizer.scans_of_advance agrees.valid hadvance
    exact absurd ((agrees.scans_iff_continues hend token).1 hscans) h
  | rejected _ _ => exact ⟨_, rfl⟩
  | misplaced hne _ => exact absurd rfl hne

theorem Outcome.misplaced_of_ne {location : Nat} (h : location ≠ r.location)
    (houtcome : Outcome r location token answered) : answered = (none, r.chart) := by
  cases houtcome with
  | accepted heq _ _ => exact absurd heq h
  | rejected heq _ => exact absurd heq h
  | misplaced _ _ => rfl

end

/-- Whatever a call does, the sets that were there stay. -/
theorem Outcome.isPrefix {location : Nat} {answer : Option (Except Diagnostic Unit)}
    {chart : Chart} (h : Outcome r location token (answer, chart)) :
    r.chart.sets.toList <+: chart.sets.toList := by
  cases h with
  | accepted _ _ _ =>
    show r.chart.sets.toList <+: (r.chart.sets.push _).toList
    rw [Array.toList_push]
    exact List.prefix_append _ _
  | rejected _ _ => exact List.prefix_rfl
  | misplaced _ _ => exact List.prefix_rfl

end

/-! ## Calls one after the other -/

/-- The chart behind some calls, each with a location and a token, whatever they answered. -/
def chartAfter (m : Machine) (chart : Chart) (calls : List (Nat × Nat)) : Chart :=
  calls.foldl (fun chart call => ((read m call.1 call.2).runOn chart).2) chart

theorem chartAfter_concat (m : Machine) (chart : Chart) (calls : List (Nat × Nat))
    (call : Nat × Nat) : chartAfter m chart (calls ++ [call]) =
      ((read m call.1 call.2).runOn (chartAfter m chart calls)).2 :=
  List.foldl_concat _ chart call calls

section

variable {g : Grammar} {m : Machine} {start : Recognizer}

/-- After all calls the chart is the one behind the tokens of those that were accepted. -/
theorem exists_reached (wellFormed : g.WellFormed) (nullable : g.NullableExact)
    (hm : Machine.ofGrammar g = .ok m) (hstart : Recognizer.ofMachine m = .ok start)
    (orderly : start.chart.Orderly m) (calls : List (Nat × Nat)) :
    ∃ r tokens, Recognizer.ReachedBy g tokens r ∧ r.machine = m ∧ r.Valid ∧
      r.chart.Orderly m ∧ r.chart = chartAfter m start.chart calls := by
  have hvalid : ∀ tokens r, Recognizer.ReachedBy g tokens r → r.Valid := by
    intro tokens r reached
    obtain ⟨net, agrees, -⟩ := reached.agrees wellFormed nullable
    exact agrees.valid
  induction calls using List.reverseRecOn with
  | nil =>
    have reached : Recognizer.ReachedBy g [] start := ⟨m, start, hm, hstart, .nil start⟩
    refine ⟨start, [], reached, ?_, hvalid _ _ reached, orderly, rfl⟩
    obtain ⟨set, -, h⟩ := bind_eq_ok_iff.1 hstart
    cases h
    rfl
  | append_singleton calls call ih =>
    obtain ⟨r, tokens, reached, rfl, valid, orderly, heq⟩ := ih
    rw [chartAfter_concat, ← heq]
    have houtcome := outcome_read valid call.1 call.2
    generalize (read r.machine call.1 call.2).runOn r.chart = answered at houtcome ⊢
    cases houtcome with
    | @accepted next hlocation hadvance hnext =>
      rw [hlocation] at hadvance
      have reached' := reached.concat hadvance
      exact ⟨_, _, reached', rfl, hvalid _ _ reached', Recognizer.orderly_push valid orderly hnext,
        rfl⟩
    | rejected _ _ => exact ⟨r, tokens, reached, rfl, valid, orderly, rfl⟩
    | misplaced _ _ => exact ⟨r, tokens, reached, rfl, valid, orderly, rfl⟩

end

/-- Calls of any kind and number keep the chart in order.  An accepted call puts one more set behind
it, any other one leaves it as it is, and so the chart only ever goes on. -/
theorem chart_orderly {d : Declarations} {g : Grammar} {m : Machine}
    (declared : Declarations.Declared d) (built : d.build = .ok (.ok g))
    (hm : Machine.ofGrammar g = .ok m) :
    ∃ first, startChart m = some first ∧ first.size = 1 ∧ ∀ calls,
      (∃ r tokens, Recognizer.ReachedBy g tokens r ∧ r.machine = m ∧
        r.chart = chartAfter m first calls ∧ ∀ location token, Outcome r location token
          ((read m location token).runOn (chartAfter m first calls))) ∧
      (chartAfter m first calls).Orderly m ∧
      ∀ more, (chartAfter m first calls).sets.toList <+:
        (chartAfter m first (calls ++ more)).sets.toList := by
  have wellFormed := Declarations.wellFormed_of_build declared built
  have nullable := nullableExact_of_build declared built
  obtain ⟨net, -, simulates⟩ := Machine.simulates_of_ofGrammar wellFormed nullable hm
  obtain ⟨start, hstart, rfl, -, hsize, orderly⟩ :=
    Recognizer.orderly_ofMachine simulates.closed_states
  have hreached := exists_reached wellFormed nullable hm hstart orderly
  refine ⟨start.chart, startChart_eq simulates.closed_states hstart, hsize, fun calls => ?_⟩
  obtain ⟨r, tokens, reached, hmachine, valid, hr, heq⟩ := hreached calls
  refine ⟨⟨r, tokens, reached, hmachine, heq, fun location token => ?_⟩, heq ▸ hr, fun more => ?_⟩
  · rw [← heq, ← hmachine]
    exact outcome_read valid location token
  · induction more using List.reverseRecOn with
    | nil =>
      rw [List.append_nil]
    | append_singleton more call ih =>
      obtain ⟨s, -, -, hmachine, valid, -, heq⟩ := hreached (calls ++ more)
      refine ih.trans ?_
      rw [← List.append_assoc, chartAfter_concat, ← heq, ← hmachine]
      exact (outcome_read valid call.1 call.2).isPrefix

/-- Of four calls, the second one with a token that the grammar does not have, the third one far
behind the chart, the first and the last one are accepted and put a set each behind the chart. -/
theorem chart_orderly_balanced : ∃ g m first second third,
    Declarations.balanced.build = .ok (.ok g) ∧ Machine.ofGrammar g = .ok m ∧
    startChart m = some first ∧ first.size = 1 ∧
    (read m 0 0).runOn first = (some (.ok ()), first.push second) ∧
    (∃ refusal, (read m 1 2).runOn (first.push second) =
      (some (.error refusal), first.push second)) ∧
    (read m 5 0).runOn (first.push second) = (none, first.push second) ∧
    chartAfter m first [(0, 0), (1, 2), (5, 0), (1, 1)] = (first.push second).push third ∧
    ((first.push second).push third).Orderly m := by
  obtain ⟨g, built, wellFormed, nullable, hsize, hlex, hpair⟩ := Recognizer.generates_balanced
  obtain ⟨m, hm⟩ := Machine.ofGrammar_ok wellFormed nullable hsize
  obtain ⟨first, hfirst, hone, hall⟩ := chart_orderly Declarations.declared_balanced built hm
  have hopen : g.Continues [] 0 := ⟨[.lex 1], hpair⟩
  have hclose : g.Continues [0] 1 := ⟨[], hpair⟩
  have hunknown : ∀ tokens, ¬ g.Continues tokens 2 := by
    intro tokens h
    have hlt := h.lt wellFormed
    omega
  obtain ⟨⟨r, tokens, reached, rfl, hchart, houtcome⟩, -⟩ := hall []
  obtain rfl : r.chart = first := hchart
  have hlocation : r.location = 0 := by
    unfold Recognizer.location
    omega
  obtain ⟨net, -, hend⟩ := reached.agrees wellFormed nullable
  obtain rfl : tokens = [] := List.eq_nil_of_length_eq_zero (hend.symm.trans hlocation)
  obtain ⟨second, hread, hadvance⟩ :=
    (houtcome r.location 0).accepted_of_continues wellFormed nullable reached hopen
  rw [hlocation] at hread
  replace hread : (read r.machine 0 0).runOn r.chart =
      (some (.ok ()), (r.push second).chart) := hread
  have reached' := reached.concat hadvance
  obtain ⟨⟨s, -, -, hmachine, hchart', houtcome'⟩, -⟩ := hall [(0, 0)]
  have hafter : chartAfter r.machine r.chart [(0, 0)] = (r.push second).chart :=
    congrArg Prod.snd hread
  obtain rfl : s = r.push second := Recognizer.eq_of_chart hmachine (hchart'.trans hafter)
  rw [hafter] at houtcome'
  obtain ⟨net', -, hend'⟩ := reached'.agrees wellFormed nullable
  have hlocation' : (r.push second).location = 1 := hend'
  obtain ⟨refusal, hrefused⟩ := (houtcome' (r.push second).location 2).rejected_of_not_continues
    wellFormed nullable reached' (hunknown _)
  have hmisplaced := (houtcome' 5 0).misplaced_of_ne (by omega)
  obtain ⟨third, hread', -⟩ := (houtcome' (r.push second).location 1).accepted_of_continues
    wellFormed nullable reached' hclose
  rw [hlocation'] at hrefused hread'
  have hcalls : chartAfter r.machine r.chart [(0, 0), (1, 2), (5, 0), (1, 1)] =
      (r.push second).chart.push third := by
    simp only [chartAfter, List.foldl_cons, List.foldl_nil, hread, hrefused, hmisplaced, hread']
  obtain ⟨-, orderly, -⟩ := hall [(0, 0), (1, 2), (5, 0), (1, 1)]
  rw [hcalls] at orderly
  exact ⟨g, r.machine, r.chart, second, third, built, hm, hfirst, hone, hread, ⟨refusal, hrefused⟩,
    hmisplaced, hcalls, orderly⟩

end Checked

end LexChart
