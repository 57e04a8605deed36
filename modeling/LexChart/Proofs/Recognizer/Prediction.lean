import LexChart.Proofs.Recognizer.Exactness
set_option autoImplicit false

/-!
# Kernels, predictions and origins

An edge that scans a token or goes on behind a rule leads to a kernel.  Silent steps out of a move
never come to the entry of a rule, so a kernel holds no entry.  An edge that predicts leads to
everything that can be predicted on the way, so behind it there is nothing left to predict.

An item for a kernel therefore began earlier than the set that it is inserted in, and whatever a set
calls begins in the set itself: no closure mixes the two, and one origin is enough for all of it.
-/

namespace LexChart

variable {net : RuleNetwork} {g : Grammar} {m : Machine}

namespace RuleNetwork

/-- Steps that predict nothing come to the entry of a rule only if they begin there. -/
theorem Silent.eq_entry (represents : net.Represents g) {p rule : Nat} {f : Fragment}
    (hf : net.fragmentOf? rule = some f) (h : net.Silent g false p f.entry) : p = f.entry := by
  rcases Relation.ReflTransGen.cases_tail h with heq | ⟨q, -, hstep⟩
  · exact heq.symm
  · generalize hentry : f.entry = entry at hstep
    cases hstep with
    | null hmove => exact absurd hmove (hentry ▸ represents.entry_ne rule f hf _ _)
    | skip hmove _ => exact absurd hmove (hentry ▸ represents.entry_ne rule f hf _ _)
    | enter hpredict _ _ => cases hpredict

/-- No symbol leads to the entry of a rule. -/
theorem not_next_entry (represents : net.Represents g) {p rule : Nat} {f : Fragment}
    (hf : net.fragmentOf? rule = some f) (s : Symbol) : ¬ net.Next g p s f.entry := by
  rintro ⟨q, hmove, hsilent⟩
  obtain rfl := hsilent.eq_entry represents hf
  exact represents.entry_ne rule f hf _ _ hmove

/-- What is predicted by something predicted is predicted. -/
theorem Predicted.trans {p q r : Nat} (h : net.Predicted g p q) (k : net.Predicted g q r) :
    net.Predicted g p r := by
  obtain ⟨entry, henters, hsilent⟩ := h
  obtain ⟨_, ⟨rule, target, f, hmove, hf, rfl⟩, hrest⟩ := k
  exact ⟨entry, henters, (hsilent.tail (.enter rfl hmove hf)).trans hrest⟩

end RuleNetwork

namespace Machine

/-- An edge that scans a token or goes on behind a rule leads to the state. -/
def IsKernel (m : Machine) (target : Nat) : Prop :=
  ∃ id s symbol, m.state id = .ok s ∧ s.Lists symbol target

/-- An edge that predicts leads to the state. -/
def IsPrediction (m : Machine) (target : Nat) : Prop :=
  ∃ id s, m.state id = .ok s ∧ s.prediction = some target

/-- A kernel holds no entry of a rule. -/
theorem Simulates.not_mem_of_isKernel (simulates : m.Simulates net g)
    (represents : net.Represents g) {target : Nat} (h : m.IsKernel target) :
    ∃ t, m.state target = .ok t ∧ ∀ rule f, net.fragmentOf? rule = some f → f.entry ∉ t.closure := by
  obtain ⟨id, s, symbol, hs, hlists⟩ := h
  obtain ⟨t, ht, hmem⟩ := simulates.lists id s hs symbol target hlists
  refine ⟨t, ht, fun rule f hf hentry => ?_⟩
  obtain ⟨p, -, hnext⟩ := (hmem f.entry).1 hentry
  exact RuleNetwork.not_next_entry represents hf symbol hnext

/-- A prediction predicts nothing further. -/
theorem Simulates.prediction_eq_none (simulates : m.Simulates net g) {target : Nat}
    (h : m.IsPrediction target) : ∃ t, m.state target = .ok t ∧ t.prediction = none := by
  obtain ⟨id, s, hs, hprediction⟩ := h
  obtain ⟨t, ht, hmem⟩ := simulates.predicts id s hs target hprediction
  refine ⟨t, ht, ?_⟩
  cases hsecond : t.prediction with
  | none => rfl
  | some second =>
    obtain ⟨p, hp, r, hpredicted, hnew⟩ := simulates.adds target t ht second hsecond
    obtain ⟨q, hq, hfirst⟩ := (hmem p).1 hp
    exact absurd ((hmem r).2 ⟨q, hq, hfirst.trans hpredicted⟩) hnew

end Machine

namespace Recognizer

variable {r : Recognizer} {tokens : List Nat}

/-- Reading a token leaves the machine as it is. -/
theorem machine_eq_of_advance {s : Recognizer} {location token : Nat}
    (h : r.advance location token = .ok (.ok s)) : s.machine = r.machine := by
  unfold advance at h
  split at h
  · cases h
  · obtain ⟨set, -, h⟩ := bind_eq_ok_iff.1 h
    obtain ⟨items, -, h⟩ := bind_eq_ok_iff.1 h
    split at h
    · obtain ⟨expected, -, h⟩ := bind_eq_ok_iff.1 h
      cases h
    · obtain ⟨start, -, h⟩ := bind_eq_ok_iff.1 h
      obtain ⟨next, -, h⟩ := bind_eq_ok_iff.1 h
      cases h
      rfl

theorem ReachedBy.machine_eq (hm : Machine.ofGrammar g = .ok m) (h : ReachedBy g tokens r) :
    r.machine = m := by
  obtain ⟨m', start, hm', hstart, hreads⟩ := h
  rw [hm] at hm'
  cases hm'
  have hfirst : start.machine = m := by
    obtain ⟨set, -, h⟩ := bind_eq_ok_iff.1 hstart
    cases h
    rfl
  clear hstart
  induction hreads with
  | nil => exact hfirst
  | cons hadvance _ ih => exact ih ((machine_eq_of_advance hadvance).trans hfirst)

/-- What a token scans began before the set behind it. -/
theorem Valid.scanned_ok (valid : r.Valid) (token : Nat) : ∃ set items,
    r.chart.set r.location = .ok set ∧ scanned r.machine set token = .ok items ∧
    ∀ i ∈ items, i.origin < r.chart.size := by
  obtain ⟨set, hset⟩ := valid.exists_last
  obtain ⟨items, hitems, hmem⟩ := Recognizer.scanned_ok (valid.sets _ set hset).2.1 token
  refine ⟨set, items, hset, hitems, fun j hj => ?_⟩
  obtain ⟨i, hi, s, target, -, -, rfl⟩ := (hmem j).1 hj
  have hle := (valid.state_of_holds ⟨set, hset, hi⟩).2
  rw [← valid.location_succ]
  exact Nat.lt_succ_of_le hle

/-- What resumes behind a completed rule began before the set that it is resumed in. -/
theorem Valid.resumed_ok (valid : r.Valid) {i : ChartItem} (hi : i.state < r.machine.size) :
    ∃ items, r.resumed r.chart.size i = .ok items ∧ ∀ j ∈ items, j.origin < r.chart.size := by
  obtain ⟨items, hitems, hmem⟩ := Recognizer.resumed_ok valid hi
  refine ⟨items, hitems, fun j hj => ?_⟩
  obtain ⟨horigin, _, _, w, _, _, -, -, hw, -, -, rfl⟩ := (hmem j).1 hj
  exact Nat.lt_of_le_of_lt (valid.state_of_holds hw).2 horigin

/-- The rule of a call is predicted wherever the call is active. -/
theorem Agrees.covers_callee (agrees : Agrees net g tokens r) {location p : Nat} {i : ChartItem}
    {s : MachineState} {call : Call} (hi : r.chart.Holds location i)
    (hs : r.machine.state i.state = .ok s) (hp : p ∈ s.closure) (hcall : call ∈ net.callsFrom p) :
    ∃ f, net.fragmentOf? call.rule = some f ∧
      r.chart.Covers r.machine location location f.entry := by
  have hmove := agrees.represents.moves_of_mem_callsFrom hcall
  obtain ⟨f, hf⟩ := agrees.represents.callee p call.rule call.target hmove
  obtain ⟨set, hset, -⟩ := id hi
  have hle : location ≤ r.location := by
    have hlt := Chart.lt_of_set hset
    rw [← agrees.valid.location_succ] at hlt
    exact Nat.le_of_lt_succ hlt
  refine ⟨f, hf, (agrees.covers_iff hle).2 ?_⟩
  exact (agrees.sound location i hi s hs p hp).predict hmove hf

/-- An item of a kernel began before its set, and any other one begins in it: a prediction, or the
first item of all. -/
def Separated (r : Recognizer) : Prop :=
  ∀ location i, r.chart.Holds location i →
    (i.origin < location ∧ r.machine.IsKernel i.state) ∨
      (i.origin = location ∧
        (r.machine.IsPrediction i.state ∨ location = 0 ∧ i.state = Machine.start))

/-- The first set holds the first item and predictions. -/
theorem separated_of_ofMachine (closed : m.Closed) (h : ofMachine m = .ok r) : r.Separated := by
  obtain ⟨r', hr, rfl, valid, hlocation, -, hall⟩ := ofMachine_ok closed
  rw [h] at hr
  cases hr
  intro location i hi
  have hfirst : location = 0 := by
    obtain ⟨set, hset, -⟩ := hi
    have hlt := Chart.lt_of_set hset
    rw [← valid.location_succ] at hlt
    omega
  subst hfirst
  right
  cases hall i hi with
  | refl => exact ⟨rfl, .inr ⟨rfl, rfl⟩⟩
  | tail _ hpredicts =>
    obtain ⟨s, prediction, hs, hprediction, rfl⟩ := hpredicts
    exact ⟨rfl, .inl ⟨_, s, hs, hprediction⟩⟩

/-- What a token and completed rules lead to are kernels that began earlier. -/
theorem Separated.push (h : r.Separated) (valid : r.Valid) {token : Nat} {next : ChartSet}
    (hnext : r.NextSet token next) : (r.push next).Separated := by
  intro location i hi
  rcases location_of_holds_push valid hi with rfl | hle
  · cases (hnext.mem_iff i).1 ((holds_push_new_iff valid).1 hi) with
    | @scan i s target hbefore hs hscan =>
      exact .inl ⟨Nat.lt_succ_of_le (valid.state_of_holds hbefore).2, _, s, .lex token, hs,
        MachineState.lists_of_next hscan⟩
    | predict _ hs hprediction => exact .inr ⟨rfl, .inl ⟨_, _, hs, hprediction⟩⟩
    | @complete i w s t rule target _ horigin _ _ hw ht hgoto =>
      have hwaiting := (valid.state_of_holds hw).2
      exact .inl ⟨Nat.lt_succ_of_le (Nat.le_trans hwaiting horigin), _, t, .rule rule, ht,
        MachineState.lists_of_next hgoto⟩
  · exact h location i ((holds_push_old_iff valid hle).1 hi)

theorem Reads.separated {s : Recognizer} (h : Reads r tokens s) (valid : r.Valid)
    (separated : r.Separated) : s.Separated := by
  induction h with
  | nil => exact separated
  | cons hadvance _ ih =>
    obtain ⟨next, hnext, hspec⟩ := advance_of_scans valid (scans_of_advance valid hadvance)
    rw [hadvance] at hnext
    cases hnext
    exact ih (valid.push hspec) (separated.push valid hspec)

theorem ReachedBy.separated (hm : Machine.ofGrammar g = .ok m) (simulates : m.Simulates net g)
    (represents : net.Represents g) (h : ReachedBy g tokens r) : r.Separated := by
  obtain ⟨m', start, hm', hstart, hreads⟩ := h
  rw [hm] at hm'
  cases hm'
  obtain ⟨start', hstart', -, agrees⟩ :
      ∃ r, ofMachine m = .ok r ∧ r.location = 0 ∧ Agrees net g tokens r :=
    agrees_ofMachine represents simulates
  rw [hstart] at hstart'
  cases hstart'
  exact hreads.separated agrees.valid (separated_of_ofMachine simulates.closed_states hstart)

/-- Kernels hold no entry and predictions predict nothing further.  In a chart, items begin no later
than their set, those that are scanned or resumed begin before it, all others in it, and every rule
that is called in a set begins there. -/
theorem predictions_exact {d : Declarations} (declared : Declarations.Declared d)
    (built : d.build = .ok (.ok g)) : ∃ net, RuleNetwork.ofGrammar g = .ok net ∧
      (g.stateCount < sizeLimit → ∃ m, Machine.ofGrammar g = .ok m) ∧
      ∀ m, Machine.ofGrammar g = .ok m →
        (∀ id, m.IsKernel id → ∃ s, m.state id = .ok s ∧
          ∀ rule f, net.fragmentOf? rule = some f → f.entry ∉ s.closure) ∧
        (∀ id, m.IsPrediction id → ∃ s, m.state id = .ok s ∧ s.prediction = none) ∧
        ∀ tokens r, ReachedBy g tokens r →
          (∀ location i, r.chart.Holds location i → i.origin ≤ location) ∧ r.Separated ∧
          (∀ token, ∃ set items, r.chart.set r.location = .ok set ∧
            scanned m set token = .ok items ∧ ∀ i ∈ items, i.origin < r.chart.size) ∧
          (∀ i, i.state < m.size → ∃ items, r.resumed r.chart.size i = .ok items ∧
            ∀ j ∈ items, j.origin < r.chart.size) ∧
          ∀ location i s, r.chart.Holds location i → m.state i.state = .ok s →
            ∀ p ∈ s.closure, ∀ call ∈ net.callsFrom p, ∃ f,
              net.fragmentOf? call.rule = some f ∧ r.chart.Covers m location location f.entry := by
  have wellFormed := Declarations.wellFormed_of_build declared built
  have nullable := nullableExact_of_build declared built
  obtain ⟨net, hnet, -⟩ := RuleNetwork.ofGrammar_ok wellFormed
  refine ⟨net, hnet, Machine.ofGrammar_ok wellFormed nullable, fun m hm => ?_⟩
  obtain ⟨represents, simulates⟩ := Machine.simulates_network wellFormed nullable hnet hm
  refine ⟨fun id => simulates.not_mem_of_isKernel represents,
    fun id => simulates.prediction_eq_none, fun tokens r reached => ?_⟩
  obtain ⟨agrees, -⟩ := reached.agrees_network wellFormed nullable hnet
  obtain rfl := reached.machine_eq hm
  refine ⟨fun location i hi => (agrees.valid.state_of_holds hi).2,
    reached.separated hm simulates represents, agrees.valid.scanned_ok,
    fun i => agrees.valid.resumed_ok, fun location i s hi hs p hp call hcall => ?_⟩
  exact agrees.covers_callee hi hs hp hcall

/-- Behind a pair of parentheses the start rule ends in a kernel, which holds no entry. -/
theorem predictions_exact_balanced : ∃ g net m r, Declarations.balanced.build = .ok (.ok g) ∧
    RuleNetwork.ofGrammar g = .ok net ∧ Machine.ofGrammar g = .ok m ∧ ReachedBy g [0, 1] r ∧
    ∃ i s, r.chart.Holds 2 i ∧ i.origin = 0 ∧ m.state i.state = .ok s ∧
      s.completes g.start = true ∧ ∀ rule f, net.fragmentOf? rule = some f → f.entry ∉ s.closure := by
  obtain ⟨g, built, wellFormed, nullable, hsize, -, hpair⟩ := generates_balanced
  obtain ⟨net, hnet, hmachine, hall⟩ := predictions_exact Declarations.declared_balanced built
  obtain ⟨m, hm⟩ := hmachine hsize
  obtain ⟨hkernels, -, hcharts⟩ := hall m hm
  obtain ⟨r, reached⟩ := exists_reachedBy wellFormed nullable hsize
    ⟨[], by rw [List.append_nil]; exact hpair⟩
  obtain ⟨-, hseparated, -⟩ := hcharts [0, 1] r reached
  obtain ⟨agrees, hend⟩ := reached.agrees_network wellFormed nullable hnet
  obtain rfl := reached.machine_eq hm
  obtain ⟨i, s, hi, horigin, hs, hcompletes⟩ :=
    (agrees.completes_iff_generates (Nat.le_of_eq hend.symm) (Nat.zero_le 2) g.start).2
      ⟨hpair, [], .refl _⟩
  rcases hseparated 2 i hi with ⟨-, hkernel⟩ | ⟨hsame, -⟩
  · obtain ⟨s', hs', hentries⟩ := hkernels i.state hkernel
    rw [hs] at hs'
    cases hs'
    exact ⟨g, net, r.machine, r, built, hnet, hm, reached, i, s, hi, horigin, hs, hcompletes,
      hentries⟩
  · omega

end Recognizer

end LexChart
