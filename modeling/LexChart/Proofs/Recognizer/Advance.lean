import LexChart.Proofs.Recognizer.Sets
set_option autoImplicit false

/-!
# Reading a token

The set behind a token begins with what the token scans.  Its items are completed one after the
other, those included that are inserted on the way, so that the last one leaves a set that is closed
under completion.  The set holds exactly the items that `NextItem` describes, and a token that
nothing scans is rejected.
-/

namespace LexChart

open Relation (ReflTransGen)

/-- An item that completes a rule brings along the items that waited for the rule where it began. -/
def Machine.Resumes (m : Machine) (c : Chart) (location : Nat) (i j : ChartItem) : Prop :=
  i.origin < location ∧ ∃ s rule waiting t target,
    m.state i.state = .ok s ∧ s.completes rule = true ∧
    c.Holds i.origin waiting ∧ m.state waiting.state = .ok t ∧ t.goto rule = some target ∧
    j = ⟨target, waiting.origin⟩

theorem Chart.set_eq_ok_iff {c : Chart} {location : Nat} {set : ChartSet} :
    c.set location = .ok set ↔ c.sets[location]? = some set := by
  unfold Chart.set
  cases c.sets[location]? <;> simp

theorem Chart.lt_of_set {c : Chart} {location : Nat} {set : ChartSet}
    (h : c.set location = .ok set) :
    location < c.size :=
  (Array.getElem?_eq_some_iff.1 (set_eq_ok_iff.1 h)).1

theorem Chart.exists_set_of_lt {c : Chart} {location : Nat} (h : location < c.size) :
    ∃ set, c.set location = .ok set :=
  ⟨_, set_eq_ok_iff.2 (Array.getElem?_eq_getElem h)⟩

namespace Recognizer

/-- The sets of the chart stand at their locations, hold items of the machine and what these
predict. -/
structure Valid (r : Recognizer) : Prop where
  closed : r.machine.Closed
  nonempty : 0 < r.chart.size
  sets : ∀ location set, r.chart.set location = .ok set →
    set.location = location ∧ set.Fits r.machine ∧ set.HoldsPredictions r.machine

variable {r : Recognizer}

theorem Valid.state_of_holds (valid : r.Valid) {location : Nat} {i : ChartItem}
    (h : r.chart.Holds location i) : i.state < r.machine.size ∧ i.origin ≤ location := by
  obtain ⟨set, hset, hi⟩ := h
  obtain ⟨hlocation, hfits, -⟩ := valid.sets location set hset
  refine ⟨hfits.state_lt i hi, ?_⟩
  rw [← hlocation]
  exact hfits.origin_le i hi

/-! ## Completions -/

theorem waitingAt_ok {location : Nat} {set : ChartSet} (h : r.chart.set location = .ok set) :
    r.waitingAt location = .ok (r.machine.waitingItems set) := by
  unfold waitingAt
  rw [r.waiting_eq, Array.getElem?_map, Chart.set_eq_ok_iff.1 h]
  rfl

/-- An item that has somewhere to go waits. -/
theorem mem_waitingItems {m : Machine} {set : ChartSet} {i : ChartItem} {t : MachineState}
    (ht : m.state i.state = .ok t) {rule target : Nat} (hgoto : t.goto rule = some target) :
    i ∈ m.waitingItems set ↔ i ∈ set.items := by
  have hgotos : t.gotos.isEmpty = false := by
    cases hempty : t.gotos with
    | nil =>
      unfold MachineState.goto at hgoto
      rw [hempty] at hgoto
      cases hgoto
    | cons first rest => rfl
  unfold Machine.waitingItems
  rw [Array.mem_filter, Machine.state_eq_ok_iff.1 ht]
  simp [hgotos]

theorem mem_of_mem_waitingItems {m : Machine} {set : ChartSet} {i : ChartItem}
    (h : i ∈ m.waitingItems set) : i ∈ set.items :=
  (Array.mem_filter.1 h).1

/-- The items that a step of their states leads from, led there. -/
theorem exists_led {m : Machine} {items : List ChartItem} (hstates : ∀ i ∈ items, i.state < m.size)
    (step : MachineState → Option Nat) :
    ∃ led, items.filterMapM (fun i => do
        let s ← m.state i.state
        pure ((step s).map fun target => ChartItem.mk target i.origin)) = .ok led ∧
      ∀ j, j ∈ led ↔ ∃ i ∈ items, ∃ s target,
        m.state i.state = .ok s ∧ step s = some target ∧ j = ⟨target, i.origin⟩ := by
  have hknown : ∀ i ∈ items, ∃ found : Option ChartItem, (do
      let s ← m.state i.state
      pure ((step s).map fun target => ChartItem.mk target i.origin)) = Except.ok found := by
    intro i hi
    obtain ⟨s, hs⟩ := Machine.exists_state_of_lt (hstates i hi)
    exact ⟨_, bind_eq_ok_iff.2 ⟨s, hs, rfl⟩⟩
  obtain ⟨led, hled, hmem⟩ := exists_filterMapM_eq_ok hknown
  refine ⟨led, hled, fun j => (hmem j).trans ?_⟩
  constructor
  · rintro ⟨i, hi, heq⟩
    obtain ⟨s, hs, heq⟩ := bind_eq_ok_iff.1 heq
    obtain ⟨target, hstep, rfl⟩ := Option.map_eq_some_iff.1 (Except.ok.inj heq)
    exact ⟨i, hi, s, target, hs, hstep, rfl⟩
  · rintro ⟨i, hi, s, target, hs, hstep, rfl⟩
    refine ⟨i, hi, bind_eq_ok_iff.2 ⟨s, hs, ?_⟩⟩
    rw [hstep]
    rfl

theorem resumeAfter_ok {m : Machine} {waiting : Array ChartItem}
    (hstates : ∀ i ∈ waiting, i.state < m.size) (rule : Nat) :
    ∃ items, resumeAfter m waiting rule = .ok items ∧ ∀ j, j ∈ items ↔ ∃ i ∈ waiting, ∃ t target,
      m.state i.state = .ok t ∧ t.goto rule = some target ∧ j = ⟨target, i.origin⟩ := by
  simp only [← Array.mem_toList_iff] at hstates ⊢
  exact exists_led hstates fun t => t.goto rule

/-- The items that an item of the next set brings along. -/
theorem resumed_ok (valid : r.Valid) {i : ChartItem} (hstate : i.state < r.machine.size) :
    ∃ items, r.resumed r.chart.size i = .ok items ∧
      ∀ j, j ∈ items ↔ r.machine.Resumes r.chart r.chart.size i j := by
  unfold resumed
  split
  · rename_i hle
    refine ⟨[], rfl, fun j => ⟨fun h => (nomatch h), fun h => ?_⟩⟩
    exact absurd h.1 (Nat.not_lt.2 hle)
  · rename_i hlt
    have horigin := Nat.not_le.1 hlt
    obtain ⟨s, hs⟩ := Machine.exists_state_of_lt hstate
    obtain ⟨set, hset⟩ := Chart.exists_set_of_lt horigin
    have hwaiting_lt : ∀ w ∈ r.machine.waitingItems set, w.state < r.machine.size := fun w hw =>
      (valid.state_of_holds ⟨set, hset, mem_of_mem_waitingItems hw⟩).1
    obtain ⟨groups, hgroups⟩ := exists_mapM_eq_ok
      fun (c : Completion) (_ : c ∈ s.completions) =>
        (resumeAfter_ok hwaiting_lt c.rule).imp fun items h =>
          (bind_eq_ok_iff.2 ⟨_, waitingAt_ok hset, h.1⟩ :
            (r.waitingAt i.origin >>= fun waiting => resumeAfter r.machine waiting c.rule) = _)
    have hall := mapM_eq_ok_iff.1 hgroups
    have hgroup : ∀ c items, (r.waitingAt i.origin >>= fun waiting =>
        resumeAfter r.machine waiting c) = .ok items → ∀ j, j ∈ items ↔
          ∃ w ∈ r.machine.waitingItems set, ∃ t target, r.machine.state w.state = .ok t ∧
            t.goto c = some target ∧ j = ⟨target, w.origin⟩ := by
      intro c items heq
      obtain ⟨items', hitems', hmem⟩ := resumeAfter_ok hwaiting_lt c
      rw [waitingAt_ok hset] at heq
      obtain rfl := Except.ok.inj (hitems'.symm.trans heq)
      exact hmem
    refine ⟨groups.flatten,
      bind_eq_ok_iff.2 ⟨s, hs, bind_eq_ok_iff.2 ⟨groups, hgroups, rfl⟩⟩, fun j => ?_⟩
    rw [List.mem_flatten]
    constructor
    · rintro ⟨items, hitems, hj⟩
      obtain ⟨c, hc, heq⟩ := forall₂_mem_right hall hitems
      obtain ⟨w, hw, t, target, ht, hgoto, rfl⟩ := (hgroup c.rule items heq j).1 hj
      refine ⟨horigin, s, c.rule, w, t, target, hs, ?_, ⟨set, hset, mem_of_mem_waitingItems hw⟩, ht,
        hgoto, rfl⟩
      exact List.any_eq_true.2 ⟨c, hc, decide_eq_true rfl⟩
    · rintro ⟨-, s', rule, w, t, target, hs', hcompletes, ⟨set', hset', hw⟩, ht, hgoto, rfl⟩
      rw [hs] at hs'
      cases hs'
      rw [hset] at hset'
      cases hset'
      obtain ⟨c, hc, hrule⟩ := List.any_eq_true.1 hcompletes
      obtain ⟨items, hitems, heq⟩ := forall₂_mem_left hall hc
      refine ⟨items, hitems, (hgroup c.rule items heq _).2 ?_⟩
      rw [of_decide_eq_true hrule]
      exact ⟨w, (mem_waitingItems ht hgoto).2 hw, t, target, ht, hgoto, rfl⟩

theorem Valid.resumes_lt (valid : r.Valid) {i j : ChartItem}
    (h : r.machine.Resumes r.chart r.chart.size i j) :
    j.state < r.machine.size ∧ j.origin ≤ r.chart.size := by
  obtain ⟨horigin, s, rule, w, t, target, -, -, hw, ht, hgoto, rfl⟩ := h
  refine ⟨valid.closed.next _ t ht (.rule rule) target hgoto, ?_⟩
  have hle := (valid.state_of_holds hw).2
  dsimp only
  omega

/-- What holds of the next set while its items are completed: those before the position are. -/
structure Completing (r : Recognizer) (property : ChartItem → Prop) (position : Nat)
    (set : ChartSet) : Prop where
  location_eq : set.location = r.chart.size
  fits : set.Fits r.machine
  predictions : set.HoldsPredictions r.machine
  all : ∀ i ∈ set.items, property i
  position_le : position ≤ set.size
  completed : ∀ k < position, ∀ i, set.items[k]? = some i →
    ∀ j, r.machine.Resumes r.chart r.chart.size i j → j ∈ set.items

section

variable {property : ChartItem → Prop} {position : Nat} {set : ChartSet}

theorem Completing.closed (h : r.Completing property position set) (hend : set.size ≤ position) :
    ∀ i ∈ set.items, ∀ j, r.machine.Resumes r.chart r.chart.size i j → j ∈ set.items := by
  intro i hi
  obtain ⟨k, hk⟩ := Array.mem_iff_getElem?.1 hi
  have hlt := (Array.getElem?_eq_some_iff.1 hk).1
  exact h.completed k (Nat.lt_of_lt_of_le hlt hend) i hk

/-- One item: the set grows by what it resumes, and the item is completed. -/
theorem Completing.next (h : r.Completing property position set) (valid : r.Valid)
    (hpredicts : ∀ i j, property i → r.machine.Predicts r.chart.size i j → property j)
    (hresumes : ∀ i j, property i → r.machine.Resumes r.chart r.chart.size i j → property j)
    {i : ChartItem} (hi : set.items[position]? = some i) :
    ∃ items set', r.resumed set.location i = .ok items ∧ addAll r.machine set items = .ok set' ∧
      ChartSet.Grows r.machine property set set' ∧ r.Completing property (position + 1) set' := by
  have hmem : i ∈ set.items := Array.mem_of_getElem? hi
  have hlt : position < set.size := (Array.getElem?_eq_some_iff.1 hi).1
  obtain ⟨items, hitems, hitems_mem⟩ := resumed_ok valid (h.fits.state_lt i hmem)
  have hinserted : ∀ j ∈ items, property j ∧ j.state < r.machine.size ∧
      j.origin ≤ set.location := by
    intro j hj
    have hj := (hitems_mem j).1 hj
    rw [h.location_eq]
    exact ⟨hresumes i j (h.all i hmem) hj, valid.resumes_lt hj⟩
  obtain ⟨set', hset', hgrows, hadded⟩ := addAll_ok valid.closed
    (by rwa [h.location_eq]) h.fits h.predictions hinserted
  refine ⟨items, set', by rwa [h.location_eq], hset', hgrows, ?_⟩
  have hsize := hgrows.size_le
  refine ⟨hgrows.location_eq.trans h.location_eq, hgrows.fits, hgrows.predictions,
    hgrows.keeps h.all, by omega, fun k hk i' hi' j hj => ?_⟩
  rw [hgrows.getElem?_eq (by omega)] at hi'
  rcases Nat.lt_succ_iff_lt_or_eq.1 hk with hk | rfl
  · exact hgrows.mem (h.completed k hk i' hi' j hj)
  · rw [hi] at hi'
    cases hi'
    exact hadded j ((hitems_mem j).2 hj)

/-- Completing the items from a position on, where those before it are completed. -/
theorem completeFrom_ok (valid : r.Valid)
    (hpredicts : ∀ i j, property i → r.machine.Predicts r.chart.size i j → property j)
    (hresumes : ∀ i j, property i → r.machine.Resumes r.chart r.chart.size i j → property j)
    (limit : Nat) (h : r.Completing property position set)
    (hlimit : r.machine.size * (r.chart.size + 1) < limit + position) :
    ∃ set', r.completeFrom limit position set = .ok set' ∧
      ChartSet.Grows r.machine property set set' ∧
      ∀ i ∈ set'.items, ∀ j, r.machine.Resumes r.chart r.chart.size i j → j ∈ set'.items := by
  induction limit generalizing position set with
  | zero =>
    have hle := h.fits.size_le
    have hposition := h.position_le
    rw [h.location_eq] at hle
    omega
  | succ limit ih =>
    rw [completeFrom]
    cases hget : set.get? position with
    | none =>
      exact ⟨set, rfl, .refl h.fits h.predictions, h.closed (Array.getElem?_eq_none_iff.1 hget)⟩
    | some i =>
      obtain ⟨items, set₁, hitems, hset₁, hgrows₁, hnext⟩ :=
        h.next valid hpredicts hresumes hget
      obtain ⟨set₂, hset₂, hgrows₂, hclosed⟩ := ih hnext (by omega)
      refine ⟨set₂, ?_, hgrows₁.trans hgrows₂, hclosed⟩
      exact bind_eq_ok_iff.2 ⟨items, hitems, bind_eq_ok_iff.2 ⟨set₁, hset₁, hset₂⟩⟩

end

/-! ## Tokens -/

theorem scanned_ok {m : Machine} {set : ChartSet} (hfits : set.Fits m) (token : Nat) :
    ∃ items, scanned m set token = .ok items ∧ ∀ j, j ∈ items ↔ ∃ i ∈ set.items, ∃ s target,
      m.state i.state = .ok s ∧ s.scan token = some target ∧ j = ⟨target, i.origin⟩ := by
  have hstates := hfits.state_lt
  simp only [← Array.mem_toList_iff] at hstates ⊢
  exact exists_led hstates fun s => s.scan token

/-- The next set: it stands behind the chart and holds the items that follow the token. -/
structure NextSet (r : Recognizer) (token : Nat) (set : ChartSet) : Prop where
  location_eq : set.location = r.chart.size
  fits : set.Fits r.machine
  predictions : set.HoldsPredictions r.machine
  mem_iff : ∀ i, i ∈ set.items ↔ NextItem r.machine r.chart r.location token i

theorem Valid.location_succ (valid : r.Valid) : r.location + 1 = r.chart.size :=
  Nat.sub_add_cancel valid.nonempty

/-- Growing the set behind a token out of the items that the token scans. -/
theorem nextSet_ok (valid : r.Valid) {token : Nat} {set : ChartSet}
    (hset : r.chart.set r.location = .ok set) {items : List ChartItem}
    (hitems : scanned r.machine set token = .ok items) :
    ∃ start next, addAll r.machine (.empty (r.location + 1)) items = .ok start ∧
      r.complete start = .ok next ∧ r.NextSet token next := by
  have hlocation := valid.location_succ
  obtain ⟨hset_location, hfits, -⟩ := valid.sets _ set hset
  obtain ⟨items', hitems', hmem⟩ := scanned_ok hfits token
  rw [hitems] at hitems'
  obtain rfl := Except.ok.inj hitems'
  have hpredicts : ∀ i j, NextItem r.machine r.chart r.location token i →
      r.machine.Predicts r.chart.size i j → NextItem r.machine r.chart r.location token j := by
    rintro i _ hi ⟨s, prediction, hs, hprediction, rfl⟩
    rw [← hlocation]
    exact .predict hi hs hprediction
  have hresumes : ∀ i j, NextItem r.machine r.chart r.location token i →
      r.machine.Resumes r.chart r.chart.size i j →
        NextItem r.machine r.chart r.location token j := by
    rintro i _ hi ⟨horigin, s, rule, w, t, target, hs, hcompletes, hw, ht, hgoto, rfl⟩
    exact .complete hi (by omega) hs hcompletes hw ht hgoto
  have hscanned : ∀ j ∈ items, NextItem r.machine r.chart r.location token j ∧
      j.state < r.machine.size ∧ j.origin ≤ r.location + 1 := by
    intro j hj
    obtain ⟨i, hi, s, target, hs, hscan, rfl⟩ := (hmem j).1 hj
    refine ⟨.scan ⟨set, hset, hi⟩ hs hscan, valid.closed.next _ s hs (.lex token) target hscan, ?_⟩
    exact Nat.le_succ_of_le (hset_location ▸ hfits.origin_le i hi)
  have hempty : ∀ i, i ∉ (ChartSet.empty (r.location + 1)).items := by simp [ChartSet.empty]
  obtain ⟨start, hstart, hgrows, hstart_mem⟩ := addAll_ok valid.closed
    (by rw [← hlocation] at hpredicts; exact hpredicts)
    (ChartSet.fits_empty r.machine (r.location + 1)) (fun i hi => absurd hi (hempty i)) hscanned
  have hstart_location : start.location = r.chart.size := hgrows.location_eq.trans hlocation
  have hstart_all := hgrows.keeps fun i hi => absurd hi (hempty i)
  have hbegins : r.Completing (NextItem r.machine r.chart r.location token) 0 start :=
    ⟨hstart_location, hgrows.fits, hgrows.predictions, hstart_all, Nat.zero_le _,
      fun k hk => absurd hk (Nat.not_lt_zero k)⟩
  obtain ⟨next, hnext, hgrows', hcompleted⟩ := completeFrom_ok valid hpredicts hresumes
    (r.machine.size * (start.location + 1) + 1) hbegins (by rw [hstart_location]; omega)
  have hnext_location := hgrows'.location_eq.trans hstart_location
  refine ⟨start, next, hstart, hnext, hnext_location, hgrows'.fits, hgrows'.predictions,
    fun i => ?_⟩
  refine ⟨hgrows'.keeps hstart_all i, fun h => ?_⟩
  induction h with
  | @scan i s target hi hs hscan =>
    obtain ⟨set', hset', hi⟩ := hi
    rw [hset] at hset'
    cases hset'
    exact hgrows'.mem (hstart_mem _ ((hmem _).2 ⟨i, hi, s, target, hs, hscan, rfl⟩))
  | @predict i s prediction _ hs hprediction ih =>
    refine hgrows'.predictions i ih _ ⟨s, prediction, hs, hprediction, ?_⟩
    rw [hnext_location, hlocation]
  | @complete i w s t rule target _ horigin hs hcompletes hw ht hgoto ih =>
    exact hcompleted i ih _ ⟨by omega, s, rule, w, t, target, hs, hcompletes, hw, ht, hgoto, rfl⟩

/-- Some item of the last set scans the token. -/
def Scans (r : Recognizer) (token : Nat) : Prop :=
  ∃ i s target, r.chart.Holds r.location i ∧ r.machine.state i.state = .ok s ∧
    s.scan token = some target

theorem Valid.exists_last (valid : r.Valid) : ∃ set, r.chart.set r.location = .ok set :=
  Chart.exists_set_of_lt (by rw [← valid.location_succ]; exact Nat.lt_succ_self _)

/-- Something is scanned if and only if some item scans the token. -/
theorem scans_iff (valid : r.Valid) {token : Nat} {set : ChartSet}
    (hset : r.chart.set r.location = .ok set) {items : List ChartItem}
    (hitems : scanned r.machine set token = .ok items) : r.Scans token ↔ items.isEmpty = false := by
  obtain ⟨items', hitems', hmem⟩ := scanned_ok (valid.sets _ set hset).2.1 token
  rw [hitems] at hitems'
  obtain rfl := Except.ok.inj hitems'
  rw [List.isEmpty_eq_false_iff_exists_mem]
  constructor
  · rintro ⟨i, s, target, ⟨set', hset', hi⟩, hs, hscan⟩
    rw [hset] at hset'
    cases hset'
    exact ⟨_, (hmem _).2 ⟨i, hi, s, target, hs, hscan, rfl⟩⟩
  · rintro ⟨j, hj⟩
    obtain ⟨i, hi, s, target, hs, hscan, -⟩ := (hmem j).1 hj
    exact ⟨i, s, target, ⟨set, hset, hi⟩, hs, hscan⟩

/-- Whether a token can come next is known. -/
theorem canAdvance_ok (valid : r.Valid) (token : Nat) :
    ∃ answer, r.canAdvance token = .ok answer ∧ (answer = true ↔ r.Scans token) := by
  obtain ⟨set, hset⟩ := valid.exists_last
  obtain ⟨items, hitems, -⟩ := scanned_ok (valid.sets _ set hset).2.1 token
  refine ⟨!items.isEmpty, bind_eq_ok_iff.2 ⟨set, hset, bind_eq_ok_iff.2 ⟨items, hitems, rfl⟩⟩, ?_⟩
  rw [scans_iff valid hset hitems, Bool.not_eq_true']

/-- The tokens that can come next are listed in ascending order. -/
theorem expected_ok (valid : r.Valid) : ∃ tokens, r.expected = .ok tokens ∧
    (∀ token, token ∈ tokens ↔ r.Scans token) ∧ tokens.Pairwise (· < ·) := by
  obtain ⟨set, hset⟩ := valid.exists_last
  have hstates : ∀ i ∈ set.items.toList,
      ∃ scans, (r.machine.state i.state).map MachineState.scans = .ok scans := by
    intro i hi
    obtain ⟨s, hs⟩ := Machine.exists_state_of_lt
      ((valid.sets _ set hset).2.1.state_lt i (Array.mem_toList_iff.1 hi))
    exact ⟨s.scans, map_eq_ok_iff.2 ⟨s, hs, rfl⟩⟩
  obtain ⟨scans, hscans⟩ := exists_mapM_eq_ok hstates
  have hall := mapM_eq_ok_iff.1 hscans
  refine ⟨_, bind_eq_ok_iff.2 ⟨set, hset, bind_eq_ok_iff.2 ⟨scans, hscans, rfl⟩⟩, fun token => ?_,
    pairwise_ascending _⟩
  rw [mem_ascending, List.mem_map]
  constructor
  · rintro ⟨⟨token, target⟩, hpair, rfl⟩
    obtain ⟨pairs, hpairs, hpair⟩ := List.mem_flatten.1 hpair
    obtain ⟨i, hi, heq⟩ := forall₂_mem_right hall hpairs
    obtain ⟨s, hs, rfl⟩ := map_eq_ok_iff.1 heq
    have hsome : (s.scan token).isSome := List.lookup_isSome_iff.2 ⟨_, hpair, by simp⟩
    obtain ⟨target', hscan⟩ := Option.isSome_iff_exists.1 hsome
    exact ⟨i, s, target', ⟨set, hset, Array.mem_toList_iff.1 hi⟩, hs, hscan⟩
  · rintro ⟨i, s, target, ⟨set', hset', hi⟩, hs, hscan⟩
    rw [hset] at hset'
    cases hset'
    obtain ⟨pairs, hpairs, heq⟩ := forall₂_mem_left hall (Array.mem_toList_iff.2 hi)
    obtain ⟨s', hs', rfl⟩ := map_eq_ok_iff.1 heq
    rw [hs] at hs'
    cases hs'
    exact ⟨(token, target), List.mem_flatten.2 ⟨_, hpairs, mem_of_lookup_eq_some hscan⟩, rfl⟩

/-- A token that is scanned is accepted, and the set behind it is the next one. -/
theorem advance_of_scans (valid : r.Valid) {token : Nat} (h : r.Scans token) :
    ∃ next, r.advance r.location token = .ok (.ok (r.push next)) ∧ r.NextSet token next := by
  obtain ⟨set, hset⟩ := valid.exists_last
  obtain ⟨items, hitems, -⟩ := scanned_ok (valid.sets _ set hset).2.1 token
  obtain ⟨start, next, hstart, hnext, hspec⟩ := nextSet_ok valid hset hitems
  refine ⟨next, ?_, hspec⟩
  unfold advance
  rw [if_neg fun hne => hne rfl]
  refine bind_eq_ok_iff.2 ⟨set, hset, bind_eq_ok_iff.2 ⟨items, hitems, ?_⟩⟩
  rw [(scans_iff valid hset hitems).1 h]
  exact bind_eq_ok_iff.2 ⟨start, hstart, bind_eq_ok_iff.2 ⟨next, hnext, rfl⟩⟩

/-- A token that is not scanned is rejected, and the message names what can come instead. -/
theorem advance_of_not_scans (valid : r.Valid) {token : Nat}
    (h : ¬ r.Scans token) {tokens : List Nat}
    (hexpected : r.expected = .ok tokens) : r.advance r.location token =
      .ok (.error ⟨.noViableContinuation r.location (r.machine.lexName token)
        ⟨tokens.map r.machine.lexName⟩, none⟩) := by
  obtain ⟨set, hset⟩ := valid.exists_last
  obtain ⟨items, hitems, -⟩ := scanned_ok (valid.sets _ set hset).2.1 token
  have hempty : items.isEmpty = true := by
    rw [scans_iff valid hset hitems] at h
    exact Bool.not_eq_false _ ▸ h
  unfold advance
  rw [if_neg fun hne => hne rfl]
  refine bind_eq_ok_iff.2 ⟨set, hset, bind_eq_ok_iff.2 ⟨items, hitems, ?_⟩⟩
  rw [hempty]
  refine bind_eq_ok_iff.2 ⟨⟨tokens.map r.machine.lexName⟩, ?_, rfl⟩
  unfold expectedNames
  rw [hexpected]
  rfl

/-! ## The sets of a chart -/

theorem set_push {next : ChartSet} (valid : r.Valid) (location : Nat) :
    (r.push next).chart.set location =
      if location = r.location + 1 then .ok next else r.chart.set location := by
  rw [valid.location_succ]
  show (r.chart.push next).set location = _
  unfold Chart.set Chart.push Chart.size
  rw [Array.getElem?_push]
  by_cases heq : location = r.chart.sets.size
  · rw [if_pos heq, if_pos heq]
  · rw [if_neg heq, if_neg heq]

theorem size_push {next : ChartSet} : (r.push next).chart.size = r.chart.size + 1 :=
  Array.size_push _

theorem location_push {next : ChartSet} (valid : r.Valid) :
    (r.push next).location = r.location + 1 := by
  rw [valid.location_succ]
  unfold location
  rw [size_push]
  rfl

/-- The chart is valid again with the next set. -/
theorem Valid.push (valid : r.Valid) {token : Nat} {next : ChartSet} (h : r.NextSet token next) :
    (r.push next).Valid := by
  refine ⟨valid.closed, by rw [size_push]; exact Nat.succ_pos _, fun location set hset => ?_⟩
  rw [set_push valid] at hset
  split at hset
  · rename_i heq
    cases hset
    refine ⟨?_, h.fits, h.predictions⟩
    rw [heq, h.location_eq, valid.location_succ]
  · exact valid.sets location set hset

/-- The first set holds the first item and what it predicts, one after the other. -/
theorem ofMachine_ok {m : Machine} (closed : m.Closed) :
    ∃ r, ofMachine m = .ok r ∧ r.machine = m ∧ r.Valid ∧ r.location = 0 ∧
      r.chart.Holds 0 ⟨Machine.start, 0⟩ ∧
      ∀ i, r.chart.Holds 0 i → ReflTransGen (m.Predicts 0) ⟨Machine.start, 0⟩ i := by
  have hempty : ∀ i, i ∉ (ChartSet.empty 0).items := by simp [ChartSet.empty]
  have hpredicts : ∀ i j, ReflTransGen (m.Predicts 0) ⟨Machine.start, 0⟩ i →
      m.Predicts (ChartSet.empty 0).location i j →
      ReflTransGen (m.Predicts 0) ⟨Machine.start, 0⟩ j := fun i j hi hj => hi.tail hj
  obtain ⟨set, hset, hgrows, hmem⟩ := add_ok closed hpredicts (ChartSet.fits_empty m 0)
    (fun i hi => absurd hi (hempty i)) .refl closed.start_lt (Nat.le_refl 0)
  have hlocation : set.location = 0 := hgrows.location_eq
  have hchart : ∀ location found, ((blank m).push set).chart.set location = .ok found ↔
      location = 0 ∧ set = found := by
    intro location found
    rw [Chart.set_eq_ok_iff]
    show (#[].push set)[location]? = some found ↔ _
    rw [Array.getElem?_push]
    split
    · rename_i heq
      simp [heq]
    · rename_i hne
      constructor
      · intro h
        simp at h
      · rintro ⟨rfl, -⟩
        exact absurd rfl hne
  have hall := hgrows.keeps fun i hi => absurd hi (hempty i)
  refine ⟨(blank m).push set, bind_eq_ok_iff.2 ⟨set, hset, rfl⟩, rfl, ⟨closed, Nat.one_pos, ?_⟩,
    rfl, ⟨set, (hchart _ _).2 ⟨rfl, rfl⟩, hmem⟩, ?_⟩
  · intro location found h
    obtain ⟨rfl, rfl⟩ := (hchart location found).1 h
    exact ⟨hlocation, hgrows.fits, hgrows.predictions⟩
  · rintro i ⟨found, hfound, hi⟩
    obtain ⟨-, rfl⟩ := (hchart 0 found).1 hfound
    exact hall i hi

/-- Whether the start rule ends at a location is known. -/
theorem completesStartAt_ok (valid : r.Valid) {location : Nat} (h : location < r.chart.size) :
    ∃ answer, r.completesStartAt location = .ok answer ∧ (answer = true ↔ ∃ i s,
      r.chart.Holds location i ∧ i.origin = 0 ∧ r.machine.state i.state = .ok s ∧
      s.completes r.machine.startRule = true) := by
  obtain ⟨set, hset⟩ := Chart.exists_set_of_lt h
  have hknown : ∀ i ∈ set.items.toList, ∃ found, (if i.origin = 0 then
      (r.machine.state i.state).map fun s => s.completes r.machine.startRule
      else pure false) = Except.ok found := by
    intro i hi
    obtain ⟨s, hs⟩ := Machine.exists_state_of_lt
      ((valid.sets _ set hset).2.1.state_lt i (Array.mem_toList_iff.1 hi))
    split
    · exact ⟨_, map_eq_ok_iff.2 ⟨s, hs, rfl⟩⟩
    · exact ⟨false, rfl⟩
  obtain ⟨answers, hanswers⟩ := exists_mapM_eq_ok hknown
  have hall := mapM_eq_ok_iff.1 hanswers
  refine ⟨_, bind_eq_ok_iff.2 ⟨set, hset, bind_eq_ok_iff.2 ⟨answers, hanswers, rfl⟩⟩, ?_⟩
  rw [List.any_eq_true]
  constructor
  · rintro ⟨answer, hanswer, rfl⟩
    obtain ⟨i, hi, heq⟩ := forall₂_mem_right hall hanswer
    split at heq
    · rename_i horigin
      obtain ⟨s, hs, hcompletes⟩ := map_eq_ok_iff.1 heq
      exact ⟨i, s, ⟨set, hset, Array.mem_toList_iff.1 hi⟩, horigin, hs, hcompletes⟩
    · cases heq
  · rintro ⟨i, s, ⟨set', hset', hi⟩, horigin, hs, hcompletes⟩
    rw [hset] at hset'
    cases hset'
    obtain ⟨answer, hanswer, heq⟩ := forall₂_mem_left hall (Array.mem_toList_iff.2 hi)
    rw [if_pos horigin] at heq
    obtain ⟨s', hs', rfl⟩ := map_eq_ok_iff.1 heq
    rw [hs] at hs'
    cases hs'
    exact ⟨_, hanswer, hcompletes⟩

end Recognizer

end LexChart
