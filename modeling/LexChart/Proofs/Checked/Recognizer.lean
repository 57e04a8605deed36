import LexChart.Proofs.Checked.Steps
import LexChart.Proofs.Recognizer.Advance
set_option autoImplicit false

/-!
# Reading tokens without breaking off

The last set of a chart grows in place, one item at a time, and the items that wait for a rule are
looked for among all items of the set in which the rule began.  A checked step breaks off where a
set or a state does not exist, where a chart without sets is asked for its last one, where a token
is read at any other location, and where a loop has not ended before its limit.

Items have states of the machine and begin in sets that exist.  They are different, so a set has no
more items than there are states and locations, and no more predictions than there are states.
-/

namespace LexChart.Checked

/-- `Recognizer.location`, which is a number only if there is a set. -/
def lastLocation (chart : Chart) : Option Nat :=
  if chart.size = 0 then none else some (chart.size - 1)

/-- The chart with one more set, which is empty. -/
def pushSet (chart : Chart) : Chart := chart.push (.empty chart.size)

/-- The chart with another set at a location that it has. -/
def replaceSet (chart : Chart) (location : Nat) (set : ChartSet) : Option Chart :=
  if location < chart.size then some ⟨chart.sets.setIfInBounds location set⟩ else none

/-- `Recognizer.insertPredictions`, which has to end before the limit. -/
def insertPredictions (m : Machine) (location : Nat) : Nat → ChartSet → Nat → Option ChartSet
  | 0, _, _ => none
  | limit + 1, set, id => do
    let s ← (m.state id).toOption
    match s.prediction with
    | none => some set
    | some prediction =>
      match set.insert ⟨prediction, location⟩ with
      | (set, false) => some set
      | (set, true) => insertPredictions m location limit set prediction

/-- `Recognizer.add` in the set at a location. -/
def add (m : Machine) (location : Nat) (chart : Chart) (i : ChartItem) : Option Chart := do
  let set ← (chart.set location).toOption
  match set.insert i with
  | (_, false) => some chart
  | (set, true) => do
    let set ← insertPredictions m location (m.size + 1) set i.state
    replaceSet chart location set

/-- `Recognizer.resumeAfter`, out of all items of a set. -/
def resumeAfter (m : Machine) (set : ChartSet) (rule : Nat) : Option (List ChartItem) :=
  set.items.toList.filterMapM fun i => Except.toOption do
    let s ← m.state i.state
    pure ((s.goto rule).map fun target => ChartItem.mk target i.origin)

/-- Inserts the items that go on behind a rule that an item completes. -/
def resumeBehind (m : Machine) (location : Nat) (i : ChartItem) (chart : Chart) (c : Completion) :
    Option Chart := do
  let set ← (chart.set i.origin).toOption
  let items ← resumeAfter m set c.rule
  items.foldlM (add m location) chart

/-- Inserts the items that go on behind the rules that an item completes, one rule at a time. -/
def completeItem (m : Machine) (location : Nat) (chart : Chart) (i : ChartItem) : Option Chart :=
  if location ≤ i.origin then some chart
  else do
    let s ← (m.state i.state).toOption
    s.completions.foldlM (resumeBehind m location i) chart

/-- `Recognizer.completeFrom`, which has to end before the limit. -/
def completeFrom (m : Machine) (location : Nat) : Nat → Nat → Chart → Option Chart
  | 0, _, _ => none
  | limit + 1, position, chart => do
    let set ← (chart.set location).toOption
    match set.get? position with
    | none => some chart
    | some i => do
      let chart ← completeItem m location chart i
      completeFrom m location limit (position + 1) chart

/-- `Recognizer.ofMachine`, checked. -/
def startChart (m : Machine) : Option Chart := add m 0 (pushSet .empty) ⟨Machine.start, 0⟩

/-- `Recognizer.expectedNames`, checked. -/
def expectedNames (m : Machine) (chart : Chart) : Option Expected := do
  let last ← lastLocation chart
  let set ← (chart.set last).toOption
  let scans ← set.items.toList.mapM fun i => ((m.state i.state).map MachineState.scans).toOption
  some ⟨(ascending (scans.flatten.map Prod.fst)).map m.lexName⟩

/-- `Recognizer.canAdvance`, checked. -/
def canAdvance (m : Machine) (chart : Chart) (token : Nat) : Option Bool := do
  let last ← lastLocation chart
  let set ← (chart.set last).toOption
  let items ← (Recognizer.scanned m set token).toOption
  some !items.isEmpty

/-- `Recognizer.advance`, checked. -/
def advance (m : Machine) (chart : Chart) (location token : Nat) :
    Option (Except Diagnostic Chart) := do
  let last ← lastLocation chart
  if location ≠ last then none
  else
    let set ← (chart.set location).toOption
    let items ← (Recognizer.scanned m set token).toOption
    if items.isEmpty then
      let expected ← expectedNames m chart
      some (.error ⟨.noViableContinuation location (m.lexName token) expected, none⟩)
    else
      let next := location + 1
      let chart ← items.foldlM (add m next) (pushSet chart)
      let chart ← completeFrom m next (m.size * (next + 1) + 1) 0 chart
      some (.ok chart)

/-- `Recognizer.isAccepted`, checked. -/
def isAccepted (m : Machine) (chart : Chart) : Option Bool := do
  let last ← lastLocation chart
  let set ← (chart.set last).toOption
  let complete ← set.items.toList.mapM fun i => Except.toOption
    (if i.origin = 0 then (m.state i.state).map fun s => s.completes m.startRule else pure false)
  some (complete.any fun c => c)

/-! ## The last set -/

section

variable {m : Machine} {chart : Chart} {set set' : ChartSet}

theorem set_push_size (chart : Chart) (set : ChartSet) :
    (chart.push set).set chart.size = .ok set := by
  rw [Chart.set_eq_ok_iff]
  exact Array.getElem?_push_size

theorem set_push_of_lt {location : Nat} (h : chart.set location = .ok set') :
    (chart.push set).set location = .ok set' := by
  rw [Chart.set_eq_ok_iff]
  have hlt : location < chart.sets.size := Chart.lt_of_set h
  show (chart.sets.push set)[location]? = some set'
  rw [Array.getElem?_push, if_neg (Nat.ne_of_lt hlt)]
  exact Chart.set_eq_ok_iff.1 h

theorem replaceSet_push (chart : Chart) (set set' : ChartSet) :
    replaceSet (chart.push set) chart.size set' = some (chart.push set') := by
  have hsets : (chart.sets.push set).setIfInBounds chart.sets.size set' = chart.sets.push set' := by
    rw [← Array.toList_inj]
    simp
  unfold replaceSet Chart.push Chart.size
  rw [hsets, if_pos (by simp)]

/-- What holds of the set that grows behind a chart. -/
structure Sits (m : Machine) (chart : Chart) (set : ChartSet) : Prop where
  location_eq : set.location = chart.size
  fits : set.Fits m
  predictions : set.HoldsPredictions m

theorem sits_empty (m : Machine) (chart : Chart) : Sits m chart (.empty chart.size) :=
  ⟨rfl, ChartSet.fits_empty m chart.size, fun i hi => absurd hi (by simp [ChartSet.empty])⟩

theorem Sits.of_grows {property : ChartItem → Prop} (h : Sits m chart set)
    (hgrows : ChartSet.Grows m property set set') : Sits m chart set' :=
  ⟨hgrows.location_eq.trans h.location_eq, hgrows.fits, hgrows.predictions⟩

/-- Every prediction that is new takes a state that no other one of the set has. -/
theorem insertPredictions_eq (closed : m.Closed) {limit id : Nat} (hfits : set.Fits m)
    (hlimit : m.size < limit + set.fresh)
    (h : Recognizer.insertPredictions m limit set id = .ok set') :
    insertPredictions m set.location limit set id = some set' := by
  induction limit generalizing set id with
  | zero =>
    have hle := hfits.fresh_le
    omega
  | succ limit ih =>
    unfold Recognizer.insertPredictions at h
    obtain ⟨s, hs, h⟩ := bind_eq_ok_iff.1 h
    unfold insertPredictions
    rw [hs]
    show (match s.prediction with
      | none => some set
      | some prediction => _) = some set'
    cases hprediction : s.prediction with
    | none =>
      rw [hprediction] at h
      cases h
      rfl
    | some prediction =>
      rw [hprediction] at h
      dsimp only at h ⊢
      rcases set.insert_cases ⟨prediction, set.location⟩ with ⟨-, heq⟩ | ⟨hnew, heq⟩
      · rw [heq] at h ⊢
        cases h
        rfl
      · rw [heq] at h ⊢
        have hstate := closed.prediction id s hs prediction hprediction
        have hfresh := @ChartSet.fresh_push set ⟨prediction, set.location⟩ rfl
        exact ih (hfits.push hnew hstate (Nat.le_refl _)) (by omega) h

/-- An item is inserted in the last set, and the set still fits. -/
theorem Sits.add (closed : m.Closed) (sits : Sits m chart set) {i : ChartItem}
    (hstate : i.state < m.size) (horigin : i.origin ≤ chart.size) :
    ∃ set', Recognizer.add m set i = .ok set' ∧
      Checked.add m chart.size (chart.push set) i = some (chart.push set') ∧
      Sits m chart set' := by
  have horigin' : i.origin ≤ set.location := sits.location_eq ▸ horigin
  obtain ⟨set', h, hgrows, -⟩ := @Recognizer.add_ok m (fun _ => True) closed set i
    (fun _ _ _ _ => trivial) sits.fits sits.predictions trivial hstate horigin'
  refine ⟨set', h, ?_, sits.of_grows hgrows⟩
  unfold Checked.add
  rw [set_push_size]
  unfold Recognizer.add at h
  show (match set.insert i with
    | (_, false) => some (chart.push set)
    | (set, true) => _) = _
  rcases set.insert_cases i with ⟨-, heq⟩ | ⟨hnew, heq⟩
  · rw [heq] at h ⊢
    cases h
    rfl
  · rw [heq] at h ⊢
    have heq' := insertPredictions_eq closed (sits.fits.push hnew hstate horigin') (by omega) h
    rw [show (set.push i).location = chart.size from sits.location_eq] at heq'
    exact Option.bind_eq_some_iff.2 ⟨set', heq', replaceSet_push chart set set'⟩

theorem Sits.addAll (closed : m.Closed) (sits : Sits m chart set) {items : List ChartItem}
    (hitems : ∀ i ∈ items, i.state < m.size ∧ i.origin ≤ chart.size)
    (h : Recognizer.addAll m set items = .ok set') :
    items.foldlM (Checked.add m chart.size) (chart.push set) = some (chart.push set') ∧
      Sits m chart set' := by
  induction items generalizing set with
  | nil =>
    cases h
    exact ⟨rfl, sits⟩
  | cons i items ih =>
    obtain ⟨⟨hstate, horigin⟩, hrest⟩ := List.forall_mem_cons.1 hitems
    obtain ⟨set₁, hset₁, hadd, sits₁⟩ := sits.add closed hstate horigin
    unfold Recognizer.addAll at h
    rw [List.foldlM_cons, hset₁] at h
    rw [List.foldlM_cons, hadd]
    exact ih sits₁ hrest h

end

/-! ## Completions -/

/-- An item that waits for no rule goes on behind none. -/
theorem resumeAfter_eq {m : Machine} {set : ChartSet} (hfits : set.Fits m) {rule : Nat}
    {items : List ChartItem}
    (h : Recognizer.resumeAfter m (m.waitingItems set) rule = .ok items) :
    resumeAfter m set rule = some items := by
  unfold Recognizer.resumeAfter Machine.waitingItems at h
  rw [Array.toList_filter] at h
  refine filterMapM_toOption (fun i hi hwaits => ?_) h
  obtain ⟨s, hs⟩ := Machine.exists_state_of_lt (hfits.state_lt i (Array.mem_toList_iff.1 hi))
  rw [Machine.state_eq_ok_iff.1 hs, Option.any_some, Bool.not_eq_false'] at hwaits
  refine bind_eq_ok_iff.2 ⟨s, hs, ?_⟩
  unfold MachineState.goto
  rw [List.isEmpty_iff.1 hwaits]
  rfl

section

variable {r : Recognizer} {set set' : ChartSet} {i : ChartItem}

/-- The rules that an item completes, one after the other. -/
theorem Sits.completions (valid : r.Valid) (sits : Sits r.machine r.chart set) {before : ChartSet}
    (hbefore : r.chart.set i.origin = .ok before) {completions : List Completion}
    {groups : List (List ChartItem)}
    (hall : List.Forall₂ (fun c items => (do
      let waiting ← r.waitingAt i.origin
      Recognizer.resumeAfter r.machine waiting c.rule) = .ok items) completions groups)
    (h : Recognizer.addAll r.machine set groups.flatten = .ok set') :
    completions.foldlM (resumeBehind r.machine r.chart.size i) (r.chart.push set) =
      some (r.chart.push set') := by
  induction hall generalizing set with
  | nil =>
    cases h
    rfl
  | @cons c items completions groups hitems _ ih =>
    rw [Recognizer.waitingAt_ok hbefore] at hitems
    obtain ⟨-, hfits, -⟩ := valid.sets _ before hbefore
    unfold Recognizer.addAll at h
    rw [List.flatten_cons, List.foldlM_append] at h
    obtain ⟨set₁, hset₁, h⟩ := bind_eq_ok_iff.1 h
    have hstates : ∀ w ∈ r.machine.waitingItems before, w.state < r.machine.size := fun w hw =>
      hfits.state_lt w (Recognizer.mem_of_mem_waitingItems hw)
    obtain ⟨items', hitems', hmem⟩ := Recognizer.resumeAfter_ok hstates c.rule
    obtain rfl := Except.ok.inj (hitems.symm.trans hitems')
    have hlt : ∀ j ∈ items, j.state < r.machine.size ∧ j.origin ≤ r.chart.size := by
      intro j hj
      obtain ⟨w, hw, t, target, ht, hgoto, rfl⟩ := (hmem j).1 hj
      have hholds := valid.state_of_holds
        ⟨before, hbefore, Recognizer.mem_of_mem_waitingItems hw⟩
      have horigin := Chart.lt_of_set hbefore
      refine ⟨valid.closed.next _ t ht (.rule c.rule) target hgoto, ?_⟩
      exact Nat.le_trans hholds.2 (Nat.le_of_lt horigin)
    obtain ⟨hadded, sits₁⟩ := sits.addAll valid.closed hlt hset₁
    rw [List.foldlM_cons]
    refine Option.bind_eq_some_iff.2 ⟨r.chart.push set₁, ?_, ih sits₁ h⟩
    exact Option.bind_eq_some_iff.2 ⟨before, toOption_of_ok (set_push_of_lt hbefore),
      Option.bind_eq_some_iff.2 ⟨items, resumeAfter_eq hfits hitems, hadded⟩⟩

theorem completeItem_eq (valid : r.Valid) (sits : Sits r.machine r.chart set)
    {items : List ChartItem} (hitems : r.resumed r.chart.size i = .ok items)
    (h : Recognizer.addAll r.machine set items = .ok set') :
    completeItem r.machine r.chart.size (r.chart.push set) i = some (r.chart.push set') := by
  unfold Recognizer.resumed at hitems
  unfold completeItem
  by_cases hle : r.chart.size ≤ i.origin
  · rw [if_pos hle] at hitems ⊢
    cases hitems
    cases h
    rfl
  · rw [if_neg hle] at hitems ⊢
    obtain ⟨s, hs, hitems⟩ := bind_eq_ok_iff.1 hitems
    obtain ⟨groups, hgroups, hitems⟩ := bind_eq_ok_iff.1 hitems
    cases hitems
    obtain ⟨before, hbefore⟩ := Chart.exists_set_of_lt (Nat.not_le.1 hle)
    rw [hs]
    exact sits.completions valid hbefore (mapM_eq_ok_iff.1 hgroups) h

/-- A set has no more items than there are states and locations. -/
theorem completeFrom_eq (valid : r.Valid) {limit position : Nat}
    (hset : r.Completing (fun _ => True) position set)
    (hlimit : r.machine.size * (r.chart.size + 1) < limit + position)
    (h : r.completeFrom limit position set = .ok set') :
    completeFrom r.machine r.chart.size limit position (r.chart.push set) =
      some (r.chart.push set') := by
  induction limit generalizing position set with
  | zero =>
    have hle := hset.fits.size_le
    have hposition := hset.position_le
    rw [hset.location_eq] at hle
    omega
  | succ limit ih =>
    unfold Recognizer.completeFrom at h
    unfold completeFrom
    rw [set_push_size]
    show (match set.get? position with
      | none => some (r.chart.push set)
      | some i => _) = _
    cases hget : set.get? position with
    | none =>
      rw [hget] at h
      cases h
      rfl
    | some i =>
      rw [hget] at h
      obtain ⟨items, hitems, h⟩ := bind_eq_ok_iff.1 h
      obtain ⟨set₁, hset₁, h⟩ := bind_eq_ok_iff.1 h
      obtain ⟨items', set₁', hitems', hset₁', -, hnext⟩ :=
        hset.next valid (fun _ _ _ _ => trivial) (fun _ _ _ _ => trivial) hget
      obtain rfl := Except.ok.inj (hitems.symm.trans hitems')
      obtain rfl := Except.ok.inj (hset₁.symm.trans hset₁')
      rw [hset.location_eq] at hitems
      have sits : Sits r.machine r.chart set := ⟨hset.location_eq, hset.fits, hset.predictions⟩
      exact Option.bind_eq_some_iff.2
        ⟨_, completeItem_eq valid sits hitems hset₁, ih hnext (by omega) h⟩

end

/-! ## Tokens -/

theorem startChart_eq {m : Machine} (closed : m.Closed) {r : Recognizer}
    (h : Recognizer.ofMachine m = .ok r) : startChart m = some r.chart := by
  obtain ⟨set, hset, h⟩ := bind_eq_ok_iff.1 h
  cases h
  obtain ⟨set', hset', hadd, -⟩ :=
    (sits_empty m .empty).add closed (i := ⟨Machine.start, 0⟩) closed.start_lt (Nat.le_refl 0)
  obtain rfl := Except.ok.inj (hset.symm.trans hset')
  exact hadd

section

variable {r : Recognizer}

theorem lastLocation_eq (valid : r.Valid) : lastLocation r.chart = some r.location :=
  if_neg (Nat.ne_of_gt valid.nonempty)

theorem expectedNames_eq (valid : r.Valid) {expected : Expected}
    (h : r.expectedNames = .ok expected) : expectedNames r.machine r.chart = some expected := by
  obtain ⟨tokens, htokens, h⟩ := bind_eq_ok_iff.1 h
  obtain ⟨set, hset, htokens⟩ := bind_eq_ok_iff.1 htokens
  obtain ⟨scans, hscans, htokens⟩ := bind_eq_ok_iff.1 htokens
  cases htokens
  cases h
  exact Option.bind_eq_some_iff.2 ⟨_, lastLocation_eq valid, Option.bind_eq_some_iff.2
    ⟨set, toOption_of_ok hset, Option.bind_eq_some_iff.2 ⟨scans, mapM_toOption hscans, rfl⟩⟩⟩

theorem canAdvance_eq (valid : r.Valid) {token : Nat} {answer : Bool}
    (h : r.canAdvance token = .ok answer) : canAdvance r.machine r.chart token = some answer := by
  obtain ⟨set, hset, h⟩ := bind_eq_ok_iff.1 h
  obtain ⟨items, hitems, h⟩ := bind_eq_ok_iff.1 h
  cases h
  exact Option.bind_eq_some_iff.2 ⟨_, lastLocation_eq valid, Option.bind_eq_some_iff.2
    ⟨set, toOption_of_ok hset, Option.bind_eq_some_iff.2 ⟨items, toOption_of_ok hitems, rfl⟩⟩⟩

theorem isAccepted_eq (valid : r.Valid) {answer : Bool} (h : r.isAccepted = .ok answer) :
    isAccepted r.machine r.chart = some answer := by
  obtain ⟨set, hset, h⟩ := bind_eq_ok_iff.1 h
  obtain ⟨complete, hcomplete, h⟩ := bind_eq_ok_iff.1 h
  cases h
  exact Option.bind_eq_some_iff.2 ⟨_, lastLocation_eq valid, Option.bind_eq_some_iff.2
    ⟨set, toOption_of_ok hset, Option.bind_eq_some_iff.2
      ⟨complete, mapM_toOption hcomplete, rfl⟩⟩⟩

/-- The set behind a token grows out of the items that the token scans. -/
theorem nextChart_eq (valid : r.Valid) {token : Nat} {set start next : ChartSet}
    {items : List ChartItem} (hset : r.chart.set r.location = .ok set)
    (hitems : Recognizer.scanned r.machine set token = .ok items)
    (hstart : Recognizer.addAll r.machine (.empty (r.location + 1)) items = .ok start)
    (hnext : r.complete start = .ok next) :
    items.foldlM (add r.machine (r.location + 1)) (pushSet r.chart) = some (r.chart.push start) ∧
      completeFrom r.machine (r.location + 1) (r.machine.size * (r.location + 1 + 1) + 1) 0
        (r.chart.push start) = some (r.chart.push next) := by
  obtain ⟨hset_location, hfits, -⟩ := valid.sets _ set hset
  obtain ⟨items', hitems', hmem⟩ := Recognizer.scanned_ok hfits token
  obtain rfl := Except.ok.inj (hitems.symm.trans hitems')
  have hlt : ∀ j ∈ items, j.state < r.machine.size ∧ j.origin ≤ r.chart.size := by
    intro j hj
    obtain ⟨i, hi, s, target, hs, hscan, rfl⟩ := (hmem j).1 hj
    refine ⟨valid.closed.next _ s hs (.lex token) target hscan, ?_⟩
    rw [← valid.location_succ]
    exact Nat.le_succ_of_le (hset_location ▸ hfits.origin_le i hi)
  unfold Recognizer.complete at hnext
  rw [valid.location_succ] at hstart ⊢
  obtain ⟨hadded, sits⟩ := (sits_empty r.machine r.chart).addAll valid.closed hlt hstart
  have hbegins : r.Completing (fun _ => True) 0 start := ⟨sits.location_eq, sits.fits,
    sits.predictions, fun _ _ => trivial, Nat.zero_le _, fun k hk => absurd hk (Nat.not_lt_zero k)⟩
  rw [sits.location_eq] at hnext
  exact ⟨hadded, completeFrom_eq valid hbegins (by omega) hnext⟩

/-- A token is read at the last location without breaking off. -/
theorem advance_eq (valid : r.Valid) {token : Nat} {outcome : Except Diagnostic Recognizer}
    (h : r.advance r.location token = .ok outcome) :
    advance r.machine r.chart r.location token = some (outcome.map Recognizer.chart) := by
  unfold Recognizer.advance at h
  rw [if_neg fun hne => hne rfl] at h
  obtain ⟨set, hset, h⟩ := bind_eq_ok_iff.1 h
  obtain ⟨items, hitems, h⟩ := bind_eq_ok_iff.1 h
  unfold advance
  refine Option.bind_eq_some_iff.2 ⟨r.location, lastLocation_eq valid, ?_⟩
  rw [if_neg fun hne => hne rfl]
  refine Option.bind_eq_some_iff.2 ⟨set, toOption_of_ok hset, ?_⟩
  refine Option.bind_eq_some_iff.2 ⟨items, toOption_of_ok hitems, ?_⟩
  split
  · rename_i hempty
    rw [if_pos hempty] at h
    obtain ⟨expected, hexpected, h⟩ := bind_eq_ok_iff.1 h
    cases h
    exact Option.bind_eq_some_iff.2 ⟨expected, expectedNames_eq valid hexpected, rfl⟩
  · rename_i hempty
    rw [if_neg hempty] at h
    obtain ⟨start, hstart, h⟩ := bind_eq_ok_iff.1 h
    obtain ⟨next, hnext, h⟩ := bind_eq_ok_iff.1 h
    cases h
    obtain ⟨hadded, hcompleted⟩ := nextChart_eq valid hset hitems hstart hnext
    exact Option.bind_eq_some_iff.2 ⟨_, hadded, Option.bind_eq_some_iff.2 ⟨_, hcompleted, rfl⟩⟩

end

end LexChart.Checked
