import LexChart.Proofs.Recognizer.Machine
import LexChart.Recognizer.Run
set_option autoImplicit false

/-!
# Growing a set of items

A set only grows: items stay in their places, and whatever is inserted has a property that
prediction and completion keep.  Taking the property to be membership in the least set that is
closed under both, the set behind a token holds exactly the items of that least set.

Items of a set are different, have states of the machine and begin no later than the set, which
bounds how often something is inserted; the limits of the two loops are never what ends them.
-/

namespace LexChart

namespace Machine

/-- Whatever a state of the machine leads to is a state of it. -/
structure Closed (m : Machine) : Prop where
  start_lt : Machine.start < m.size
  next : ∀ id s, m.state id = .ok s → ∀ symbol target, s.next symbol = some target → target < m.size
  prediction : ∀ id s, m.state id = .ok s → ∀ target, s.prediction = some target → target < m.size

variable {m : Machine}

theorem exists_state_of_lt {id : Nat} (h : id < m.size) : ∃ s, m.state id = .ok s :=
  ⟨_, state_eq_ok_iff.2 (Array.getElem?_eq_getElem h)⟩

theorem lt_of_state {id : Nat} {s : MachineState} (h : m.state id = .ok s) : id < m.size :=
  (Array.getElem?_eq_some_iff.1 (state_eq_ok_iff.1 h)).1

theorem Simulates.closed_states {net : RuleNetwork} {g : Grammar} (h : m.Simulates net g) :
    m.Closed := by
  refine ⟨?_, fun id s hs symbol target hnext => ?_, fun id s hs target hprediction => ?_⟩
  · obtain ⟨s, hs, -⟩ := h.first
    exact lt_of_state hs
  · obtain ⟨t, ht, -⟩ := h.next id s hs symbol target hnext
    exact lt_of_state ht
  · obtain ⟨t, ht, -⟩ := h.predicts id s hs target hprediction
    exact lt_of_state ht

/-- A state predicts an item of the set at a location. -/
def Predicts (m : Machine) (location : Nat) (i j : ChartItem) : Prop :=
  ∃ s prediction, m.state i.state = .ok s ∧ s.prediction = some prediction ∧
    j = ⟨prediction, location⟩

/-- Items of the same state predict the same item. -/
theorem Predicts.of_state_eq {location id : Nat} {j k : ChartItem} {s : MachineState}
    (h : m.Predicts location k j) (hstate : k.state = id) (hs : m.state id = .ok s) :
    ∃ prediction, s.prediction = some prediction ∧ j = ⟨prediction, location⟩ := by
  obtain ⟨t, prediction, ht, hprediction, rfl⟩ := h
  rw [hstate, hs] at ht
  cases ht
  exact ⟨prediction, hprediction, rfl⟩

end Machine

namespace ChartSet

/-- The items are different, have states of the machine, and begin no later than the set. -/
structure Fits (set : ChartSet) (m : Machine) : Prop where
  nodup : set.items.toList.Nodup
  state_lt : ∀ i ∈ set.items, i.state < m.size
  origin_le : ∀ i ∈ set.items, i.origin ≤ set.location

/-- What the items predict is in the set. -/
def HoldsPredictions (set : ChartSet) (m : Machine) : Prop :=
  ∀ i ∈ set.items, ∀ j, m.Predicts set.location i j → j ∈ set.items

variable {m : Machine} {set : ChartSet}

theorem mem_items_push {i j : ChartItem} : j ∈ (set.push i).items ↔ j ∈ set.items ∨ j = i :=
  Array.mem_push

theorem fits_empty (m : Machine) (location : Nat) : (empty location).Fits m :=
  ⟨List.nodup_nil, by simp [empty], by simp [empty]⟩

theorem Fits.push (h : set.Fits m) {i : ChartItem} (hnew : i ∉ set.items)
    (hstate : i.state < m.size)
    (horigin : i.origin ≤ set.location) : (set.push i).Fits m := by
  refine ⟨?_, fun j hj => ?_, fun j hj => ?_⟩
  · show (set.items.push i).toList.Nodup
    rw [Array.toList_push]
    refine List.nodup_append.2 ⟨h.nodup, List.nodup_singleton i, fun j hj k hk heq => ?_⟩
    rw [List.mem_singleton.1 hk] at heq
    exact hnew (Array.mem_toList_iff.1 (heq ▸ hj))
  · rcases mem_items_push.1 hj with hj | rfl
    · exact h.state_lt j hj
    · exact hstate
  · rcases mem_items_push.1 hj with hj | rfl
    · exact h.origin_le j hj
    · exact horigin

/-- What the items predict is in the set, those aside that have a given state. -/
def HoldsPredictionsBut (set : ChartSet) (m : Machine) (id : Nat) : Prop :=
  ∀ i ∈ set.items, i.state ≠ id → ∀ j, m.Predicts set.location i j → j ∈ set.items

/-- Only what a new item predicts may be missing. -/
theorem HoldsPredictions.push (h : set.HoldsPredictions m) (i : ChartItem) :
    (set.push i).HoldsPredictionsBut m i.state := by
  intro k hk hne j hj
  rcases mem_items_push.1 hk with hk | rfl
  · exact mem_items_push.2 (.inl (h k hk j hj))
  · exact absurd rfl hne

section

variable {id : Nat} {s : MachineState}

theorem HoldsPredictionsBut.holds (h : set.HoldsPredictionsBut m id) (hs : m.state id = .ok s)
    (hthere : ∀ prediction, s.prediction = some prediction →
      ⟨prediction, set.location⟩ ∈ set.items) : set.HoldsPredictions m := by
  intro k hk j hpredicts
  by_cases hstate : k.state = id
  · obtain ⟨prediction, hprediction, rfl⟩ := hpredicts.of_state_eq hstate hs
    exact hthere prediction hprediction
  · exact h k hk hstate j hpredicts

/-- What was missing is the new item, and now what it predicts may be missing. -/
theorem HoldsPredictionsBut.push (h : set.HoldsPredictionsBut m id) (hs : m.state id = .ok s)
    {prediction : Nat} (hprediction : s.prediction = some prediction) :
    (set.push ⟨prediction, set.location⟩).HoldsPredictionsBut m prediction := by
  intro k hk hne j hj
  rcases mem_items_push.1 hk with hk | rfl
  · by_cases hstate : k.state = id
    · obtain ⟨other, hother, rfl⟩ := hj.of_state_eq hstate hs
      rw [hprediction] at hother
      cases hother
      exact mem_items_push.2 (.inr rfl)
    · exact mem_items_push.2 (.inl (h k hk hstate j hj))
  · exact absurd rfl hne

end

/-- There are no more items than pairs of a state and a location. -/
theorem Fits.size_le (h : set.Fits m) : set.size ≤ m.size * (set.location + 1) := by
  have hnodup : (set.items.toList.map fun i => (i.state, i.origin)).Nodup := by
    refine h.nodup.map fun i j heq => ?_
    cases i
    cases j
    cases heq
    rfl
  have hsub : (set.items.toList.map fun i => (i.state, i.origin)) ⊆
      List.range m.size ×ˢ List.range (set.location + 1) := by
    intro pair hpair
    obtain ⟨i, hi, rfl⟩ := List.mem_map.1 hpair
    have hi := Array.mem_toList_iff.1 hi
    refine List.mem_product.2 ⟨List.mem_range.2 (h.state_lt i hi), List.mem_range.2 ?_⟩
    exact Nat.lt_succ_of_le (h.origin_le i hi)
  have hle := (List.subperm_of_subset hnodup hsub).length_le
  rw [List.length_map, List.length_product, List.length_range, List.length_range] at hle
  exact hle

/-- The number of items that begin in the set itself. -/
def fresh (set : ChartSet) : Nat :=
  (set.items.toList.filter fun i => i.origin = set.location).length

/-- No two items that begin in the set itself have the same state. -/
theorem Fits.fresh_le (h : set.Fits m) : set.fresh ≤ m.size := by
  have hnodup : ((set.items.toList.filter fun i => i.origin = set.location).map
      ChartItem.state).Nodup := by
    refine List.Nodup.map_on (fun i hi j hj heq => ?_) (h.nodup.filter _)
    have horigin_i := of_decide_eq_true (List.mem_filter.1 hi).2
    have horigin_j := of_decide_eq_true (List.mem_filter.1 hj).2
    cases i
    cases j
    simp_all
  have hsub : ((set.items.toList.filter fun i => i.origin = set.location).map ChartItem.state) ⊆
      List.range m.size := by
    intro id hid
    obtain ⟨i, hi, rfl⟩ := List.mem_map.1 hid
    exact List.mem_range.2 (h.state_lt i (Array.mem_toList_iff.1 (List.mem_filter.1 hi).1))
  have hle := (List.subperm_of_subset hnodup hsub).length_le
  rwa [List.length_map, List.length_range] at hle

theorem fresh_push {i : ChartItem} (h : i.origin = set.location) :
    (set.push i).fresh = set.fresh + 1 := by
  unfold fresh push
  simp [List.filter_append, h]

theorem insert_cases (set : ChartSet) (i : ChartItem) :
    (i ∈ set.items ∧ set.insert i = (set, false)) ∨
      (i ∉ set.items ∧ set.insert i = (set.push i, true)) := by
  unfold insert
  split
  · rename_i h
    exact .inl ⟨contains_iff.1 h, rfl⟩
  · rename_i h
    exact .inr ⟨fun hi => h (contains_iff.2 hi), rfl⟩

/-- A set grows by items of a property, and holds what its items predict. -/
structure Grows (m : Machine) (property : ChartItem → Prop) (set set' : ChartSet) : Prop where
  location_eq : set'.location = set.location
  items : ∃ more, set'.items.toList = set.items.toList ++ more ∧ ∀ i ∈ more, property i
  fits : set'.Fits m
  predictions : set'.HoldsPredictions m

variable {property : ChartItem → Prop}

theorem Grows.refl (hfits : set.Fits m) (hpredictions : set.HoldsPredictions m) :
    Grows m property set set :=
  ⟨rfl, ⟨[], (List.append_nil _).symm, List.forall_mem_nil _⟩, hfits, hpredictions⟩

theorem Grows.size_le {set' : ChartSet} (h : Grows m property set set') : set.size ≤ set'.size := by
  obtain ⟨more, heq, -⟩ := h.items
  have hlength := congrArg List.length heq
  rw [List.length_append, Array.length_toList, Array.length_toList] at hlength
  unfold size
  omega

/-- What a set grows by comes behind its items. -/
theorem Grows.getElem?_eq {set' : ChartSet} (h : Grows m property set set') {k : Nat}
    (hk : k < set.size) : set'.items[k]? = set.items[k]? := by
  obtain ⟨more, heq, -⟩ := h.items
  have hlt : k < set.items.toList.length := by
    rw [Array.length_toList]
    exact hk
  rw [← Array.getElem?_toList, heq, List.getElem?_append_left hlt, Array.getElem?_toList]

theorem Grows.mem {set' : ChartSet} (h : Grows m property set set') {i : ChartItem}
    (hi : i ∈ set.items) : i ∈ set'.items := by
  obtain ⟨more, heq, -⟩ := h.items
  rw [← Array.mem_toList_iff, heq]
  exact List.mem_append_left more (Array.mem_toList_iff.2 hi)

theorem Grows.keeps {set' : ChartSet} (h : Grows m property set set')
    (hall : ∀ i ∈ set.items, property i) : ∀ i ∈ set'.items, property i := by
  obtain ⟨more, heq, hmore⟩ := h.items
  intro i hi
  rw [← Array.mem_toList_iff, heq] at hi
  rcases List.mem_append.1 hi with hi | hi
  · exact hall i (Array.mem_toList_iff.1 hi)
  · exact hmore i hi

theorem Grows.trans {set' set'' : ChartSet} (h : Grows m property set set')
    (k : Grows m property set' set'') : Grows m property set set'' := by
  obtain ⟨more, heq, hmore⟩ := h.items
  obtain ⟨more', heq', hmore'⟩ := k.items
  refine ⟨k.location_eq.trans h.location_eq, ⟨more ++ more', ?_, fun i hi => ?_⟩, k.fits,
    k.predictions⟩
  · rw [heq', heq, List.append_assoc]
  · exact (List.mem_append.1 hi).elim (hmore i) (hmore' i)

end ChartSet

namespace Recognizer

open ChartSet (Grows mem_items_push)

variable {m : Machine} {property : ChartItem → Prop}

/-! ## Predictions -/

section

variable {set : ChartSet} {id limit prediction : Nat} {s : MachineState}

theorem insertPredictions_none (hs : m.state id = .ok s) (h : s.prediction = none) :
    insertPredictions m (limit + 1) set id = .ok set := by
  rw [insertPredictions, hs]
  dsimp only [bind, Except.bind]
  rw [h]
  rfl

theorem insertPredictions_mem (hs : m.state id = .ok s) (h : s.prediction = some prediction)
    (hmem : ⟨prediction, set.location⟩ ∈ set.items) :
    insertPredictions m (limit + 1) set id = .ok set := by
  have hinsert := (set.insert_cases ⟨prediction, set.location⟩).resolve_right fun h => h.1 hmem
  rw [insertPredictions, hs]
  dsimp only [bind, Except.bind]
  rw [h]
  dsimp only
  rw [hinsert.2]
  rfl

theorem insertPredictions_new (hs : m.state id = .ok s) (h : s.prediction = some prediction)
    (hnew : ⟨prediction, set.location⟩ ∉ set.items) :
    insertPredictions m (limit + 1) set id =
      insertPredictions m limit (set.push ⟨prediction, set.location⟩) prediction := by
  have hinsert := (set.insert_cases ⟨prediction, set.location⟩).resolve_left fun h => hnew h.1
  rw [insertPredictions, hs]
  dsimp only [bind, Except.bind]
  rw [h]
  dsimp only
  rw [hinsert.2]

end

/-- Growing after one item has been inserted. -/
theorem grows_of_push {set set' : ChartSet} {i : ChartItem} (hi : property i)
    (h : Grows m property (set.push i) set') : Grows m property set set' := by
  obtain ⟨more, hmore, hall⟩ := h.items
  refine ⟨h.location_eq, ⟨i :: more, ?_, List.forall_mem_cons.2 ⟨hi, hall⟩⟩, h.fits, h.predictions⟩
  rw [hmore]
  show (set.items.push i).toList ++ more = _
  rw [Array.toList_push, List.append_assoc]
  rfl

/-- Inserting what a state predicts. -/
theorem insertPredictions_ok (closed : m.Closed) (limit : Nat) {set : ChartSet} {id : Nat}
    (hproperty : ∀ i j, property i → m.Predicts set.location i j → property j)
    (hfits : set.Fits m) (hid : ∃ i ∈ set.items, i.state = id ∧ property i)
    (hothers : set.HoldsPredictionsBut m id) (hlimit : m.size < limit + set.fresh) :
    ∃ set', insertPredictions m limit set id = .ok set' ∧ Grows m property set set' := by
  induction limit generalizing set id with
  | zero =>
    have hle := hfits.fresh_le
    omega
  | succ limit ih =>
    obtain ⟨i, hi, rfl, hi_property⟩ := hid
    obtain ⟨s, hs⟩ := Machine.exists_state_of_lt (hfits.state_lt i hi)
    cases hprediction : s.prediction with
    | none =>
      refine ⟨set, insertPredictions_none hs hprediction,
        .refl hfits (hothers.holds hs fun prediction h => ?_)⟩
      rw [hprediction] at h
      cases h
    | some prediction =>
      by_cases hmem : ⟨prediction, set.location⟩ ∈ set.items
      · refine ⟨set, insertPredictions_mem hs hprediction hmem,
          .refl hfits (hothers.holds hs fun other h => ?_)⟩
        rw [hprediction] at h
        cases h
        exact hmem
      · have hproperty_new := hproperty i _ hi_property ⟨s, prediction, hs, hprediction, rfl⟩
        have hfits_new :=
          hfits.push hmem (closed.prediction _ s hs prediction hprediction) (Nat.le_refl _)
        have hlimit_new : m.size < limit + (set.push ⟨prediction, set.location⟩).fresh := by
          rw [ChartSet.fresh_push rfl]
          omega
        have hlocation : (set.push ⟨prediction, set.location⟩).location = set.location := rfl
        rw [← hlocation] at hproperty
        obtain ⟨set', hset', hgrows⟩ := ih hproperty hfits_new
          ⟨_, mem_items_push.2 (.inr rfl), rfl, hproperty_new⟩ (hothers.push hs hprediction)
          hlimit_new
        refine ⟨set', ?_, grows_of_push hproperty_new hgrows⟩
        rw [insertPredictions_new hs hprediction hmem]
        exact hset'

/-- Inserting an item and what it predicts. -/
theorem add_ok (closed : m.Closed) {set : ChartSet} {i : ChartItem}
    (hproperty : ∀ i j, property i → m.Predicts set.location i j → property j)
    (hfits : set.Fits m) (hpredictions : set.HoldsPredictions m) (hi : property i)
    (hstate : i.state < m.size) (horigin : i.origin ≤ set.location) :
    ∃ set', add m set i = .ok set' ∧ Grows m property set set' ∧ i ∈ set'.items := by
  unfold add
  rcases set.insert_cases i with ⟨hmem, heq⟩ | ⟨hnew, heq⟩
  · rw [heq]
    exact ⟨set, rfl, .refl hfits hpredictions, hmem⟩
  · rw [heq]
    have hmem : i ∈ (set.push i).items := mem_items_push.2 (.inr rfl)
    have hlimit : m.size < m.size + 1 + (set.push i).fresh := by omega
    have hlocation : (set.push i).location = set.location := rfl
    rw [← hlocation] at hproperty
    obtain ⟨set', hset', hgrows⟩ := insertPredictions_ok closed (m.size + 1) hproperty
      (hfits.push hnew hstate horigin) ⟨i, hmem, rfl, hi⟩ (hpredictions.push i) hlimit
    exact ⟨set', hset', grows_of_push hi hgrows, hgrows.mem hmem⟩

/-- Inserting several items and what they predict. -/
theorem addAll_ok (closed : m.Closed) {set : ChartSet} {items : List ChartItem}
    (hproperty : ∀ i j, property i → m.Predicts set.location i j → property j)
    (hfits : set.Fits m) (hpredictions : set.HoldsPredictions m)
    (hitems : ∀ i ∈ items, property i ∧ i.state < m.size ∧ i.origin ≤ set.location) :
    ∃ set', addAll m set items = .ok set' ∧ Grows m property set set' ∧
      ∀ i ∈ items, i ∈ set'.items := by
  induction items generalizing set with
  | nil =>
    exact ⟨set, rfl, .refl hfits hpredictions, List.forall_mem_nil _⟩
  | cons i items ih =>
    obtain ⟨⟨hi, hstate, horigin⟩, hrest⟩ := List.forall_mem_cons.1 hitems
    obtain ⟨set₁, hset₁, hgrows₁, hmem⟩ :=
      add_ok closed hproperty hfits hpredictions hi hstate horigin
    rw [← hgrows₁.location_eq] at hproperty hrest
    obtain ⟨set₂, hset₂, hgrows₂, hall⟩ := ih hproperty hgrows₁.fits hgrows₁.predictions hrest
    refine ⟨set₂, ?_, hgrows₁.trans hgrows₂, List.forall_mem_cons.2 ⟨hgrows₂.mem hmem, hall⟩⟩
    unfold addAll
    rw [List.foldlM_cons, hset₁]
    exact hset₂

end Recognizer

end LexChart
