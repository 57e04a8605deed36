import LexChart.Automaton.Fragment
import LexChart.Proofs.Automaton.Closure
set_option autoImplicit false

/-!
# What a builder touches

A builder adds states behind those of an automaton and leaves these alone.  The states from `base`
on form its region: transitions that leave a state of the region stay inside, none of them leads to
the entry, and no state of the region is final yet.

Every builder of an expression is framed in this way, and so are the steps it is made of, which may
also add transitions between states of the region.
-/

namespace LexChart

namespace Nfa

variable {L : Type}

theorem size_addState (nfa : Nfa L) : nfa.addState.1.size = nfa.size + 1 :=
  Array.size_push ..

theorem size_lt_addState (nfa : Nfa L) : nfa.size < nfa.addState.1.size := by
  rw [size_addState]
  exact Nat.lt_succ_self _

theorem size_modifyState (nfa : Nfa L) (id : Nat) (f : NfaState L → NfaState L) :
    (nfa.modifyState id f).size = nfa.size :=
  Array.size_modify

theorem getElem?_addState (nfa : Nfa L) (id : Nat) :
    nfa.addState.1.states[id]? = if id = nfa.size then some {} else nfa.states[id]? :=
  Array.getElem?_push

theorem getElem?_modifyState (nfa : Nfa L) (source id : Nat) (f : NfaState L → NfaState L) :
    (nfa.modifyState source f).states[id]? =
      if source = id then nfa.states[id]?.map f else nfa.states[id]? :=
  Array.getElem?_modify

theorem state_eq_ok_iff {nfa : Nfa L} {id : Nat} {s : NfaState L} :
    nfa.state id = .ok s ↔ nfa.states[id]? = some s := by
  unfold state
  cases nfa.states[id]? <;> simp

theorem leaves_iff {nfa : Nfa L} {id : Nat} {t : Transition L} :
    nfa.Leaves id t ↔ ∃ s, nfa.states[id]? = some s ∧ t ∈ s.transitions := by
  unfold Leaves
  simp only [state_eq_ok_iff]

/-- A new state has no transitions. -/
theorem leaves_addState {nfa : Nfa L} {id : Nat} {t : Transition L} :
    nfa.addState.1.Leaves id t ↔ nfa.Leaves id t := by
  rw [leaves_iff, leaves_iff, getElem?_addState]
  split
  · rename_i hid
    have hnone : nfa.states[id]? = none := Array.getElem?_eq_none (by rw [hid]; exact Nat.le_refl _)
    simp [hnone]
  · rfl

/-- The automaton with a null transition out of an existing state. -/
def linked (nfa : Nfa L) (source target : Nat) : Nfa L :=
  nfa.modifyState source fun s => s.addTransition (.null target)

/-- One more transition leaves the state that it is added to, and nothing else changes. -/
theorem leaves_addTransition {nfa : Nfa L} {source id : Nat} {t u : Transition L} :
    (nfa.modifyState source fun s => s.addTransition t).Leaves id u ↔
      nfa.Leaves id u ∨ (id = source ∧ source < nfa.size ∧ u = t) := by
  rw [leaves_iff, leaves_iff, getElem?_modifyState]
  split
  · rename_i hid
    subst hid
    constructor
    · rintro ⟨s, hs, hu⟩
      obtain ⟨s₀, hs₀, rfl⟩ := Option.map_eq_some_iff.1 hs
      rcases List.mem_append.1 hu with hu | hu
      · exact .inl ⟨s₀, hs₀, hu⟩
      · exact .inr ⟨rfl, (Array.getElem?_eq_some_iff.1 hs₀).1, List.mem_singleton.1 hu⟩
    · rintro (⟨s₀, hs₀, hu⟩ | ⟨_, hlt, rfl⟩)
      · exact ⟨_, by rw [hs₀]; rfl, List.mem_append_left _ hu⟩
      · refine ⟨_, by rw [Array.getElem?_eq_getElem hlt]; rfl, ?_⟩
        exact List.mem_append_right _ (List.mem_singleton_self _)
  · rename_i hid
    constructor
    · exact .inl
    · rintro (h | ⟨rfl, _⟩)
      · exact h
      · exact absurd rfl hid

theorem size_linked (nfa : Nfa L) (source target : Nat) :
    (nfa.linked source target).size = nfa.size :=
  size_modifyState ..

theorem leaves_linked (nfa : Nfa L) {source : Nat} (target : Nat) (h : source < nfa.size) :
    (nfa.linked source target).Leaves source (.null target) :=
  leaves_addTransition.2 (.inr ⟨rfl, h, rfl⟩)

/-- The automaton with null transitions between the states of some pairs. -/
def linkedAll (nfa : Nfa L) (links : List (Nat × Nat)) : Nfa L :=
  links.foldl (fun nfa link => nfa.linked link.1 link.2) nfa

/-- Paths stay when transitions are added. -/
theorem Path.mono {σ : Type} {nfa nfa' : Nfa L} {reads : L → σ → Prop}
    (h : ∀ id t, nfa.Leaves id t → nfa'.Leaves id t) {p q : Nat} {w : List σ}
    (path : nfa.Path reads p w q) : nfa'.Path reads p w q := by
  induction path with
  | nil p => exact .nil p
  | null leaves _ ih => exact .null (h _ _ leaves) ih
  | symbol leaves stands _ ih => exact .symbol (h _ _ leaves) stands ih

/-- The second automaton has more states and more transitions between those from `base` on; states
below `base` are the same. -/
structure Grows (base : Nat) (nfa nfa' : Nfa L) : Prop where
  size_le : nfa.size ≤ nfa'.size
  kept : ∀ id < base, nfa'.states[id]? = nfa.states[id]?
  leaves : ∀ id t, nfa.Leaves id t → nfa'.Leaves id t

namespace Grows

variable {base : Nat} {nfa nfa' nfa'' : Nfa L}

theorem refl (base : Nat) (nfa : Nfa L) : Grows base nfa nfa :=
  ⟨Nat.le_refl _, fun _ _ => rfl, fun _ _ h => h⟩

theorem trans (h : Grows base nfa nfa') (k : Grows base nfa' nfa'') : Grows base nfa nfa'' :=
  ⟨Nat.le_trans h.size_le k.size_le, fun id hid => (k.kept id hid).trans (h.kept id hid),
    fun id t ht => k.leaves id t (h.leaves id t ht)⟩

theorem mono {low : Nat} (hle : low ≤ base) (h : Grows base nfa nfa') : Grows low nfa nfa' :=
  ⟨h.size_le, fun id hid => h.kept id (Nat.lt_of_lt_of_le hid hle), h.leaves⟩

theorem leaves_iff_of_lt (h : Grows base nfa nfa') {id : Nat} (hid : id < base)
    {t : Transition L} : nfa'.Leaves id t ↔ nfa.Leaves id t := by
  rw [leaves_iff, leaves_iff, h.kept id hid]

theorem path {σ : Type} {reads : L → σ → Prop} (h : Grows base nfa nfa') {p q : Nat} {w : List σ}
    (path : nfa.Path reads p w q) : nfa'.Path reads p w q :=
  path.mono h.leaves

end Grows

theorem grows_addState (base : Nat) (nfa : Nfa L) (h : base ≤ nfa.size) :
    Grows base nfa nfa.addState.1 := by
  refine ⟨by rw [size_addState]; omega, fun id hid => ?_, fun id t ht => leaves_addState.2 ht⟩
  rw [getElem?_addState, if_neg (by omega)]

theorem grows_addTransition (base : Nat) {source : Nat} (nfa : Nfa L) (t : Transition L)
    (h : base ≤ source) :
    Grows base nfa (nfa.modifyState source fun s => s.addTransition t) := by
  refine ⟨by rw [size_modifyState], fun id hid => ?_, fun id u hu => ?_⟩
  · rw [getElem?_modifyState, if_neg (by omega)]
  · exact leaves_addTransition.2 (.inl hu)

theorem grows_linkedAll (nfa : Nfa L) (links : List (Nat × Nat)) :
    Grows 0 nfa (nfa.linkedAll links) := by
  induction links generalizing nfa with
  | nil => exact .refl 0 nfa
  | cons link rest ih =>
    exact (grows_addTransition 0 nfa (.null link.2) (Nat.zero_le _)).trans (ih _)

theorem leaves_linkedAll (nfa : Nfa L) {links : List (Nat × Nat)} {id target : Nat}
    (hmem : (id, target) ∈ links) (hlt : id < nfa.size) :
    (nfa.linkedAll links).Leaves id (.null target) := by
  induction links generalizing nfa with
  | nil => exact nomatch hmem
  | cons link rest ih =>
    rcases List.mem_cons.1 hmem with rfl | hmem
    · exact (grows_linkedAll _ rest).leaves _ _ (leaves_linked nfa target hlt)
    · exact ih _ hmem (by rw [size_linked]; exact hlt)

/-- The states from `base` on: transitions stay among them and do not lead to the entry, labels have
a property, and no state is final. -/
structure Region (allowed : L → Prop) (base entry : Nat) (nfa : Nfa L) : Prop where
  base_le : base ≤ entry
  entry_lt : entry < nfa.size
  inside : ∀ id t, base ≤ id → nfa.Leaves id t →
    base ≤ t.target ∧ t.target < nfa.size ∧ t.target ≠ entry
  label : ∀ id l q, base ≤ id → nfa.Leaves id (.symbol l q) → allowed l
  accept : ∀ id s, base ≤ id → nfa.states[id]? = some s → s.accept = none

namespace Region

variable {allowed : L → Prop} {base entry : Nat} {nfa : Nfa L}

theorem addState (h : Region allowed base entry nfa) :
    Region allowed base entry nfa.addState.1 := by
  have hlt := h.entry_lt
  refine ⟨h.base_le, by rw [size_addState]; omega, fun id t hid ht => ?_, fun id l q hid ht => ?_,
    fun id s hid hs => ?_⟩
  · have := h.inside id t hid (leaves_addState.1 ht)
    exact ⟨this.1, by rw [size_addState]; omega, this.2.2⟩
  · exact h.label id l q hid (leaves_addState.1 ht)
  · rw [getElem?_addState] at hs
    split at hs
    · obtain rfl := Option.some.inj hs
      rfl
    · exact h.accept id s hid hs

/-- A region that begins with its entry. -/
theorem ofAddState (allowed : L → Prop) (nfa : Nfa L) :
    Region allowed nfa.size nfa.size nfa.addState.1 := by
  refine ⟨Nat.le_refl _, by rw [size_addState]; omega, fun id t hid ht => ?_,
    fun id l q hid ht => ?_, fun id s hid hs => ?_⟩
  · have := (leaves_addState.1 ht).lt
    omega
  · have := (leaves_addState.1 ht).lt
    omega
  · rw [getElem?_addState] at hs
    split at hs
    · obtain rfl := Option.some.inj hs
      rfl
    · have := (Array.getElem?_eq_some_iff.1 hs).1
      exact absurd this (Nat.not_lt.2 hid)

theorem addTransition (h : Region allowed base entry nfa) (source : Nat) (t : Transition L)
    (hbase : base ≤ t.target) (hlt : t.target < nfa.size) (hne : t.target ≠ entry)
    (hlabel : ∀ l, t.label? = some l → allowed l) :
    Region allowed base entry (nfa.modifyState source fun s => s.addTransition t) := by
  refine ⟨h.base_le, by rw [size_modifyState]; exact h.entry_lt, fun id u hid hu => ?_,
    fun id l q hid hu => ?_, fun id s hid hs => ?_⟩
  · rw [size_modifyState]
    rcases leaves_addTransition.1 hu with hu | ⟨_, _, rfl⟩
    · exact h.inside id u hid hu
    · exact ⟨hbase, hlt, hne⟩
  · rcases leaves_addTransition.1 hu with hu | ⟨_, _, rfl⟩
    · exact h.label id l q hid hu
    · exact hlabel l rfl
  · rw [getElem?_modifyState] at hs
    split at hs
    · obtain ⟨s₀, hs₀, rfl⟩ := Option.map_eq_some_iff.1 hs
      exact h.accept id s₀ hid hs₀
    · exact h.accept id s hid hs

theorem link (h : Region allowed base entry nfa) (source : Nat) {target : Nat}
    (hbase : base ≤ target) (hlt : target < nfa.size) (hne : target ≠ entry) :
    Region allowed base entry (nfa.linked source target) :=
  h.addTransition source (.null target) hbase hlt hne fun _ hl => nomatch hl

/-- A region takes in the region of a fragment that is built behind it. -/
theorem append {nfa' : Nfa L} {entry' : Nat} (h : Region allowed base entry nfa)
    (hgrows : Grows nfa.size nfa nfa') (h' : Region allowed nfa.size entry' nfa') :
    Region allowed base entry nfa' := by
  have hlt := h.entry_lt
  have hbase := h.base_le
  have hsize := hgrows.size_le
  refine ⟨h.base_le, by omega, fun id t hid ht => ?_, fun id l q hid ht => ?_,
    fun id s hid hs => ?_⟩
  · by_cases hold : id < nfa.size
    · have := h.inside id t hid ((hgrows.leaves_iff_of_lt hold).1 ht)
      exact ⟨this.1, by omega, this.2.2⟩
    · have := h'.inside id t (by omega) ht
      exact ⟨by omega, this.2.1, by omega⟩
  · by_cases hold : id < nfa.size
    · exact h.label id l q hid ((hgrows.leaves_iff_of_lt hold).1 ht)
    · exact h'.label id l q (by omega) ht
  · by_cases hold : id < nfa.size
    · rw [hgrows.kept id hold] at hs
      exact h.accept id s hid hs
    · exact h'.accept id s (by omega) hs

end Region

end Nfa

namespace Building

variable {L : Type} {allowed : L → Prop}

open Nfa

/-- A builder adds a region with its fragment behind the states that there are. -/
def Framed (allowed : L → Prop) (builder : Building L Fragment) : Prop :=
  ∀ nfa : Nfa L, Grows nfa.size nfa (builder nfa).2 ∧
    Region allowed nfa.size (builder nfa).1.entry (builder nfa).2 ∧
    nfa.size ≤ (builder nfa).1.exit ∧ (builder nfa).1.exit < (builder nfa).2.size

section

variable {builder : Building L Fragment} {nfa : Nfa L}

theorem Framed.grows (h : Framed allowed builder) (nfa : Nfa L) :
    Grows nfa.size nfa (builder nfa).2 := (h nfa).1

theorem Framed.region (h : Framed allowed builder) (nfa : Nfa L) :
    Region allowed nfa.size (builder nfa).1.entry (builder nfa).2 := (h nfa).2.1

theorem Framed.le_exit (h : Framed allowed builder) (nfa : Nfa L) :
    nfa.size ≤ (builder nfa).1.exit := (h nfa).2.2.1

theorem Framed.exit_lt (h : Framed allowed builder) (nfa : Nfa L) :
    (builder nfa).1.exit < (builder nfa).2.size := (h nfa).2.2.2

end

/-! ## The steps of builders -/

theorem run_bind {α β : Type} (action : Building L α) (next : α → Building L β) (nfa : Nfa L) :
    (action >>= next) nfa = next (action nfa).1 (action nfa).2 := rfl

theorem run_newState (nfa : Nfa L) : newState nfa = (nfa.size, nfa.addState.1) := rfl

/-- What a repetition of other than exactly one builds. -/
theorem repeated_apply (r : Repetition) (builder : Building L Fragment) (nfa : Nfa L)
    (h : ¬ (r.lower = 1 ∧ r.upper = some 1)) :
    repeated r builder nfa =
      match copies builder nfa.size none r.lower nfa.addState.1 with
      | ((last, copy), nfa₁) =>
        match r.upper with
        | none =>
          match copy with
          | none => loop builder nfa.size nfa₁
          | some copy => (⟨nfa.size, last⟩, nfa₁.linked copy.exit copy.entry)
        | some most =>
          match optionalCopies builder last nfa₁.size (most - r.lower) nfa₁.addState.1 with
          | (last, nfa₂) => (⟨nfa.size, nfa₁.size⟩, nfa₂.linked last nfa₁.size) := by
  unfold repeated
  rw [if_neg h, run_bind, run_newState]
  dsimp only
  rw [run_bind]
  rcases copies builder nfa.size none r.lower nfa.addState.1 with ⟨⟨last, copy⟩, nfa₁⟩
  cases r.upper <;> cases copy <;> rfl

/-- A step keeps what is below `base`, and a region stays a region. -/
structure Steps (allowed : L → Prop) (base entry : Nat) (nfa nfa' : Nfa L) : Prop where
  grows : Grows base nfa nfa'
  region : Region allowed base entry nfa'

namespace Steps

variable {base entry : Nat} {nfa nfa' nfa'' : Nfa L}

theorem trans (h : Steps allowed base entry nfa nfa') (k : Steps allowed base entry nfa' nfa'') :
    Steps allowed base entry nfa nfa'' :=
  ⟨h.grows.trans k.grows, k.region⟩

theorem link (h : Region allowed base entry nfa) (source target : Nat) (hsource : base ≤ source)
    (hbase : base ≤ target) (hlt : target < nfa.size) (hne : target ≠ entry) :
    Steps allowed base entry nfa (nfa.linked source target) :=
  ⟨grows_addTransition base nfa _ hsource, h.link source hbase hlt hne⟩

theorem linkAll (h : Region allowed base entry nfa) (links : List (Nat × Nat))
    (hlinks : ∀ link ∈ links, base ≤ link.1 ∧ base ≤ link.2 ∧ link.2 < nfa.size ∧
      link.2 ≠ entry) : Steps allowed base entry nfa (nfa.linkedAll links) := by
  induction links generalizing nfa with
  | nil => exact ⟨.refl base nfa, h⟩
  | cons first rest ih =>
    obtain ⟨hsource, hbase, hlt, hne⟩ := hlinks first List.mem_cons_self
    have hfirst := Steps.link h first.1 first.2 hsource hbase hlt hne
    refine hfirst.trans (ih hfirst.region fun link hlink => ?_)
    rw [size_linked]
    exact hlinks link (List.mem_cons_of_mem first hlink)

end Steps

/-- A step that ends in a state of the region. -/
structure StepsTo (allowed : L → Prop) (base entry : Nat) (nfa nfa' : Nfa L) (last : Nat) : Prop
    extends Steps allowed base entry nfa nfa' where
  le_last : base ≤ last
  last_lt : last < nfa'.size

namespace StepsTo

variable {base entry last : Nat} {nfa nfa' nfa'' : Nfa L}

theorem refl (h : Region allowed base entry nfa) (hbase : base ≤ last) (hlt : last < nfa.size) :
    StepsTo allowed base entry nfa nfa last :=
  ⟨⟨.refl base nfa, h⟩, hbase, hlt⟩

theorem trans (h : Steps allowed base entry nfa nfa')
    (k : StepsTo allowed base entry nfa' nfa'' last) :
    StepsTo allowed base entry nfa nfa'' last :=
  ⟨h.trans k.toSteps, k.le_last, k.last_lt⟩

/-- Steps that follow leave the state in the region. -/
theorem followed (h : StepsTo allowed base entry nfa nfa' last)
    (k : Steps allowed base entry nfa' nfa'') : StepsTo allowed base entry nfa nfa'' last :=
  ⟨h.toSteps.trans k, h.le_last, Nat.lt_of_lt_of_le h.last_lt k.grows.size_le⟩

theorem addState (h : Region allowed base entry nfa) :
    StepsTo allowed base entry nfa nfa.addState.1 nfa.size :=
  have hle := Nat.le_of_lt (Nat.lt_of_le_of_lt h.base_le h.entry_lt)
  ⟨⟨grows_addState base nfa hle, h.addState⟩, hle, size_lt_addState nfa⟩

/-- A framed builder is a step to the exit of its fragment. -/
theorem build {builder : Building L Fragment} (hbuilder : Framed allowed builder)
    (h : Region allowed base entry nfa) :
    StepsTo allowed base entry nfa (builder nfa).2 (builder nfa).1.exit :=
  have hle := Nat.le_of_lt (Nat.lt_of_le_of_lt h.base_le h.entry_lt)
  ⟨⟨(hbuilder.grows nfa).mono hle, h.append (hbuilder.grows nfa) (hbuilder.region nfa)⟩,
    Nat.le_trans hle (hbuilder.le_exit nfa), hbuilder.exit_lt nfa⟩

end StepsTo

/-- A builder is framed if it adds its entry and goes on from there to its exit. -/
theorem framed_of_stepsTo {builder : Building L Fragment}
    (hentry : ∀ nfa, (builder nfa).1.entry = nfa.size)
    (h : ∀ nfa, StepsTo allowed nfa.size nfa.size nfa.addState.1 (builder nfa).2
      (builder nfa).1.exit) : Framed allowed builder := by
  intro nfa
  have hsteps := h nfa
  rw [hentry nfa]
  exact ⟨(grows_addState _ nfa (Nat.le_refl _)).trans hsteps.grows, hsteps.region, hsteps.le_last,
    hsteps.last_lt⟩

/-- The automaton with a fragment behind its states that is entered from `last`. -/
def attached (builder : Building L Fragment) (last : Nat) (nfa : Nfa L) : Nfa L :=
  (builder nfa).2.linked last (builder nfa).1.entry

theorem size_attached (builder : Building L Fragment) (last : Nat) (nfa : Nfa L) :
    (attached builder last nfa).size = (builder nfa).2.size := size_linked ..

theorem attached_steps {builder : Building L Fragment} (hbuilder : Framed allowed builder)
    {base entry last : Nat} {nfa : Nfa L} (h : Region allowed base entry nfa)
    (hbase : base ≤ last) :
    StepsTo allowed base entry nfa (attached builder last nfa) (builder nfa).1.exit := by
  have hbuild := StepsTo.build hbuilder h
  have hregion := hbuilder.region nfa
  have hbase' := h.base_le
  have hentry := h.entry_lt
  have hentry_le := hregion.base_le
  exact hbuild.followed
    (Steps.link hbuild.region last _ hbase (by omega) hregion.entry_lt (by omega))

/-- The automaton with a fragment behind its states that leads from one state to another. -/
def bridged (builder : Building L Fragment) (entry exit : Nat) (nfa : Nfa L) : Nfa L :=
  (attached builder entry nfa).linked (builder nfa).1.exit exit

theorem size_bridged (builder : Building L Fragment) (entry exit : Nat) (nfa : Nfa L) :
    (bridged builder entry exit nfa).size = (builder nfa).2.size :=
  (size_linked ..).trans (size_attached ..)

theorem bridged_steps {builder : Building L Fragment} (hbuilder : Framed allowed builder)
    {base entry exit : Nat} {nfa : Nfa L} (h : Region allowed base entry nfa) (hbase : base ≤ exit)
    (hlt : exit < nfa.size) (hne : exit ≠ entry) :
    StepsTo allowed base entry nfa (bridged builder entry exit nfa) exit := by
  have hin := attached_steps hbuilder h h.base_le
  have hlt' := Nat.lt_of_lt_of_le hlt hin.grows.size_le
  have hout := Steps.link hin.region (builder nfa).1.exit exit hin.le_last hbase hlt' hne
  exact ⟨hin.toSteps.trans hout, hbase, Nat.lt_of_lt_of_le hlt' hout.grows.size_le⟩

theorem connectAll_steps {base entry : Nat} {labels : List L}
    (hlabels : ∀ l ∈ labels, allowed l) {nfa : Nfa L} (h : Region allowed base entry nfa)
    (source target : Nat) (hsource : base ≤ source) (hbase : base ≤ target)
    (hlt : target < nfa.size)
    (hne : target ≠ entry) :
    Steps allowed base entry nfa (connectAll source target labels nfa).2 := by
  induction labels generalizing nfa with
  | nil => exact ⟨.refl base nfa, h⟩
  | cons label rest ih =>
    have hfirst := h.addTransition source (.symbol label target) hbase hlt hne
      fun l hl => Option.some.inj hl ▸ hlabels label List.mem_cons_self
    have hrest := ih (fun l hl => hlabels l (List.mem_cons_of_mem label hl)) hfirst
      (by rw [size_modifyState]; exact hlt)
    exact ⟨(grows_addTransition base nfa _ hsource).trans hrest.grows, hrest.region⟩

theorem framed_symbols {labels : List L} (hlabels : ∀ l ∈ labels, allowed l) :
    Framed allowed (symbols labels) := by
  refine framed_of_stepsTo (fun _ => rfl) fun nfa => ?_
  have hentry := Region.ofAddState allowed nfa
  have hexit := StepsTo.addState hentry
  exact hexit.followed (connectAll_steps hlabels hexit.region nfa.size nfa.addState.1.size
    (Nat.le_refl _) hexit.le_last hexit.last_lt (Nat.ne_of_gt hentry.entry_lt))

theorem branches_steps {base entry : Nat} {builders : List (Building L Fragment)}
    (hbuilders : ∀ b ∈ builders, Framed allowed b) {nfa : Nfa L}
    (h : Region allowed base entry nfa) (exit : Nat) (hbase : base ≤ exit) (hlt : exit < nfa.size)
    (hne : exit ≠ entry) :
    Steps allowed base entry nfa (branches entry exit builders nfa).2 := by
  induction builders generalizing nfa with
  | nil => exact ⟨.refl base nfa, h⟩
  | cons b rest ih =>
    obtain ⟨hb, hrest⟩ := List.forall_mem_cons.1 hbuilders
    have hbranch := bridged_steps hb h hbase hlt hne
    exact hbranch.toSteps.trans (ih hrest hbranch.region hbranch.last_lt)

theorem framed_choice {builders : List (Building L Fragment)}
    (hbuilders : ∀ b ∈ builders, Framed allowed b) : Framed allowed (choice builders) := by
  refine framed_of_stepsTo (fun _ => rfl) fun nfa => ?_
  have hentry := Region.ofAddState allowed nfa
  have hexit := StepsTo.addState hentry
  exact hexit.followed (branches_steps hbuilders hexit.region nfa.addState.1.size hexit.le_last
    hexit.last_lt (Nat.ne_of_gt hentry.entry_lt))

/-- A chain ends in the region it begins in. -/
theorem chain_steps {base entry : Nat} {builders : List (Building L Fragment)}
    (hbuilders : ∀ b ∈ builders, Framed allowed b) {nfa : Nfa L}
    (h : Region allowed base entry nfa) (last : Nat) (hbase : base ≤ last) (hlt : last < nfa.size) :
    StepsTo allowed base entry nfa (chain last builders nfa).2 (chain last builders nfa).1 := by
  induction builders generalizing nfa last with
  | nil => exact .refl h hbase hlt
  | cons b rest ih =>
    obtain ⟨hb, hrest⟩ := List.forall_mem_cons.1 hbuilders
    have hitem := attached_steps hb h hbase
    exact .trans hitem.toSteps (ih hrest hitem.region _ hitem.le_last hitem.last_lt)

theorem framed_sequence {builders : List (Building L Fragment)}
    (hbuilders : ∀ b ∈ builders, Framed allowed b) : Framed allowed (sequence builders) :=
  framed_of_stepsTo (fun _ => rfl) fun nfa => chain_steps hbuilders (Region.ofAddState allowed nfa)
    nfa.size (Nat.le_refl _) (size_lt_addState nfa)

/-- The copy that was made last, if there is one, lies in the region and behind its entry. -/
def CopyWithin (base entry : Nat) (nfa : Nfa L) (copy : Option Fragment) : Prop :=
  ∀ c, copy = some c → base ≤ c.exit ∧ entry < c.entry ∧ c.entry < nfa.size

theorem copyWithin_none (base entry : Nat) (nfa : Nfa L) : CopyWithin base entry nfa none :=
  fun _ h => nomatch h

theorem copyWithin_attached {builder : Building L Fragment} (hbuilder : Framed allowed builder)
    {base entry last : Nat} {nfa : Nfa L} (h : Region allowed base entry nfa) (hbase : base ≤ last) :
    CopyWithin base entry (attached builder last nfa) (some (builder nfa).1) := by
  intro c hc
  obtain rfl := Option.some.inj hc
  have hregion := hbuilder.region nfa
  refine ⟨(attached_steps hbuilder h hbase).le_last,
    Nat.lt_of_lt_of_le h.entry_lt hregion.base_le, ?_⟩
  rw [size_attached]
  exact hregion.entry_lt

/-- Copies end in the region they begin in, and the last of them lies there. -/
theorem copies_steps {builder : Building L Fragment} (hbuilder : Framed allowed builder)
    {base entry : Nat} (last : Nat) (copy : Option Fragment) (count : Nat) {nfa : Nfa L}
    (h : Region allowed base entry nfa) (hbase : base ≤ last) (hlt : last < nfa.size)
    (hcopy : CopyWithin base entry nfa copy) :
    StepsTo allowed base entry nfa (copies builder last copy count nfa).2
        (copies builder last copy count nfa).1.1 ∧
      CopyWithin base entry (copies builder last copy count nfa).2
        (copies builder last copy count nfa).1.2 := by
  induction count generalizing nfa last copy with
  | zero => exact ⟨.refl h hbase hlt, hcopy⟩
  | succ count ih =>
    have hitem := attached_steps hbuilder h hbase
    obtain ⟨hrest, hend⟩ := ih (builder nfa).1.exit (some (builder nfa).1) hitem.region
      hitem.le_last hitem.last_lt (copyWithin_attached hbuilder h hbase)
    exact ⟨.trans hitem.toSteps hrest, hend⟩

/-- The copies that a repetition asks for, behind its entry. -/
theorem copies_new_steps {builder : Building L Fragment} (hbuilder : Framed allowed builder)
    (count : Nat) (nfa : Nfa L) :
    StepsTo allowed nfa.size nfa.size nfa.addState.1
        (copies builder nfa.size none count nfa.addState.1).2
        (copies builder nfa.size none count nfa.addState.1).1.1 ∧
      CopyWithin nfa.size nfa.size (copies builder nfa.size none count nfa.addState.1).2
        (copies builder nfa.size none count nfa.addState.1).1.2 :=
  copies_steps hbuilder nfa.size none count (Region.ofAddState allowed nfa) (Nat.le_refl _)
    (size_lt_addState nfa) (copyWithin_none _ _ _)

/-- The automaton with a fragment behind its states that is entered from `last` or left out. -/
def attachedOptional (builder : Building L Fragment) (last exit : Nat) (nfa : Nfa L) : Nfa L :=
  ((builder nfa).2.linked last exit).linked last (builder nfa).1.entry

/-- The null transitions behind which a copy may be left out: past it and into it. -/
def optionalLinks (last : Nat) (copy : Fragment) (exit : Nat) : List (Nat × Nat) :=
  [(last, exit), (last, copy.entry)]

theorem attachedOptional_eq (builder : Building L Fragment) (last exit : Nat) (nfa : Nfa L) :
    attachedOptional builder last exit nfa =
      (builder nfa).2.linkedAll (optionalLinks last (builder nfa).1 exit) := rfl

theorem attachedOptional_steps {builder : Building L Fragment} (hbuilder : Framed allowed builder)
    {base entry last exit : Nat} {nfa : Nfa L} (h : Region allowed base entry nfa)
    (hbase : base ≤ last) (hexit : base ≤ exit) (hexit_lt : exit < nfa.size)
    (hne : exit ≠ entry) :
    StepsTo allowed base entry nfa (attachedOptional builder last exit nfa)
      (builder nfa).1.exit := by
  have hitem := StepsTo.build hbuilder h
  have hregion := hbuilder.region nfa
  have hsize := hitem.grows.size_le
  have hbase' := h.base_le
  have hentry := h.entry_lt
  have hentry_le := hregion.base_le
  have hentry_lt := hregion.entry_lt
  rw [attachedOptional_eq]
  refine hitem.followed (Steps.linkAll hitem.region _ ?_)
  simp only [optionalLinks, List.forall_mem_cons]
  refine ⟨?_, ?_, fun _ hlink => nomatch hlink⟩ <;> omega

theorem optionalCopies_steps {builder : Building L Fragment} (hbuilder : Framed allowed builder)
    {base entry : Nat} (last exit count : Nat) {nfa : Nfa L}
    (h : Region allowed base entry nfa) (hbase : base ≤ last) (hlt : last < nfa.size)
    (hexit : base ≤ exit) (hexit_lt : exit < nfa.size) (hne : exit ≠ entry) :
    StepsTo allowed base entry nfa (optionalCopies builder last exit count nfa).2
      (optionalCopies builder last exit count nfa).1 := by
  induction count generalizing nfa last with
  | zero => exact .refl h hbase hlt
  | succ count ih =>
    have hitem := attachedOptional_steps hbuilder h hbase hexit hexit_lt hne
    exact .trans hitem.toSteps (ih _ hitem.region hitem.le_last hitem.last_lt
      (Nat.lt_of_lt_of_le hexit_lt hitem.grows.size_le))

/-- Copies that may be left out, together with the new state that they are left for. -/
theorem optional_steps {builder : Building L Fragment} (hbuilder : Framed allowed builder)
    {base entry : Nat} (last count : Nat) {nfa : Nfa L} (h : Region allowed base entry nfa)
    (hbase : base ≤ last) (hlt : last < nfa.size) :
    StepsTo allowed base entry nfa
      ((optionalCopies builder last nfa.size count nfa.addState.1).2.linked
        (optionalCopies builder last nfa.size count nfa.addState.1).1 nfa.size) nfa.size := by
  have hexit := StepsTo.addState h
  have hne := Nat.ne_of_gt h.entry_lt
  have hcopies := optionalCopies_steps hbuilder last nfa.size count hexit.region hbase
    (Nat.lt_trans hlt hexit.last_lt) hexit.le_last hexit.last_lt hne
  have hlt' := Nat.lt_of_lt_of_le hexit.last_lt hcopies.grows.size_le
  exact hexit.followed (hcopies.toSteps.trans
    (Steps.link hcopies.region _ nfa.size hcopies.le_last hexit.le_last hlt' hne))

/-- The null transitions of a loop: into the copy, past it, out of it, and back. -/
def loopLinks (entry : Nat) (copy : Fragment) (exit : Nat) : List (Nat × Nat) :=
  [(entry, copy.entry), (entry, exit), (copy.exit, exit), (copy.exit, copy.entry)]

theorem loop_apply (builder : Building L Fragment) (entry : Nat) (nfa : Nfa L) :
    loop builder entry nfa = (⟨entry, (builder nfa).2.size⟩, (builder nfa).2.addState.1.linkedAll
      (loopLinks entry (builder nfa).1 (builder nfa).2.size)) := rfl

theorem loop_steps {builder : Building L Fragment} (hbuilder : Framed allowed builder)
    {base entry : Nat} {nfa : Nfa L} (h : Region allowed base entry nfa) :
    StepsTo allowed base entry nfa (loop builder entry nfa).2 (loop builder entry nfa).1.exit := by
  have hcopy := StepsTo.build hbuilder h
  have hregion := hbuilder.region nfa
  have hbase := h.base_le
  have hentry := h.entry_lt
  have hentry_le := hregion.base_le
  have hentry_lt := hregion.entry_lt
  have hexit_le := hbuilder.le_exit nfa
  have hsize := (hbuilder.grows nfa).size_le
  have hexit := StepsTo.addState hcopy.region
  have hexit_lt := hexit.last_lt
  rw [loop_apply]
  refine .trans hcopy.toSteps (hexit.followed (Steps.linkAll hexit.region _ ?_))
  simp only [loopLinks, List.forall_mem_cons]
  refine ⟨?_, ?_, ?_, ?_, fun _ hlink => nomatch hlink⟩ <;> omega

theorem entry_repeated {r : Repetition} (honce : ¬ (r.lower = 1 ∧ r.upper = some 1))
    (builder : Building L Fragment) (nfa : Nfa L) :
    (repeated r builder nfa).1.entry = nfa.size := by
  rw [repeated_apply r builder nfa honce]
  rcases copies builder nfa.size none r.lower nfa.addState.1 with ⟨⟨last, copy⟩, nfa₁⟩
  cases r.upper <;> cases copy <;> rfl

theorem framed_repeated (r : Repetition) {builder : Building L Fragment}
    (hbuilder : Framed allowed builder) : Framed allowed (repeated r builder) := by
  by_cases honce : r.lower = 1 ∧ r.upper = some 1
  · unfold repeated
    rw [if_pos honce]
    exact hbuilder
  refine framed_of_stepsTo (entry_repeated honce builder) fun nfa => ?_
  obtain ⟨hcopies, hcopy⟩ := copies_new_steps hbuilder r.lower nfa
  rw [repeated_apply r builder nfa honce]
  generalize copies builder nfa.size none r.lower nfa.addState.1 = answer at *
  obtain ⟨⟨last, copy⟩, nfa₁⟩ := answer
  dsimp only at hcopies hcopy
  cases r.upper with
  | none =>
    cases copy with
    | none => exact .trans hcopies.toSteps (loop_steps hbuilder hcopies.region)
    | some copy =>
      obtain ⟨hexit_le, hcopy_gt, hcopy_lt⟩ := hcopy copy rfl
      exact hcopies.followed (Steps.link hcopies.region copy.exit copy.entry hexit_le
        (Nat.le_of_lt hcopy_gt) hcopy_lt (Nat.ne_of_gt hcopy_gt))
  | some most =>
    exact .trans hcopies.toSteps (optional_steps hbuilder last (most - r.lower) hcopies.region
      hcopies.le_last hcopies.last_lt)

theorem framed_joined (join : Join) {builders : List (Building L Fragment)}
    (hbuilders : ∀ b ∈ builders, Framed allowed b) : Framed allowed (joined join builders) := by
  cases join with
  | choice => exact framed_choice hbuilders
  | sequence => exact framed_sequence hbuilders

end Building

namespace Expr

variable {α L : Type} {allowed : L → Prop} {labels : α → List L}

open Building

mutual

/-- The builder of an expression touches nothing but the region that it adds. -/
theorem framed_builder (hlabels : ∀ t, ∀ l ∈ labels t, allowed l) :
    ∀ e : Expr α, Framed allowed (builder labels e)
  | .leaf m t => framed_repeated m.repetition (framed_symbols (hlabels t))
  | .node m join parts =>
    framed_repeated m.repetition (framed_joined join (framed_partBuilders hlabels parts))

theorem framed_partBuilders (hlabels : ∀ t, ∀ l ∈ labels t, allowed l) :
    ∀ parts : List (Expr α), ∀ b ∈ partBuilders labels parts, Framed allowed b
  | [], _, hb => nomatch hb
  | part :: rest, b, hb => by
    rcases List.mem_cons.1 hb with rfl | hb
    · exact framed_builder hlabels part
    · exact framed_partBuilders hlabels rest b hb

end

end Expr

end LexChart
