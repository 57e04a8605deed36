import LexChart.Automaton.Path
import LexChart.Proofs.Answers
import Mathlib.Data.Fintype.Card
import Mathlib.Data.Fintype.Powerset
import Mathlib.Logic.Relation
set_option autoImplicit false

/-!
# Closures are exact

`Sweep.collect` answers with the states that a frontier leads to, whatever the sweep was used for
before, as long as no state that does not exist is met.  It always leaves a sweep in which the
marked states are the members, and such a sweep is all that the next run needs.

Of the closures within an automaton of `size` states there are no more than sets of its states.
-/

namespace LexChart

open Relation

namespace Closure

@[ext] theorem ext {a b : Closure} (h : ∀ id, id ∈ a ↔ id ∈ b) : a = b := by
  obtain ⟨as, ha⟩ := a
  obtain ⟨bs, hb⟩ := b
  have hperm : as.Perm bs :=
    (List.perm_ext_iff_of_nodup (ha.imp Nat.ne_of_lt) (hb.imp Nat.ne_of_lt)).2 h
  have : as = bs := hperm.eq_of_pairwise (fun a b _ _ hab hba => by omega) ha hb
  subst this
  rfl

theorem mem_states {id : Nat} {c : Closure} : id ∈ c.states ↔ id ∈ c := Iff.rfl

/-- Every state of the closure is below `size`. -/
def Within (size : Nat) (c : Closure) : Prop := ∀ id ∈ c, id < size

/-- Different closures within `size` states are different sets of these states. -/
theorem length_le_of_nodup {size : Nat} {cs : List Closure} (nodup : cs.Nodup)
    (within : ∀ c ∈ cs, c.Within size) : cs.length ≤ Nat.pow 2 size := by
  let f : Closure → Finset Nat := fun c => c.states.toFinset
  have hinj : Function.Injective f := by
    intro a b hab
    ext id
    have := congrArg (id ∈ ·) hab
    simpa [f, mem_states] using this
  have hsub : (cs.map f).toFinset ⊆ (Finset.range size).powerset := by
    intro s hs
    obtain ⟨c, hc, rfl⟩ := List.mem_map.1 (List.mem_toFinset.1 hs)
    refine Finset.mem_powerset.2 fun id hid => ?_
    exact Finset.mem_range.2 (within c hc id (List.mem_toFinset.1 hid))
  have hcard := Finset.card_le_card hsub
  rw [List.toFinset_card_of_nodup (nodup.map hinj), List.length_map, Finset.card_powerset,
    Finset.card_range] at hcard
  exact hcard

end Closure

namespace Sweep

/-- A state is marked if and only if it is listed as a member. -/
def Sound (s : Sweep) : Prop := ∀ id, id ∈ s.visited ↔ id ∈ s.members

theorem sound_new : Sound {} := by
  intro id
  simp

theorem run_lift {α : Type} (answer : Except Fault α) (s : Sweep) :
    (liftM answer : Sweeping α).run.run s = (answer, s) := by
  cases answer <;> rfl

/-- An action that succeeds hands its sweep to the next one. -/
theorem run_bind_ok {α β : Type} {action : Sweeping α} {next : α → Sweeping β} {s s' : Sweep}
    {a : α} (h : action.run.run s = (.ok a, s')) :
    (action >>= next).run.run s = (next a).run.run s' := by
  rw [run_run_bind, h]

/-! ## Marks -/

theorem mem_foldl_erase {id : Nat} (ids : List Nat) (visited : Std.HashSet Nat) :
    id ∈ ids.foldl (fun visited id => visited.erase id) visited ↔ id ∈ visited ∧ id ∉ ids := by
  induction ids generalizing visited with
  | nil => simp
  | cons first rest ih =>
    rw [List.foldl_cons, ih, Std.HashSet.mem_erase, List.mem_cons]
    grind

/-- Marks are taken away completely if they are those of the members. -/
theorem Sound.not_mem_clear {s : Sweep} (h : s.Sound) (id : Nat) : id ∉ s.clear.visited := by
  intro hid
  obtain ⟨hv, hm⟩ := (mem_foldl_erase s.members s.visited).1 hid
  exact hm ((h id).1 hv)

theorem Sound.clear {s : Sweep} (h : s.Sound) : s.clear.Sound := by
  intro id
  constructor
  · intro hid
    exact absurd hid (h.not_mem_clear id)
  · intro hid
    simp [Sweep.clear] at hid

theorem Sound.mark {s : Sweep} (h : s.Sound) (id : Nat) : (s.mark id).Sound := by
  intro other
  have := h other
  simp only [Sweep.mark, Std.HashSet.mem_insert, List.mem_cons, beq_iff_eq]
  grind

theorem run_reset (size : Nat) (s : Sweep) :
    (reset size).run.run s = (checkSize size 1, s.clear) := rfl

/-- What `push` leaves behind if it answers. -/
def marked (s : Sweep) (id : Nat) : Sweep := if id ∈ s.visited then s else s.mark id

theorem Sound.marked {s : Sweep} (h : s.Sound) (id : Nat) : (s.marked id).Sound := by
  unfold Sweep.marked
  split
  · exact h
  · exact h.mark id

theorem run_push (id : Nat) (s : Sweep) :
    (push id).run.run s = match checkCount (id + 1) >>= fun size => checkSize size 1 with
      | .ok _ => (.ok (decide (id ∉ s.visited)), s.marked id)
      | .error fault => (.error fault, s) := by
  unfold push Sweep.marked
  rw [run_run_bind, run_lift]
  cases checkCount (id + 1) with
  | error fault => rfl
  | ok size =>
    show _ = match checkSize size 1 with | .ok _ => _ | .error fault => _
    dsimp only
    rw [run_run_bind, run_lift]
    cases checkSize size 1 with
    | error fault => rfl
    | ok _ =>
      by_cases hid : id ∈ s.visited
      · simp only [hid, if_true, not_true, decide_false]
        show (if id ∈ s.visited then _ else _ : Sweeping Bool).run.run s = _
        rw [if_pos hid]
        rfl
      · simp only [hid, if_false, not_false_eq_true, decide_true]
        show (if id ∈ s.visited then _ else _ : Sweeping Bool).run.run s = _
        rw [if_neg hid]
        rfl

theorem checkCount_of_lt {count : Nat} (h : count < sizeLimit) : checkCount count = .ok count := by
  unfold checkCount countLimit
  rw [if_pos]
  unfold sizeLimit at h
  exact Nat.lt_of_lt_of_le h (by decide)

theorem checkSize_of_lt {length : Nat} (h : length < sizeLimit) : checkSize length 1 = .ok () := by
  unfold checkSize
  rw [Nat.mul_one, if_pos h]

theorem checkSize_of_not_lt {length : Nat} (h : ¬ length < sizeLimit) :
    checkSize length 1 = .error .sizeOverflow := by
  unfold checkSize
  rw [Nat.mul_one, if_neg h]

/-- A state that a list can have as its index is marked. -/
theorem run_push_of_lt {id : Nat} {s : Sweep} (h : id + 1 < sizeLimit) :
    (push id).run.run s = (.ok (decide (id ∉ s.visited)), s.marked id) := by
  rw [run_push, checkCount_of_lt h]
  simp only [bind, Except.bind, checkSize_of_lt h]

/-- What marking the states of a list does to a sweep: the new ones are put in front of the members
and of the states to be followed. -/
structure Grows (s : Sweep) (ids : List Nat) (s' : Sweep) : Prop where
  sound : s'.Sound
  added : ∃ new, s'.members = new ++ s.members ∧ s'.stack = new ++ s.stack ∧ ∀ id ∈ new, id ∈ ids
  nodup : s.members.Nodup → s'.members.Nodup
  mem : ∀ id ∈ ids, id ∈ s'.members

theorem Sound.grows_nil {s : Sweep} (h : s.Sound) : s.Grows [] s :=
  ⟨h, ⟨[], rfl, rfl, fun _ hnew => nomatch hnew⟩, fun hnodup => hnodup, fun _ hid => nomatch hid⟩

theorem Sound.grows_marked {s : Sweep} (h : s.Sound) (id : Nat) : s.Grows [id] (s.marked id) := by
  unfold Sweep.marked
  split
  · rename_i hid
    refine ⟨h, ⟨[], rfl, rfl, fun _ hnew => nomatch hnew⟩, fun hnodup => hnodup, ?_⟩
    intro other hother
    rw [List.mem_singleton.1 hother]
    exact (h id).1 hid
  · rename_i hid
    refine ⟨h.mark id, ⟨[id], rfl, rfl, fun _ hnew => hnew⟩, ?_, ?_⟩
    · intro hnodup
      exact List.nodup_cons.2 ⟨fun hm => hid ((h id).2 hm), hnodup⟩
    · intro other hother
      rw [List.mem_singleton.1 hother]
      exact List.mem_cons_self

theorem Grows.members_subset {s s' : Sweep} {ids : List Nat} (h : s.Grows ids s') {id : Nat}
    (hid : id ∈ s.members) : id ∈ s'.members := by
  obtain ⟨new, hm, _, _⟩ := h.added
  rw [hm]
  exact List.mem_append_right new hid

theorem Grows.cons {s s' s'' : Sweep} {id : Nat} {ids : List Nat} (h : s.Grows [id] s')
    (k : s'.Grows ids s'') : s.Grows (id :: ids) s'' := by
  obtain ⟨new, hm, hs, hnew⟩ := h.added
  obtain ⟨more, km, ks, kmore⟩ := k.added
  refine ⟨k.sound, ⟨more ++ new, ?_, ?_, ?_⟩, fun hnodup => k.nodup (h.nodup hnodup), ?_⟩
  · rw [km, hm, List.append_assoc]
  · rw [ks, hs, List.append_assoc]
  · intro other hother
    rcases List.mem_append.1 hother with hother | hother
    · exact List.mem_cons_of_mem id (kmore other hother)
    · rw [List.mem_singleton.1 (hnew other hother)]
      exact List.mem_cons_self
  · intro other hother
    rcases List.mem_cons.1 hother with rfl | hother
    · exact k.members_subset (h.mem _ List.mem_cons_self)
    · exact k.mem other hother

theorem run_pushAll_of_lt {ids : List Nat} {s : Sweep} (h : s.Sound)
    (hids : ∀ id ∈ ids, id + 1 < sizeLimit) :
    ∃ s', (pushAll ids).run.run s = (.ok (), s') ∧ s.Grows ids s' := by
  induction ids generalizing s with
  | nil =>
    exact ⟨s, rfl, h.grows_nil⟩
  | cons id rest ih =>
    have hfirst := h.grows_marked id
    obtain ⟨s', hrun, hgrows⟩ := ih hfirst.sound fun other hother => hids other (by simp [hother])
    refine ⟨s', ?_, hfirst.cons hgrows⟩
    rw [pushAll, run_bind_ok (run_push_of_lt (hids id List.mem_cons_self)), hrun]

/-! ## Runs -/

/-- `next` leads from one state to another. -/
def Leads (next : Nat → Except Fault (List Nat)) (a b : Nat) : Prop :=
  ∃ ids, next a = .ok ids ∧ b ∈ ids

/-- Some state of the frontier leads to the state. -/
def Found (next : Nat → Except Fault (List Nat)) (frontier : List Nat) (id : Nat) : Prop :=
  ∃ f ∈ frontier, ReflTransGen (Leads next) f id

/-- All states below `size` are known, and lead to states below `size`. -/
def Confined (size : Nat) (next : Nat → Except Fault (List Nat)) : Prop :=
  ∀ id < size, ∃ ids, next id = .ok ids ∧ ∀ other ∈ ids, other < size

/-- What holds between two steps of a run: only states that the frontier leads to are marked, and
all that marked ones lead to are marked, those aside that are still to be followed. -/
structure Collecting (size : Nat) (next : Nat → Except Fault (List Nat)) (frontier : List Nat)
    (s : Sweep) : Prop where
  sound : s.Sound
  nodup : s.members.Nodup
  lt : ∀ id ∈ s.members, id < size
  found : ∀ id ∈ s.members, Found next frontier id
  frontier_mem : ∀ id ∈ frontier, id ∈ s.members
  stack_mem : ∀ id ∈ s.stack, id ∈ s.members
  followed : ∀ id ∈ s.members, id ∈ s.stack ∨ ∀ other, Leads next id other → other ∈ s.members

variable {size : Nat} {next : Nat → Except Fault (List Nat)} {frontier : List Nat}

/-- No more than `size` states are below `size`. -/
theorem length_le_of_nodup {ids : List Nat} (nodup : ids.Nodup) (lt : ∀ id ∈ ids, id < size) :
    ids.length ≤ size := by
  have hsub : ids ⊆ List.range size := fun id hid => List.mem_range.2 (lt id hid)
  have := (List.subperm_of_subset nodup hsub).length_le
  rwa [List.length_range] at this

theorem Collecting.length_le {s : Sweep} (h : Collecting size next frontier s) :
    s.members.length ≤ size :=
  length_le_of_nodup h.nodup h.lt

/-- Following the next state keeps what holds between two steps. -/
theorem Collecting.follow {s s' : Sweep} {id : Nat} {stack ids : List Nat}
    (h : Collecting size next frontier s) (hstack : s.stack = id :: stack)
    (hids : next id = .ok ids) (hlt : ∀ other ∈ ids, other < size)
    (hgrows : Grows { s with stack } ids s') : Collecting size next frontier s' := by
  obtain ⟨new, hm, hs, hnew⟩ := hgrows.added
  have hid : id ∈ s.members := h.stack_mem id (hstack ▸ List.mem_cons_self)
  have hmem : ∀ other, other ∈ s'.members ↔ other ∈ new ∨ other ∈ s.members := by
    intro other
    rw [hm, List.mem_append]
  refine ⟨hgrows.sound, hgrows.nodup h.nodup, ?_, ?_, ?_, ?_, ?_⟩
  · intro other hother
    rcases (hmem other).1 hother with hother | hother
    · exact hlt other (hnew other hother)
    · exact h.lt other hother
  · intro other hother
    rcases (hmem other).1 hother with hother | hother
    · obtain ⟨f, hf, hreach⟩ := h.found id hid
      exact ⟨f, hf, hreach.tail ⟨ids, hids, hnew other hother⟩⟩
    · exact h.found other hother
  · exact fun other hother => (hmem other).2 (.inr (h.frontier_mem other hother))
  · intro other hother
    rw [hs, List.mem_append] at hother
    rcases hother with hother | hother
    · exact (hmem other).2 (.inl hother)
    · exact (hmem other).2 (.inr (h.stack_mem other (by rw [hstack]; simp [hother])))
  · intro other hother
    rcases (hmem other).1 hother with hother | hother
    · exact .inl (by rw [hs]; simp [hother])
    · rcases h.followed other hother with hwaits | hdone
      · rw [hstack] at hwaits
        rcases List.mem_cons.1 hwaits with rfl | hwaits
        · refine .inr fun target htarget => ?_
          obtain ⟨targets, htargets, hin⟩ := htarget
          rw [hids] at htargets
          exact hgrows.mem target (Except.ok.inj htargets ▸ hin)
        · exact .inl (by rw [hs]; simp [hwaits])
      · exact .inr fun target htarget => (hmem target).2 (.inr (hdone target htarget))

theorem run_pop_nil {s : Sweep} (h : s.stack = []) : pop.run.run s = (.ok none, s) := by
  obtain ⟨visited, members, stack⟩ := s
  subst h
  rfl

theorem run_pop_cons {s : Sweep} {id : Nat} {stack : List Nat} (h : s.stack = id :: stack) :
    pop.run.run s = (.ok (some id), { s with stack }) := by
  obtain ⟨visited, members, whole⟩ := s
  subst h
  rfl

theorem run_run_ok (hlimit : size < sizeLimit) (confined : Confined size next) (limit : Nat)
    (s : Sweep) (h : Collecting size next frontier s)
    (hlen : size + s.stack.length < limit + s.members.length) :
    ∃ s', (run next limit).run.run s = (.ok (), s') ∧ Collecting size next frontier s' ∧
      s'.stack = [] := by
  induction limit generalizing s with
  | zero =>
    have := h.length_le
    omega
  | succ limit ih =>
    rw [run]
    cases hstack : s.stack with
    | nil =>
      exact ⟨s, by rw [run_bind_ok (run_pop_nil hstack)]; rfl, h, hstack⟩
    | cons id stack =>
      have hid : id ∈ s.members := h.stack_mem id (hstack ▸ List.mem_cons_self)
      obtain ⟨ids, hids, hlt⟩ := confined id (h.lt id hid)
      have hsound : Sound { s with stack } := h.sound
      obtain ⟨s', hpush, hgrows⟩ := run_pushAll_of_lt hsound
        fun other hother => Nat.lt_of_le_of_lt (hlt other hother) hlimit
      have hnext := h.follow hstack hids hlt hgrows
      obtain ⟨new, hm, hs, _⟩ := hgrows.added
      obtain ⟨s'', hrun, hdone⟩ := ih s' hnext (by
        rw [hm, hs, List.length_append, List.length_append]
        rw [hstack, List.length_cons] at hlen
        show size + (new.length + stack.length) < limit + (new.length + s.members.length)
        omega)
      refine ⟨s'', ?_, hdone⟩
      rw [run_bind_ok (run_pop_cons hstack)]
      show ((liftM (next id) : Sweeping (List Nat)) >>= _).run.run _ = _
      rw [run_run_bind, run_lift, hids]
      show (pushAll ids >>= _).run.run _ = _
      rw [run_bind_ok hpush, hrun]

theorem mem_closure {s : Sweep} {id : Nat} : id ∈ s.closure ↔ id ∈ s.members :=
  Closure.mem_ofList

/-- The answer of a run: the states that the frontier leads to, whatever was marked before.  All of
them are followed. -/
theorem run_collect_ok (hlimit : size < sizeLimit) (confined : Confined size next)
    (hfrontier : ∀ id ∈ frontier, id < size) {s : Sweep} (h : s.Sound) :
    ∃ c s', (collect size next frontier).run.run s = (.ok c, s') ∧ s'.Sound ∧ s'.stack = [] ∧
      ∀ id, id ∈ c ↔ Found next frontier id := by
  have hreset : (reset size).run.run s = (.ok (), s.clear) := by
    rw [run_reset, checkSize_of_lt hlimit]
  obtain ⟨s₁, hpush, hgrows⟩ := run_pushAll_of_lt h.clear
    fun id hid => Nat.lt_of_le_of_lt (hfrontier id hid) hlimit
  obtain ⟨new, hm, hs, hnew⟩ := hgrows.added
  have hm' : s₁.members = new := by rw [hm]; exact List.append_nil new
  have hs' : s₁.stack = new := by rw [hs]; exact List.append_nil new
  have hstart : Collecting size next frontier s₁ := by
    refine ⟨hgrows.sound, hgrows.nodup List.nodup_nil, ?_, ?_, hgrows.mem, ?_, ?_⟩
    · exact fun id hid => hfrontier id (hnew id (hm' ▸ hid))
    · exact fun id hid => ⟨id, hnew id (hm' ▸ hid), .refl⟩
    · exact fun id hid => by rwa [hm', ← hs']
    · exact fun id hid => .inl (by rwa [hs', ← hm'])
  obtain ⟨s₂, hrun, hdone, hempty⟩ := run_run_ok hlimit confined (size + 1) s₁ hstart
    (by rw [hm', hs']; omega)
  refine ⟨s₂.closure, s₂, ?_, hdone.sound, hempty, fun id => ?_⟩
  · unfold collect
    rw [run_bind_ok hreset, run_bind_ok hpush, run_bind_ok hrun]
    rfl
  · rw [mem_closure]
    constructor
    · exact hdone.found id
    · rintro ⟨f, hf, hreach⟩
      induction hreach with
      | refl => exact hdone.frontier_mem f hf
      | tail _ hstep ih =>
        rcases hdone.followed _ ih with hwaits | hall
        · rw [hempty] at hwaits
          exact nomatch hwaits
        · exact hall _ hstep

/-- A new sweep collects the states that the frontier leads to. -/
theorem fresh_collect_ok (hlimit : size < sizeLimit) (confined : Confined size next)
    (hfrontier : ∀ id ∈ frontier, id < size) :
    ∃ c, fresh (collect size next frontier) = .ok c ∧ ∀ id, id ∈ c ↔ Found next frontier id := by
  obtain ⟨c, s', hrun, _, _, hc⟩ := run_collect_ok hlimit confined hfrontier sound_new
  exact ⟨c, by unfold fresh; rw [hrun], hc⟩

/-- An automaton that does not fit in memory is refused after all marks are taken away. -/
theorem run_collect_of_not_lt (h : ¬ size < sizeLimit) (s : Sweep) :
    (collect size next frontier).run.run s = (.error .sizeOverflow, s.clear) := by
  unfold collect
  rw [run_run_bind, run_reset, checkSize_of_not_lt h]

theorem fresh_collect_of_not_lt (h : ¬ size < sizeLimit) :
    fresh (collect size next frontier) = .error .sizeOverflow := by
  unfold fresh
  rw [run_collect_of_not_lt h]

/-- An automaton that a sweep answers for fits in memory. -/
theorem lt_sizeLimit_of_fresh_collect {c : Closure}
    (h : fresh (collect size next frontier) = .ok c) : size < sizeLimit := by
  by_contra hge
  rw [fresh_collect_of_not_lt hge] at h
  cases h

/-- A closure holds only states of the automaton. -/
theorem Found.lt (confined : Confined size next) (hfrontier : ∀ id ∈ frontier, id < size)
    {id : Nat} (h : Found next frontier id) : id < size := by
  obtain ⟨f, hf, hreach⟩ := h
  induction hreach with
  | refl => exact hfrontier f hf
  | tail _ hstep ih =>
    obtain ⟨ids, hids, hin⟩ := hstep
    obtain ⟨ids', hids', hlt⟩ := confined _ ih
    rw [hids] at hids'
    exact hlt _ (Except.ok.inj hids' ▸ hin)

end Sweep

namespace Nfa

variable {L : Type} {nfa : Nfa L}

theorem state_of_lt {id : Nat} (h : id < nfa.size) : nfa.state id = .ok nfa.states[id] := by
  unfold state
  rw [Array.getElem?_eq_getElem h]

theorem changeState_of_lt {id : Nat} (h : id < nfa.size) (f : NfaState L → NfaState L) :
    nfa.changeState id f = .ok (nfa.modifyState id f) := by
  unfold changeState
  rw [state_of_lt h]
  rfl

theorem lt_of_state {id : Nat} {s : NfaState L} (h : nfa.state id = .ok s) : id < nfa.size := by
  unfold state at h
  split at h
  · rename_i hs
    exact (Array.getElem?_eq_some_iff.1 hs).1
  · cases h

theorem leaves_iff_of_state {id : Nat} {s : NfaState L} (h : nfa.state id = .ok s)
    {t : Transition L} : nfa.Leaves id t ↔ t ∈ s.transitions := by
  constructor
  · rintro ⟨s', hs', ht⟩
    rw [h] at hs'
    cases hs'
    exact ht
  · exact fun ht => ⟨s, h, ht⟩

theorem Leaves.lt {id : Nat} {t : Transition L} (h : nfa.Leaves id t) : id < nfa.size := by
  obtain ⟨s, hs, _⟩ := h
  exact lt_of_state hs

theorem leads_nullTargets {a b : Nat} :
    Sweep.Leads nfa.nullTargets a b ↔ nfa.Leaves a (.null b) := by
  unfold Sweep.Leads nullTargets Leaves
  constructor
  · rintro ⟨ids, hids, hb⟩
    cases hs : nfa.state a with
    | error fault => rw [hs] at hids; cases hids
    | ok s =>
      rw [hs] at hids
      obtain rfl := Except.ok.inj hids
      obtain ⟨t, ht, hnull⟩ := List.mem_filterMap.1 hb
      cases t with
      | null target =>
        obtain rfl := Option.some.inj hnull
        exact ⟨s, rfl, ht⟩
      | symbol label target => cases hnull
  · rintro ⟨s, hs, ht⟩
    exact ⟨s.nullTargets, by rw [hs]; rfl, List.mem_filterMap.2 ⟨_, ht, rfl⟩⟩

/-- The transitive closure of null transitions, in the two forms of this library. -/
theorem nullReach_iff {a b : Nat} :
    nfa.NullReach a b ↔ ReflTransGen (Sweep.Leads nfa.nullTargets) a b := by
  constructor
  · intro h
    induction h with
    | refl => exact .refl
    | step leaves _ ih => exact .head (leads_nullTargets.2 leaves) ih
  · intro h
    induction h using ReflTransGen.head_induction_on with
    | refl => exact .refl _
    | head leads _ ih => exact .step (leads_nullTargets.1 leads) ih

theorem confined_nullTargets (h : nfa.TargetsExist) : Sweep.Confined nfa.size nfa.nullTargets := by
  intro id hid
  refine ⟨_, by unfold nullTargets; rw [state_of_lt hid]; rfl, fun other hother => ?_⟩
  obtain ⟨t, ht, hnull⟩ := List.mem_filterMap.1 hother
  cases t with
  | null target =>
    obtain rfl := Option.some.inj hnull
    exact h id _ ⟨_, state_of_lt hid, ht⟩
  | symbol label target => cases hnull

/-- A null closure holds exactly the states that null transitions lead to from the frontier. -/
theorem nullClosure_ok (hlimit : nfa.size < sizeLimit) (h : nfa.TargetsExist) {frontier : List Nat}
    (hfrontier : ∀ id ∈ frontier, id < nfa.size) :
    ∃ c, nfa.nullClosure frontier = .ok c ∧
      ∀ id, id ∈ c ↔ ∃ f ∈ frontier, nfa.NullReach f id := by
  obtain ⟨c, hc, hmem⟩ := Sweep.fresh_collect_ok hlimit (confined_nullTargets h) hfrontier
  refine ⟨c, hc, fun id => ?_⟩
  rw [hmem]
  simp only [Sweep.Found, nullReach_iff]

theorem NullReach.lt (h : nfa.TargetsExist) {a b : Nat} (ha : a < nfa.size)
    (hreach : nfa.NullReach a b) : b < nfa.size := by
  induction hreach with
  | refl => exact ha
  | step leaves _ ih => exact ih (h _ _ leaves)

end Nfa

end LexChart
