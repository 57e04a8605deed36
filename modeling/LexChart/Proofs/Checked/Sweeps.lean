import LexChart.Proofs.Automaton.Determinism
import LexChart.Proofs.Automaton.Sweeps
import LexChart.Proofs.Checked.Graphs
set_option autoImplicit false

/-!
# Marks that are kept when a sweep breaks off

One array of marks serves sweeps over automata of all sizes.  It grows when an automaton or a state
needs more places, never shrinks, and is not tidied up when a sweep breaks off, so marks and states
to be followed may be left from any call before.  A step breaks off where a place or a state does
not exist, where the array would not fit in memory, and where a sweep has reached its limit with
states left to follow; what was marked before stays marked.

Each call has the answer that it has on a sweep, breaks off where that ends with a fault, and leaves
the same marks.
-/

namespace LexChart.Checked

/-- Steps on marks that may break off; what was done to the marks before stays done. -/
abbrev Scratching (α : Type) := OptionT (StateM Marks) α

namespace Scratching

variable {α β : Type}

/-- The answer, and the marks that are left. -/
def runOn (x : Scratching α) (marks : Marks) : Option α × Marks := (x.run.run marks).run

theorem runOn_bind (x : Scratching α) (f : α → Scratching β) (marks : Marks) :
    (x >>= f).runOn marks = match x.runOn marks with
      | (none, marks') => (none, marks')
      | (some a, marks') => (f a).runOn marks' := by
  unfold runOn
  rw [OptionT.run_bind, Option.elimM, StateT.run_bind]
  show (match (x.run.run marks : Option α × Marks) with | (a, marks') => _) = _
  rcases (x.run.run marks : Option α × Marks) with ⟨_ | a, marks'⟩ <;> rfl

/-- A step that leaves the marks as they are if it breaks off. -/
def step (action : Marking α) : Scratching α := OptionT.mk fun marks =>
  match action marks with
  | none => pure (none, marks)
  | some (a, marks) => pure (some a, marks)

theorem runOn_step_some {action : Marking α} {marks marks' : Marks} {a : α}
    (h : action marks = some (a, marks')) : (step action).runOn marks = (some a, marks') := by
  show (match action marks with | none => _ | some (a, marks) => _) = _
  rw [h]
  rfl

theorem runOn_step_none {action : Marking α} {marks : Marks} (h : action marks = none) :
    (step action).runOn marks = (none, marks) := by
  show (match action marks with | none => _ | some (a, marks) => _) = _
  rw [h]
  rfl

/-- Makes places for `size` states, if there are too few and the array then fits in memory. -/
def reserve (size : Nat) : Scratching Unit :=
  step fun marks =>
    if marks.visited.size < size ∧ sizeLimit ≤ size then none
    else some ((), { marks with visited := Marks.grown marks.visited size })

/-- `Sweep.reset`, in place: the marks are taken away one by one before places are made. -/
def reset (size : Nat) : Scratching Unit := do
  step (Marks.reset 0)
  reserve size

/-- `Sweep.push`, in place. -/
def push (id : Nat) : Scratching Bool := do
  reserve (id + 1)
  step (Marks.push id)

/-- `Sweep.pushAll`, in place. -/
def pushAll : List Nat → Scratching Unit
  | [] => pure ()
  | id :: rest => do
    let _ ← push id
    pushAll rest

/-- `Sweep.pop`, in place. -/
def pop : Scratching (Option Nat) := step Marks.pop

/-- `Sweep.run`, in place, which has to end before the limit. -/
def run (next : Nat → Except Fault (List Nat)) : Nat → Scratching Unit
  | 0 => step (Marks.run next 0)
  | limit + 1 => do
    match ← pop with
    | none => pure ()
    | some id =>
      let ids ← step (StateT.lift (next id).toOption)
      pushAll ids
      run next limit

/-- The marked states. -/
def take : Scratching Closure := do
  let marks ← get
  pure (.ofList marks.members)

/-- `Sweep.collect`, in place. -/
def collect (size : Nat) (next : Nat → Except Fault (List Nat)) (frontier : List Nat) :
    Scratching Closure := do
  reset size
  pushAll frontier
  run next (size + 1)
  take

/-- `Sweep.Call.perform`, in place. -/
def perform : (call : Sweep.Call) → Scratching call.Answer
  | .reset size => reset size
  | .push id => push id
  | .pushAll ids => pushAll ids
  | .pop => pop
  | .take => take
  | .nullClosure nfa frontier => collect nfa.size nfa.nullTargets frontier

/-- New marks after some calls, those included that broke off. -/
def after (calls : List Sweep.Call) : Marks :=
  calls.foldl (fun marks call => ((perform call).runOn marks).2) {}

theorem after_concat (calls : List Sweep.Call) (call : Sweep.Call) :
    after (calls ++ [call]) = ((perform call).runOn (after calls)).2 := by
  unfold after
  rw [List.foldl_concat]

end Scratching

/-! ## The size of the array -/

namespace Marks

@[simp] theorem size_grown (visited : Array Bool) (size : Nat) :
    (grown visited size).size = max visited.size size := by
  unfold grown
  rw [Array.size_append, Array.size_replicate]
  omega

theorem size_unmark {ids : List Nat} {visited cleared : Array Bool}
    (h : unmark visited ids = some cleared) : cleared.size = visited.size := by
  induction ids generalizing visited with
  | nil =>
    cases h
    rfl
  | cons id rest ih =>
    rw [unmark] at h
    split at h
    · rw [ih h, Array.size_setIfInBounds]
    · cases h

theorem size_reset {marks marks' : Marks} (h : reset 0 marks = some ((), marks')) :
    marks'.visited.size = marks.visited.size := by
  unfold reset at h
  obtain ⟨cleared, hcleared, h⟩ := Option.bind_eq_some_iff.1 h
  cases h
  rw [size_grown, size_unmark hcleared, Nat.max_zero]

theorem size_push {id : Nat} {seen : Bool} {marks marks' : Marks}
    (h : push id marks = some (seen, marks')) :
    marks'.visited.size = max marks.visited.size (id + 1) := by
  unfold push at h
  obtain ⟨found, -, h⟩ := Option.bind_eq_some_iff.1 h
  split at h
  · cases h
    exact size_grown ..
  · cases h
    rw [Array.size_setIfInBounds, size_grown]

end Marks

/-! ## Calls on marks and on sweeps -/

/-- The marks hold what the sweep holds, and their array fits in memory. -/
structure Agrees (marks : Marks) (s : Sweep) : Prop where
  holds : marks.Matches s
  fits : marks.visited.size < sizeLimit

/-- Places that are made for states without marks change nothing that is held. -/
theorem Agrees.reserve {marks : Marks} {s : Sweep} (h : Agrees marks s) {size : Nat}
    (hlimit : size < sizeLimit) :
    Agrees { marks with visited := Marks.grown marks.visited size } s := by
  refine ⟨⟨fun id => Marks.getElem?_grown.trans (h.holds.sound id), h.holds.sweep_sound,
    h.holds.members_eq, h.holds.stack_eq⟩, ?_⟩
  rw [Marks.size_grown]
  exact max_lt h.fits hlimit

namespace Scratching

variable {α β : Type} {marks : Marks} {s : Sweep}

/-- The steps break off where the action ends with a fault, have its answer where it answers, and
leave marks that agree with the sweep which it leaves. -/
structure Mirrors (x : Scratching α) (y : Sweeping α) (marks : Marks) (s : Sweep) : Prop where
  answer : (x.runOn marks).1 = (y.run.run s).1.toOption
  agrees : Agrees (x.runOn marks).2 (y.run.run s).2

theorem mirrors_ok {x : Scratching α} {y : Sweeping α} {a : α} {marks' : Marks} {s' : Sweep}
    (hx : x.runOn marks = (some a, marks')) (hy : y.run.run s = (.ok a, s'))
    (h : Agrees marks' s') : Mirrors x y marks s := by
  constructor
  · rw [hx, hy]
    rfl
  · rw [hx, hy]
    exact h

theorem mirrors_error {x : Scratching α} {y : Sweeping α} {fault : Fault} {marks' : Marks}
    {s' : Sweep} (hx : x.runOn marks = (none, marks')) (hy : y.run.run s = (.error fault, s'))
    (h : Agrees marks' s') : Mirrors x y marks s := by
  constructor
  · rw [hx, hy]
    rfl
  · rw [hx, hy]
    exact h

/-- Where the first steps mirror the first action, what follows has to do so only behind an
answer. -/
theorem Mirrors.bind {x : Scratching α} {y : Sweeping α} {f : α → Scratching β}
    {g : α → Sweeping β} (h : Mirrors x y marks s)
    (hnext : ∀ a marks' s', y.run.run s = (.ok a, s') → Agrees marks' s' →
      Mirrors (f a) (g a) marks' s') : Mirrors (x >>= f) (y >>= g) marks s := by
  obtain ⟨hanswer, hagrees⟩ := h
  cases hy : y.run.run s with
  | mk outcome s' =>
    cases hx : x.runOn marks with
    | mk found marks' =>
      rw [hx, hy] at hanswer hagrees
      cases outcome with
      | error fault =>
        obtain rfl : found = none := hanswer
        exact mirrors_error (by rw [runOn_bind, hx]) (by rw [run_run_bind, hy]) hagrees
      | ok a =>
        obtain rfl : found = some a := hanswer
        obtain ⟨hanswer', hagrees'⟩ := hnext a marks' s' hy hagrees
        constructor
        · rw [runOn_bind, hx, run_run_bind, hy]
          exact hanswer'
        · rw [runOn_bind, hx, run_run_bind, hy]
          exact hagrees'

theorem mirrors_pure (a : α) (h : Agrees marks s) : Mirrors (pure a) (pure a) marks s :=
  mirrors_ok rfl rfl h

theorem mirrors_lift (answer : Except Fault α) (h : Agrees marks s) :
    Mirrors (step (StateT.lift answer.toOption)) (liftM answer) marks s := by
  cases answer with
  | error fault => exact mirrors_error (runOn_step_none rfl) (Sweep.run_lift _ s) h
  | ok a => exact mirrors_ok (runOn_step_some rfl) (Sweep.run_lift _ s) h

theorem runOn_reserve_of_lt {size : Nat} (h : size < sizeLimit) (marks : Marks) :
    (reserve size).runOn marks =
      (some (), { marks with visited := Marks.grown marks.visited size }) :=
  runOn_step_some (if_neg fun hlarge => absurd h (Nat.not_lt.2 hlarge.2))

theorem runOn_reserve_of_not_lt {size : Nat} (hfits : marks.visited.size < sizeLimit)
    (h : ¬ size < sizeLimit) : (reserve size).runOn marks = (none, marks) :=
  runOn_step_none (if_pos ⟨Nat.lt_of_lt_of_le hfits (Nat.not_lt.1 h), Nat.not_lt.1 h⟩)

theorem mirrors_reserve (size : Nat) (h : Agrees marks s) :
    Mirrors (reserve size) (liftM (checkSize size 1)) marks s := by
  by_cases hlimit : size < sizeLimit
  · rw [Sweep.checkSize_of_lt hlimit]
    exact mirrors_ok (runOn_reserve_of_lt hlimit marks) (Sweep.run_lift _ s) (h.reserve hlimit)
  · rw [Sweep.checkSize_of_not_lt hlimit]
    exact mirrors_error (runOn_reserve_of_not_lt h.fits hlimit) (Sweep.run_lift _ s) h

theorem mirrors_reset (size : Nat) (h : Agrees marks s) :
    Mirrors (reset size) (Sweep.reset size) marks s := by
  obtain ⟨marks', hreset, hempty⟩ := h.holds.sound.reset 0
  have hclear : Mirrors (step (Marks.reset 0)) (modify Sweep.clear) marks s := by
    refine mirrors_ok (runOn_step_some hreset) rfl ⟨?_, ?_⟩
    · exact ⟨hempty.sound, h.holds.sweep_sound.clear, hempty.members_eq, hempty.stack_eq⟩
    · rw [Marks.size_reset hreset]
      exact h.fits
  exact hclear.bind fun _ marks' s' _ hagrees => mirrors_reserve size hagrees

/-- A state beyond all lists is refused, be it for its number or for the size of the array. -/
theorem exists_check_eq_error {id : Nat} (h : ¬ id + 1 < sizeLimit) :
    ∃ fault, (checkCount (id + 1) >>= fun size => checkSize size 1) = .error fault := by
  unfold checkCount
  split
  · exact ⟨.sizeOverflow, Sweep.checkSize_of_not_lt h⟩
  · exact ⟨.countOverflow, rfl⟩

theorem mirrors_push (id : Nat) (h : Agrees marks s) :
    Mirrors (push id) (Sweep.push id) marks s := by
  by_cases hlimit : id + 1 < sizeLimit
  · have hreserve := runOn_reserve_of_lt hlimit marks
    have hreserved := h.reserve hlimit
    obtain ⟨marks', hpush, hmatches⟩ := hreserved.holds.push id
    have hx : (push id).runOn marks = (some (decide (id ∉ s.visited)), marks') := by
      unfold push
      rw [runOn_bind, hreserve]
      exact runOn_step_some hpush
    refine mirrors_ok hx (Sweep.run_push_of_lt hlimit) ⟨hmatches, ?_⟩
    rw [Marks.size_push hpush]
    exact max_lt hreserved.fits hlimit
  · obtain ⟨fault, hcheck⟩ := exists_check_eq_error hlimit
    have hx : (push id).runOn marks = (none, marks) := by
      unfold push
      rw [runOn_bind, runOn_reserve_of_not_lt h.fits hlimit]
    have hy : (Sweep.push id).run.run s = (.error fault, s) := by
      rw [Sweep.run_push, hcheck]
    exact mirrors_error hx hy h

theorem mirrors_pushAll (ids : List Nat) (h : Agrees marks s) :
    Mirrors (pushAll ids) (Sweep.pushAll ids) marks s := by
  induction ids generalizing marks s with
  | nil => exact mirrors_pure () h
  | cons id rest ih => exact (mirrors_push id h).bind fun _ _ _ _ hagrees => ih hagrees

theorem mirrors_pop (h : Agrees marks s) : Mirrors pop Sweep.pop marks s := by
  have hmarks : marks.stack = s.stack := h.holds.stack_eq
  cases hstack : s.stack with
  | nil =>
    have hpop : Marks.pop marks = some (none, marks) := by
      unfold Marks.pop
      rw [hmarks, hstack]
    exact mirrors_ok (runOn_step_some hpop) (Sweep.run_pop_nil hstack) h
  | cons id stack =>
    have hpop : Marks.pop marks = some (some id, { marks with stack }) := by
      unfold Marks.pop
      rw [hmarks, hstack]
    exact mirrors_ok (runOn_step_some hpop) (Sweep.run_pop_cons hstack)
      ⟨⟨h.holds.sound, h.holds.sweep_sound, h.holds.members_eq, rfl⟩, h.fits⟩

/-- A run that leaves no state to follow if it answers is the same in place. -/
theorem mirrors_run {next : Nat → Except Fault (List Nat)} {limit : Nat} (h : Agrees marks s)
    (hends : ∀ s', (Sweep.run next limit).run.run s = (.ok (), s') → s'.stack = []) :
    Mirrors (run next limit) (Sweep.run next limit) marks s := by
  induction limit generalizing marks s with
  | zero =>
    have hstack : marks.stack = [] := h.holds.stack_eq.trans (hends s rfl)
    exact mirrors_ok (runOn_step_some (if_pos hstack)) rfl h
  | succ limit ih =>
    refine (mirrors_pop h).bind fun found marks₁ s₁ hpop h₁ => ?_
    cases found with
    | none => exact mirrors_pure () h₁
    | some id =>
      refine (mirrors_lift (next id) h₁).bind fun ids marks₂ s₂ hids h₂ => ?_
      refine (mirrors_pushAll ids h₂).bind fun _ marks₃ s₃ hpush h₃ => ?_
      refine ih h₃ fun s' hrest => hends s' ?_
      rw [Sweep.run, Sweep.run_bind_ok hpop, Sweep.run_bind_ok hids, Sweep.run_bind_ok hpush, hrest]

theorem mirrors_take (h : Agrees marks s) :
    Mirrors take (Sweep.Call.perform .take) marks s := by
  have htake : take.runOn marks = (some s.closure, marks) := by
    show (some (Closure.ofList marks.members), marks) = _
    rw [h.holds.members_eq]
    rfl
  exact mirrors_ok htake rfl h

theorem mirrors_collect {size : Nat} {next : Nat → Except Fault (List Nat)} (frontier : List Nat)
    (known : ∀ id ids, next id = .ok ids → id < size) (h : Agrees marks s) :
    Mirrors (collect size next frontier) (Sweep.collect size next frontier) marks s := by
  refine (mirrors_reset size h).bind fun _ marks₁ s₁ hreset h₁ => ?_
  rw [Sweep.run_reset] at hreset
  obtain ⟨-, rfl⟩ := Prod.mk.inj hreset
  refine (mirrors_pushAll frontier h₁).bind fun _ marks₂ s₂ hpush h₂ => ?_
  have hends : ∀ s', (Sweep.run next (size + 1)).run.run s₂ = (.ok (), s') → s'.stack = [] :=
    fun s' hrun => (h.holds.sweep_sound.following hpush).stack_eq_nil known
      (Nat.lt_succ_self size) hrun
  exact (mirrors_run h₂ hends).bind fun _ _ _ _ h₃ => mirrors_take h₃

theorem mirrors_perform (call : Sweep.Call) (h : Agrees marks s) :
    Mirrors (perform call) call.perform marks s := by
  cases call with
  | reset size => exact mirrors_reset size h
  | push id => exact mirrors_push id h
  | pushAll ids => exact mirrors_pushAll ids h
  | pop => exact mirrors_pop h
  | take => exact mirrors_take h
  | nullClosure nfa frontier =>
    exact mirrors_collect frontier (fun _ _ hids => Nfa.lt_of_nullTargets hids) h

/-- Whatever they were used for, marks hold what a sweep holds after the same calls. -/
theorem agrees_after (calls : List Sweep.Call) : Agrees (after calls) (Sweep.after calls) := by
  induction calls using List.reverseRecOn with
  | nil => exact ⟨⟨Marks.sound_new, Sweep.sound_new, rfl, rfl⟩, by decide⟩
  | append_singleton calls call ih =>
    rw [after_concat, Sweep.after_concat]
    exact (mirrors_perform call ih).agrees

end Scratching

/-- After any calls, on a sweep and in place, a state is marked if and only if it is a member; and a
null closure that is then asked for is answered as soon as the automaton fits in memory, with the
states that null transitions lead to, in ascending order, when no state is left to follow. -/
theorem closures_exact (calls : List Sweep.Call) :
    (∀ id, id ∈ (Sweep.after calls).visited ↔ id ∈ (Sweep.after calls).members) ∧
    (∀ id, (Scratching.after calls).visited[id]? = some true ↔
      id ∈ (Scratching.after calls).members) ∧
    (Scratching.after calls).members = (Sweep.after calls).members ∧
    ∀ {L : Type} (nfa : Nfa L) (frontier : List Nat), nfa.TargetsExist →
      (∀ id ∈ frontier, id < nfa.size) →
      ((∃ c s, (nfa.sweepNull frontier).run.run (Sweep.after calls) = (.ok c, s)) ↔
        nfa.size < sizeLimit) ∧
      ∀ c s, (nfa.sweepNull frontier).run.run (Sweep.after calls) = (.ok c, s) →
        s.stack = [] ∧ c.states.Pairwise (· < ·) ∧
        (∀ id, id ∈ c.states ↔ ∃ f ∈ frontier, nfa.NullReach f id) ∧
        ((Scratching.perform (.nullClosure nfa frontier)).runOn
          (Scratching.after calls)).1 = some c := by
  have hagrees := Scratching.agrees_after calls
  have hsound := Sweep.sound_after calls
  refine ⟨hsound, hagrees.holds.sound, hagrees.holds.members_eq, ?_⟩
  intro L nfa frontier htargets hfrontier
  obtain ⟨hanswers, hexact⟩ := Nfa.sweepNull_exact hsound htargets hfrontier
  refine ⟨hanswers, fun c s hrun => ?_⟩
  obtain ⟨hstack, hmem⟩ := hexact c s hrun
  refine ⟨hstack, c.ascending, hmem, ?_⟩
  have hmirrors := (Scratching.mirrors_perform (.nullClosure nfa frontier) hagrees).answer
  rw [hmirrors]
  show ((nfa.sweepNull frontier).run.run (Sweep.after calls)).1.toOption = some c
  rw [hrun]
  rfl

/-- The second of two states that do not exist is met first, and the other one is left. -/
def brokenOff : List Sweep.Call :=
  [.nullClosure (⟨#[{ transitions := [.null 5, .null 6] }]⟩ : Nfa Char) [0], .push 7]

/-- Marks and states to be followed are left over, and none of them comes into the next closure. -/
theorem closures_exact_brokenOff :
    (Scratching.after brokenOff).members = [7, 6, 5, 0] ∧
    (Scratching.after brokenOff).stack = [7, 5] ∧
    ∃ c s, (Dfa.ring.sweepNull [1, 0, 1]).run.run (Sweep.after brokenOff) = (.ok c, s) ∧
      c.states = [0, 1] ∧ s.stack = [] := by
  refine ⟨by decide, by decide, ?_⟩
  have htargets : Dfa.ring.TargetsExist := by decide
  have hfrontier : ∀ f ∈ [1, 0, 1], f < Dfa.ring.size := by decide
  obtain ⟨-, -, -, hclosures⟩ := closures_exact brokenOff
  obtain ⟨hanswers, hexact⟩ := hclosures Dfa.ring [1, 0, 1] htargets hfrontier
  obtain ⟨c, s, hrun⟩ := hanswers.2 (by decide)
  obtain ⟨hstack, -, hmem, -⟩ := hexact c s hrun
  have hc : c = .ofList [0, 1] := by
    ext id
    rw [Closure.mem_ofList, List.mem_pair, ← Closure.mem_states, hmem]
    constructor
    · rintro ⟨f, hf, hreach⟩
      have hlt : id < 2 := hreach.lt htargets (hfrontier f hf)
      omega
    · rintro (rfl | rfl)
      · exact ⟨0, by decide, .refl 0⟩
      · exact ⟨1, by decide, .refl 1⟩
  refine ⟨c, s, hrun, ?_, hstack⟩
  rw [hc]
  decide

end LexChart.Checked
