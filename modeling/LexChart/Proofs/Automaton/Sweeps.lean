import LexChart.Proofs.Answers
import LexChart.Proofs.Automaton.Closure
set_option autoImplicit false

/-!
# Sweeps that are used again

A sweep serves one run after the other, over automata of different sizes, and nothing tidies it up
behind a run: what was marked stays marked until the next `reset`, also where a state that does not
exist has broken the run off with states left on the stack.  Every action keeps `Sweep.Sound`,
whether it answers or ends with a fault, and that is all that a run needs of the sweep it is given.

A run that answers has followed all marked states, whatever the automaton: it follows no state
twice and ends at the first one that does not exist, so it never comes to its limit.
-/

namespace LexChart.Sweep

/-! ## Calls -/

/-- A call on a sweep. -/
inductive Call : Type 1 where
  | reset (size : Nat)
  | push (id : Nat)
  | pushAll (ids : List Nat)
  | pop
  | take
  | nullClosure {L : Type} (nfa : Nfa L) (frontier : List Nat)

namespace Call

/-- What a call answers. -/
def Answer : Call → Type
  | reset _ => Unit
  | push _ => Bool
  | pushAll _ => Unit
  | pop => Option Nat
  | take => Closure
  | nullClosure _ _ => Closure

/-- The action of a call. -/
def perform : (call : Call) → Sweeping call.Answer
  | reset size => Sweep.reset size
  | push id => Sweep.push id
  | pushAll ids => Sweep.pushAll ids
  | pop => Sweep.pop
  | take => do
    let s ← get
    pure s.closure
  | nullClosure nfa frontier => nfa.sweepNull frontier

end Call

/-- A new sweep after some calls, those included that ended with a fault. -/
def after (calls : List Call) : Sweep :=
  calls.foldl (fun s call => (call.perform.run.run s).2) {}

theorem after_concat (calls : List Call) (call : Call) :
    after (calls ++ [call]) = (call.perform.run.run (after calls)).2 := by
  unfold after
  rw [List.foldl_concat]

/-! ## Marks behind an action -/

section

variable {α β : Type}

/-- Given a sound sweep, the action leaves a sound one, also where it ends with a fault. -/
def Keeps (action : Sweeping α) : Prop := ∀ s : Sweep, s.Sound → (action.run.run s).2.Sound

theorem Keeps.pure (a : α) : Keeps (Pure.pure a) := fun _ h => h

theorem Keeps.bind {action : Sweeping α} {next : α → Sweeping β} (h : Keeps action)
    (hnext : ∀ a, Keeps (next a)) : Keeps (action >>= next) := by
  intro s hs
  have hfirst := h s hs
  rw [run_run_bind]
  split
  · rename_i a s₁ hrun
    rw [hrun] at hfirst
    exact hnext a s₁ hfirst
  · rename_i fault s₁ hrun
    rw [hrun] at hfirst
    exact hfirst

theorem keeps_get : Keeps get := fun _ h => h

theorem keeps_lift (answer : Except Fault α) : Keeps (liftM answer) := by
  intro s h
  rw [run_lift]
  exact h

theorem keeps_reset (size : Nat) : Keeps (reset size) := by
  intro s h
  rw [run_reset]
  exact h.clear

theorem keeps_push (id : Nat) : Keeps (push id) := by
  intro s h
  rw [run_push]
  split
  · exact h.marked id
  · exact h

theorem keeps_pushAll (ids : List Nat) : Keeps (pushAll ids) := by
  induction ids with
  | nil => exact .pure ()
  | cons id rest ih => exact (keeps_push id).bind fun _ => ih

theorem keeps_pop : Keeps pop := by
  intro s h
  cases hstack : s.stack with
  | nil =>
    rw [run_pop_nil hstack]
    exact h
  | cons id stack =>
    rw [run_pop_cons hstack]
    exact h

theorem keeps_run (next : Nat → Except Fault (List Nat)) (limit : Nat) : Keeps (run next limit) := by
  induction limit with
  | zero => exact .pure ()
  | succ limit ih =>
    refine keeps_pop.bind fun found => ?_
    cases found with
    | none => exact .pure ()
    | some id => exact (keeps_lift (next id)).bind fun ids => (keeps_pushAll ids).bind fun _ => ih

theorem keeps_collect (size : Nat) (next : Nat → Except Fault (List Nat)) (frontier : List Nat) :
    Keeps (collect size next frontier) :=
  (keeps_reset size).bind fun _ => (keeps_pushAll frontier).bind fun _ =>
    (keeps_run next (size + 1)).bind fun _ => keeps_get.bind fun s => .pure s.closure

end

theorem Call.keeps_perform (call : Call) : Keeps call.perform := by
  cases call with
  | reset size => exact keeps_reset size
  | push id => exact keeps_push id
  | pushAll ids => exact keeps_pushAll ids
  | pop => exact keeps_pop
  | take => exact keeps_get.bind fun s => .pure s.closure
  | nullClosure nfa frontier => exact keeps_collect nfa.size nfa.nullTargets frontier

/-- Whatever a sweep was used for, its marked states are its members. -/
theorem sound_after (calls : List Call) : (after calls).Sound := by
  induction calls using List.reverseRecOn with
  | nil => exact sound_new
  | append_singleton calls call ih =>
    rw [after_concat]
    exact call.keeps_perform (after calls) ih

/-! ## The end of a run -/

variable {size : Nat} {next : Nat → Except Fault (List Nat)} {frontier : List Nat}

/-- Marking the states of a list, if it answers, only puts new ones in front. -/
theorem Sound.grows_of_run_pushAll {ids : List Nat} {s s' : Sweep} (h : s.Sound)
    (hrun : (pushAll ids).run.run s = (.ok (), s')) : s.Grows ids s' := by
  induction ids generalizing s with
  | nil =>
    cases hrun
    exact h.grows_nil
  | cons id rest ih =>
    obtain ⟨_, s₁, hpush, hrest⟩ := run_run_bind_eq_ok_iff.1 hrun
    rw [run_push] at hpush
    split at hpush
    · cases hpush
      have hfirst := h.grows_marked id
      exact hfirst.cons (ih hfirst.sound hrest)
    · cases hpush

/-- The states on the stack and those that were followed are the marked ones, none of them twice;
all states that were followed exist. -/
structure Following (size : Nat) (s : Sweep) (followed : List Nat) : Prop where
  sound : s.Sound
  nodup : s.members.Nodup
  perm : s.members.Perm (s.stack ++ followed)
  lt : ∀ id ∈ followed, id < size

theorem Following.length_le {s : Sweep} {followed : List Nat} (h : Following size s followed) :
    followed.length ≤ size :=
  length_le_of_nodup (List.nodup_append.1 (h.perm.nodup_iff.1 h.nodup)).2.1 h.lt

/-- A sweep that is reset and has the frontier pushed has followed nothing. -/
theorem Sound.following {s s' : Sweep} (h : s.Sound) {frontier : List Nat}
    (hrun : (pushAll frontier).run.run s.clear = (.ok (), s')) : Following size s' [] := by
  have hgrows := h.clear.grows_of_run_pushAll hrun
  obtain ⟨new, hmembers, hstack, -⟩ := hgrows.added
  refine ⟨hgrows.sound, hgrows.nodup List.nodup_nil, ?_, fun _ hid => nomatch hid⟩
  rw [hmembers, hstack, List.append_nil]
  exact .refl _

/-- Following the next state adds it to those that were followed. -/
theorem Following.step {s s' : Sweep} {id : Nat} {stack ids followed : List Nat}
    (h : Following size s followed) (hstack : s.stack = id :: stack) (hid : id < size)
    (hgrows : Grows { s with stack } ids s') : Following size s' (id :: followed) := by
  obtain ⟨new, hmembers, hnew, -⟩ := hgrows.added
  refine ⟨hgrows.sound, hgrows.nodup h.nodup, ?_, ?_⟩
  · rw [hmembers, hnew, List.append_assoc]
    have hperm := h.perm
    rw [hstack] at hperm
    exact (hperm.trans List.perm_middle.symm).append_left new
  · exact List.forall_mem_cons.2 ⟨hid, h.lt⟩

/-- A run whose limit lies beyond the number of states ends because no state is left to follow. -/
theorem Following.stack_eq_nil (known : ∀ id ids, next id = .ok ids → id < size) {limit : Nat}
    {s s' : Sweep} {followed : List Nat} (h : Following size s followed)
    (hlimit : size < limit + followed.length)
    (hrun : (run next limit).run.run s = (.ok (), s')) : s'.stack = [] := by
  induction limit generalizing s followed with
  | zero =>
    have := h.length_le
    omega
  | succ limit ih =>
    rw [run] at hrun
    cases hstack : s.stack with
    | nil =>
      rw [run_bind_ok (run_pop_nil hstack)] at hrun
      cases hrun
      exact hstack
    | cons id stack =>
      rw [run_bind_ok (run_pop_cons hstack)] at hrun
      obtain ⟨ids, s₁, hlift, hrest⟩ := run_run_bind_eq_ok_iff.1 hrun
      rw [run_lift] at hlift
      obtain ⟨hids, rfl⟩ := Prod.mk.inj hlift
      obtain ⟨_, s₂, hpush, hrest⟩ := run_run_bind_eq_ok_iff.1 hrest
      have hsound : Sound { s with stack } := h.sound
      have hstep := h.step hstack (known id ids hids) (hsound.grows_of_run_pushAll hpush)
      refine ih hstep ?_ hrest
      rw [List.length_cons]
      omega

end LexChart.Sweep

namespace LexChart.Nfa

variable {L : Type} {nfa : Nfa L}

/-- Only states that exist have targets. -/
theorem lt_of_nullTargets {id : Nat} {ids : List Nat} (h : nfa.nullTargets id = .ok ids) :
    id < nfa.size := by
  obtain ⟨s, hs, -⟩ := map_eq_ok_iff.1 h
  exact lt_of_state hs

/-- A sound sweep, whatever is marked in it, collects the states that null transitions lead to from
the frontier, and leaves none of them to follow. -/
theorem sweepNull_exact {s : Sweep} (h : s.Sound) (htargets : nfa.TargetsExist)
    {frontier : List Nat} (hfrontier : ∀ id ∈ frontier, id < nfa.size) :
    ((∃ c s', (nfa.sweepNull frontier).run.run s = (.ok c, s')) ↔ nfa.size < sizeLimit) ∧
    ∀ c s', (nfa.sweepNull frontier).run.run s = (.ok c, s') →
      s'.stack = [] ∧ ∀ id, id ∈ c ↔ ∃ f ∈ frontier, nfa.NullReach f id := by
  by_cases hlimit : nfa.size < sizeLimit
  · obtain ⟨c, s', hrun, -, hstack, hmem⟩ :=
      Sweep.run_collect_ok hlimit (confined_nullTargets htargets) hfrontier h
    refine ⟨iff_of_true ⟨c, s', hrun⟩ hlimit, fun c₁ s₁ hrun₁ => ?_⟩
    obtain ⟨hc, rfl⟩ := Prod.mk.inj (hrun.symm.trans hrun₁)
    obtain rfl := Except.ok.inj hc
    refine ⟨hstack, fun id => ?_⟩
    rw [hmem]
    simp only [Sweep.Found, nullReach_iff]
  · have hrun : (nfa.sweepNull frontier).run.run s = (.error .sizeOverflow, s.clear) :=
      Sweep.run_collect_of_not_lt hlimit s
    have hnone : ∀ c s', (nfa.sweepNull frontier).run.run s ≠ (.ok c, s') := by
      intro c s' hok
      cases hrun.symm.trans hok
    refine ⟨iff_of_false ?_ hlimit, fun c s' hok => absurd hok (hnone c s')⟩
    rintro ⟨c, s', hok⟩
    exact hnone c s' hok

end LexChart.Nfa
