import LexChart.Proofs.Automaton.Closure
import LexChart.Proofs.Automaton.Exploration
import LexChart.Proofs.Answers
set_option autoImplicit false

/-!
# Marks and queues that are looked up by number

The marks of a sweep are kept as an array with a place for each state, which grows as states are
pushed and is used again by the next sweep; and an exploration keeps a queue of the numbers of the
states that wait.  A checked step breaks off where a place or a state does not exist, and a checked
walk where it has reached its limit and states still wait.

Where the states of a graph are known, the checked walk has the answer of the library, whatever the
marks were used for before.
-/

namespace LexChart.Checked

/-! ## Marks -/

/-- The marks of a sweep: the mark of every state up to some number, the marked states, and those of
them that are still to be followed, the last one first. -/
structure Marks where
  visited : Array Bool := #[]
  members : List Nat := []
  stack : List Nat := []

/-- Actions on marks that may break off. -/
abbrev Marking : Type → Type := StateT Marks Option

namespace Marks

/-- Places for `size` states at least. -/
def grown (visited : Array Bool) (size : Nat) : Array Bool :=
  visited ++ Array.replicate (size - visited.size) false

/-- Takes the marks of some states away. -/
def unmark (visited : Array Bool) : List Nat → Option (Array Bool)
  | [] => some visited
  | id :: rest => if id < visited.size then unmark (visited.setIfInBounds id false) rest else none

/-- `Sweep.reset` on an array of marks. -/
def reset (size : Nat) : Marking Unit := fun marks => do
  let visited ← unmark marks.visited marks.members
  some ((), ⟨grown visited size, [], []⟩)

/-- `Sweep.push` on an array of marks. -/
def push (id : Nat) : Marking Bool := fun marks => do
  let visited := grown marks.visited (id + 1)
  let seen ← visited[id]?
  if seen then some (false, { marks with visited })
  else some (true, ⟨visited.setIfInBounds id true, id :: marks.members, id :: marks.stack⟩)

/-- `Sweep.pushAll` on an array of marks. -/
def pushAll : List Nat → Marking Unit
  | [] => pure ()
  | id :: rest => do
    let _ ← push id
    pushAll rest

/-- `Sweep.pop` on an array of marks. -/
def pop : Marking (Option Nat) := fun marks =>
  match marks.stack with
  | [] => some (none, marks)
  | id :: stack => some (some id, { marks with stack })

/-- `Sweep.run` on an array of marks, which has to end before the limit. -/
def run (next : Nat → Except Fault (List Nat)) : Nat → Marking Unit
  | 0 => fun marks => if marks.stack = [] then some ((), marks) else none
  | limit + 1 => do
    match ← pop with
    | none => pure ()
    | some id =>
      let ids ← StateT.lift (next id).toOption
      pushAll ids
      run next limit

/-- `Sweep.collect` on an array of marks. -/
def collect (size : Nat) (next : Nat → Except Fault (List Nat)) (frontier : List Nat) :
    Marking Closure := do
  reset size
  pushAll frontier
  run next (size + 1)
  let marks ← get
  pure (.ofList marks.members)

/-- A state is marked if and only if it is listed as a member. -/
def Sound (marks : Marks) : Prop := ∀ id, marks.visited[id]? = some true ↔ id ∈ marks.members

/-- Marks and a sweep that hold the same. -/
structure Matches (marks : Marks) (s : Sweep) : Prop where
  sound : marks.Sound
  sweep_sound : s.Sound
  members_eq : marks.members = s.members
  stack_eq : marks.stack = s.stack

theorem getElem?_grown {visited : Array Bool} {size id : Nat} :
    (grown visited size)[id]? = some true ↔ visited[id]? = some true := by
  unfold grown
  rw [Array.getElem?_append]
  split
  · rfl
  · rename_i h
    rw [Array.getElem?_replicate, Array.getElem?_eq_none (Nat.not_lt.1 h)]
    split <;> simp

theorem lt_size_grown {visited : Array Bool} {size id : Nat} (h : id < size) :
    id < (grown visited size).size := by
  unfold grown
  rw [Array.size_append, Array.size_replicate]
  omega

/-- Marks can be taken away from states that have places. -/
theorem unmark_ok {ids : List Nat} {visited : Array Bool} (h : ∀ id ∈ ids, id < visited.size) :
    ∃ cleared, unmark visited ids = some cleared ∧
      ∀ id, cleared[id]? = some true ↔ visited[id]? = some true ∧ id ∉ ids := by
  induction ids generalizing visited with
  | nil => exact ⟨visited, rfl, by simp⟩
  | cons first rest ih =>
    obtain ⟨hfirst, hrest⟩ := List.forall_mem_cons.1 h
    obtain ⟨cleared, heq, hcleared⟩ := @ih (visited.setIfInBounds first false)
      (by rwa [Array.size_setIfInBounds])
    refine ⟨cleared, by rw [unmark, if_pos hfirst, heq], fun id => ?_⟩
    rw [hcleared, Array.getElem?_setIfInBounds, List.mem_cons]
    by_cases hid : first = id
    · subst hid
      simp
    · rw [if_neg hid, not_or]
      exact ⟨fun h => ⟨h.1, fun heq => hid heq.symm, h.2⟩, fun h => ⟨h.1, h.2.2⟩⟩

theorem sound_new : Sound {} := by
  intro id
  show (#[] : Array Bool)[id]? = some true ↔ id ∈ []
  simp

theorem Sound.lt_size {marks : Marks} (h : marks.Sound) {id : Nat} (hid : id ∈ marks.members) :
    id < marks.visited.size :=
  (Array.getElem?_eq_some_iff.1 ((h id).2 hid)).1

/-- Whatever they were used for, marks are reset. -/
theorem Sound.reset {marks : Marks} (h : marks.Sound) (size : Nat) :
    ∃ marks', Marks.reset size marks = some ((), marks') ∧ Matches marks' {} := by
  obtain ⟨cleared, heq, hcleared⟩ := unmark_ok fun id hid => h.lt_size hid
  refine ⟨⟨grown cleared size, [], []⟩, ?_, fun id => ?_, Sweep.sound_new, rfl, rfl⟩
  · unfold Marks.reset
    rw [heq]
    rfl
  · show (grown cleared size)[id]? = some true ↔ id ∈ []
    rw [getElem?_grown, hcleared, h id]
    simp

/-- The state is marked in both, and becomes a member of both if it is new. -/
theorem Matches.push {marks : Marks} {s : Sweep} (h : Matches marks s) (id : Nat) :
    ∃ marks', Marks.push id marks = some (decide (id ∉ s.visited), marks') ∧
      Matches marks' (s.marked id) := by
  have hlt : id < (grown marks.visited (id + 1)).size := lt_size_grown (Nat.lt_succ_self id)
  have hseen : (grown marks.visited (id + 1))[id] = true ↔ id ∈ s.visited := by
    rw [h.sweep_sound id, ← h.members_eq, ← h.sound id, ← @getElem?_grown _ (id + 1),
      Array.getElem?_eq_getElem hlt, Option.some.injEq]
  unfold Marks.push Sweep.marked
  dsimp only
  rw [Array.getElem?_eq_getElem hlt]
  by_cases hid : id ∈ s.visited
  · rw [decide_eq_false (not_not.2 hid), if_pos hid]
    refine ⟨_, if_pos (hseen.2 hid), ?_⟩
    exact ⟨fun other => getElem?_grown.trans (h.sound other), h.sweep_sound, h.members_eq,
      h.stack_eq⟩
  · rw [decide_eq_true hid, if_neg hid]
    refine ⟨_, if_neg (mt hseen.1 hid), ?_⟩
    refine ⟨fun other => ?_, h.sweep_sound.mark id, ?_, ?_⟩
    · dsimp only
      rw [Array.getElem?_setIfInBounds, List.mem_cons]
      by_cases hother : id = other
      · subst hother
        simp [hlt]
      · rw [if_neg hother, getElem?_grown, h.sound other, or_iff_right (Ne.symm hother)]
    · show id :: marks.members = id :: s.members
      rw [h.members_eq]
    · show id :: marks.stack = id :: s.stack
      rw [h.stack_eq]

/-- Where the action on a sweep answers and `ends` holds of the sweep behind it, the action on marks
that hold the same has that answer, and both still hold the same. -/
def Tracks (ends : Sweep → Prop) {α : Type} (action : Marking α) (running : Sweeping α) : Prop :=
  ∀ (marks : Marks) (s : Sweep), Matches marks s → ∀ a s', running.run.run s = (.ok a, s') →
    ends s' → ∃ marks', action marks = some (a, marks') ∧ Matches marks' s'

section

variable {ends : Sweep → Prop} {α β : Type}

theorem Tracks.pure (a : α) : Tracks ends (Pure.pure a) (Pure.pure a) := by
  intro marks s h a' s' hrun _
  cases hrun
  exact ⟨marks, rfl, h⟩

theorem Tracks.bind {action : Marking α} {running : Sweeping α} {next : α → Marking β}
    {next' : α → Sweeping β} (h : Tracks (fun _ => True) action running)
    (hnext : ∀ a, Tracks ends (next a) (next' a)) :
    Tracks ends (action >>= next) (running >>= next') := by
  intro marks s hmatches b s' hrun hends
  rw [run_run_bind] at hrun
  split at hrun
  · rename_i a s₁ hfirst
    obtain ⟨marks₁, haction, hmatches₁⟩ := h marks s hmatches a s₁ hfirst trivial
    obtain ⟨marks₂, hrest, hmatches₂⟩ := hnext a marks₁ s₁ hmatches₁ b s' hrun hends
    refine ⟨marks₂, ?_, hmatches₂⟩
    show (action marks).bind (fun answer => next answer.1 answer.2) = _
    rw [haction]
    exact hrest
  · cases hrun

theorem tracks_lift (answer : Except Fault α) :
    Tracks ends (StateT.lift answer.toOption) (liftM answer) := by
  intro marks s h a s' hrun _
  rw [Sweep.run_lift] at hrun
  cases hrun
  exact ⟨marks, rfl, h⟩

theorem tracks_push (id : Nat) : Tracks ends (Marks.push id) (Sweep.push id) := by
  intro marks s h a s' hrun _
  rw [Sweep.run_push] at hrun
  split at hrun
  · cases hrun
    exact h.push id
  · cases hrun

theorem tracks_pushAll (ids : List Nat) :
    Tracks ends (Marks.pushAll ids) (Sweep.pushAll ids) := by
  induction ids with
  | nil => exact .pure ()
  | cons id rest ih => exact (tracks_push id).bind fun _ => ih

theorem tracks_pop : Tracks ends Marks.pop Sweep.pop := by
  intro marks s h a s' hrun _
  unfold Marks.pop
  rw [h.stack_eq]
  cases hstack : s.stack with
  | nil =>
    rw [Sweep.run_pop_nil hstack] at hrun
    cases hrun
    exact ⟨marks, rfl, h⟩
  | cons id stack =>
    rw [Sweep.run_pop_cons hstack] at hrun
    cases hrun
    exact ⟨_, rfl, h.sound, h.sweep_sound, h.members_eq, rfl⟩

end

/-- A run that follows all states is the same. -/
theorem tracks_run (next : Nat → Except Fault (List Nat)) (limit : Nat) :
    Tracks (fun s => s.stack = []) (Marks.run next limit) (Sweep.run next limit) := by
  induction limit with
  | zero =>
    intro marks s h a s' hrun hstack
    cases hrun
    exact ⟨marks, if_pos (h.stack_eq.trans hstack), h⟩
  | succ limit ih =>
    refine tracks_pop.bind fun found => ?_
    cases found with
    | none => exact .pure ()
    | some id => exact (tracks_lift (next id)).bind fun ids => (tracks_pushAll ids).bind fun _ => ih

end Marks

/-! ## Answers whatever the marks -/

/-- Where the library has an answer, the action has it too, whatever the marks were used for, and
leaves marks that can be used again. -/
def Follows {α : Type} (action : Marking α) (answer : Except Fault α) : Prop :=
  ∀ a, answer = .ok a → ∀ marks : Marks, marks.Sound →
    ∃ marks', action marks = some (a, marks') ∧ marks'.Sound

/-- The answer of an action on new marks. -/
def ran {α : Type} (action : Marking α) : Option α := (action {}).map Prod.fst

namespace Follows

variable {α β : Type}

theorem ran_eq {action : Marking α} {answer : Except Fault α} (h : Follows action answer) {a : α}
    (ha : answer = .ok a) : ran action = some a := by
  obtain ⟨marks, hmarks, -⟩ := h a ha {} Marks.sound_new
  unfold ran
  rw [hmarks]
  rfl

theorem pure (a : α) : Follows (Pure.pure a) (.ok a) := by
  intro a' ha marks h
  cases ha
  exact ⟨marks, rfl, h⟩

theorem lift {value : Option α} {answer : Except Fault α}
    (h : ∀ a, answer = .ok a → value = some a) : Follows (StateT.lift value) answer := by
  intro a ha marks hsound
  refine ⟨marks, ?_, hsound⟩
  show value.bind (fun a => some (a, marks)) = _
  rw [h a ha]
  rfl

/-- An answer of the library is followed by itself. -/
theorem toOption (answer : Except Fault α) : Follows (StateT.lift answer.toOption) answer :=
  lift fun a ha => by rw [ha]; rfl

theorem bind {action : Marking α} {answer : Except Fault α} {next : α → Marking β}
    {next' : α → Except Fault β} (h : Follows action answer)
    (hnext : ∀ a, answer = .ok a → Follows (next a) (next' a)) :
    Follows (action >>= next) (answer >>= next') := by
  intro b hb marks hsound
  obtain ⟨a, ha, hb⟩ := bind_eq_ok_iff.1 hb
  obtain ⟨marks₁, haction, hsound₁⟩ := h a ha marks hsound
  obtain ⟨marks₂, hrest, hsound₂⟩ := hnext a ha b hb marks₁ hsound₁
  refine ⟨marks₂, ?_, hsound₂⟩
  show (action marks).bind (fun answer => next answer.1 answer.2) = _
  rw [haction]
  exact hrest

theorem mapM {f : α → Marking β} {g : α → Except Fault β} {xs : List α}
    (h : ∀ x ∈ xs, Follows (f x) (g x)) : Follows (xs.mapM f) (xs.mapM g) := by
  induction xs with
  | nil => exact pure []
  | cons x xs ih =>
    obtain ⟨hx, hxs⟩ := List.forall_mem_cons.1 h
    rw [List.mapM_cons, List.mapM_cons]
    exact hx.bind fun y _ => (ih hxs).bind fun ys _ => pure (y :: ys)

theorem lift_some_bind (a : α) (next : α → Marking β) :
    StateT.lift (some a) >>= next = next a := rfl

/-- What is collected is the same. -/
theorem collect {size : Nat} {next : Nat → Except Fault (List Nat)} {frontier : List Nat}
    (hlimit : size < sizeLimit) (confined : Sweep.Confined size next)
    (hfrontier : ∀ id ∈ frontier, id < size) :
    Follows (Marks.collect size next frontier)
      (Sweep.fresh (Sweep.collect size next frontier)) := by
  intro c hc marks hsound
  obtain ⟨c', s', hrun, -, hstack, -⟩ :=
    Sweep.run_collect_ok hlimit confined hfrontier Sweep.sound_new
  unfold Sweep.fresh at hc
  rw [hrun] at hc
  obtain rfl := Except.ok.inj hc
  have hrest : Marks.Tracks (fun s => s.stack = [])
      (do
        Marks.pushAll frontier
        Marks.run next (size + 1)
        let marks ← get
        Pure.pure (.ofList marks.members))
      (do
        Sweep.pushAll frontier
        Sweep.run next (size + 1)
        let s ← get
        Pure.pure s.closure) := by
    refine (Marks.tracks_pushAll frontier).bind fun _ => ?_
    intro marks s h c s' hrun hstack
    rw [run_run_bind] at hrun
    split at hrun
    · rename_i s₁ hfirst
      cases hrun
      obtain ⟨marks₁, haction, h₁⟩ := Marks.tracks_run next (size + 1) marks s h () s' hfirst hstack
      refine ⟨marks₁, ?_, h₁⟩
      show (Marks.run next (size + 1) marks).bind _ = _
      rw [haction]
      show some (Closure.ofList marks₁.members, marks₁) = some (Closure.ofList s'.members, marks₁)
      rw [h₁.members_eq]
    · cases hrun
  unfold Sweep.collect at hrun
  rw [run_run_bind, Sweep.run_reset, Sweep.checkSize_of_lt hlimit] at hrun
  obtain ⟨marks₀, hreset, hmatches₀⟩ := hsound.reset size
  obtain ⟨marks₁, hcollect, hmatches₁⟩ := hrest marks₀ {} hmatches₀ c' s' hrun hstack
  refine ⟨marks₁, ?_, hmatches₁.sound⟩
  unfold Marks.collect
  show (Marks.reset size marks).bind _ = _
  rw [hreset]
  exact hcollect

end Follows

/-! ## Explorations -/

section

variable {σ τ : Type} [DecidableEq σ] [Hashable σ]

/-- `Numbering.expand` with a queue of the numbers of the states that wait, which come in order and
have to be expanded before the bound is reached. -/
def expand (transitions : σ → Marking (List τ)) (target : τ → σ) :
    Nat → Register σ → List Nat → Array (List (τ × Nat)) → Marking (Numbering σ τ)
  | _, r, [], edges => pure ⟨r.states, edges⟩
  | 0, _, _ :: _, _ => StateT.lift none
  | bound + 1, r, id :: queue, edges => do
    let s ← StateT.lift r.states[id]?
    let found ← transitions s
    let (more, numbered) := Numbering.numberTargets target r found
    let new := List.range' r.states.size (more.states.size - r.states.size)
    StateT.lift (if edges.size = id then some () else none)
    expand transitions target bound more (queue ++ new) (edges.push numbered)

/-- `Numbering.explore` with a queue. -/
def explore (transitions : σ → Marking (List τ)) (target : τ → σ) (bound : Nat) (root : σ) :
    Marking (Numbering σ τ) :=
  expand transitions target bound (Register.empty.number root).1 [0] #[]

variable {transitions : σ → Marking (List τ)} {transitions' : σ → Except Fault (List τ)}
  {target : τ → σ}

theorem size_le_numberTargets (target : τ → σ) (r : Register σ) (found : List τ) :
    r.states.size ≤ (Numbering.numberTargets target r found).1.states.size := by
  obtain ⟨added, hadded⟩ := (Numbering.numberTargets_spec target found r).extends_
  rw [← Array.length_toList, ← Array.length_toList, hadded, List.length_append]
  omega

/-- The queue holds the numbers of the states that are not expanded. -/
theorem follows_expand (h : ∀ s, Follows (transitions s) (transitions' s)) (bound : Nat)
    (r : Register σ) (edges : Array (List (τ × Nat))) (hle : edges.size ≤ r.states.size)
    (hall : ∀ g, Numbering.expand transitions' target bound r edges = .ok g →
      g.edges.size = g.states.size) :
    Follows (expand transitions target bound r
        (List.range' edges.size (r.states.size - edges.size)) edges)
      (Numbering.expand transitions' target bound r edges) := by
  induction bound generalizing r edges with
  | zero =>
    have hnone : r.states.size - edges.size = 0 := by
      rw [show edges.size = r.states.size from hall _ rfl, Nat.sub_self]
    rw [hnone]
    exact .pure _
  | succ bound ih =>
    rw [Numbering.expand] at hall ⊢
    by_cases hlt : edges.size < r.states.size
    · rw [dif_pos hlt] at hall ⊢
      have hqueue : List.range' edges.size (r.states.size - edges.size) =
          edges.size :: List.range' (edges.size + 1) (r.states.size - (edges.size + 1)) := by
        rw [← List.range'_succ]
        congr 1
        omega
      rw [hqueue, expand, Array.getElem?_eq_getElem hlt, Follows.lift_some_bind]
      refine (h r.states[edges.size]).bind fun found hfound => ?_
      replace hall := fun g hg => hall g (bind_eq_ok_iff.2 ⟨found, hfound, hg⟩)
      have hgrown := size_le_numberTargets target r found
      generalize hnumbered : Numbering.numberTargets target r found = answer at hgrown hall ⊢
      obtain ⟨more, numbered⟩ := answer
      dsimp only at hgrown hall ⊢
      rw [if_pos rfl, Follows.lift_some_bind]
      have hnext := ih more (edges.push numbered) (by rw [Array.size_push]; omega) hall
      rw [Array.size_push] at hnext
      have hwait : List.range' (edges.size + 1) (r.states.size - (edges.size + 1)) ++
          List.range' r.states.size (more.states.size - r.states.size) =
          List.range' (edges.size + 1) (more.states.size - (edges.size + 1)) := by
        have hend : edges.size + 1 + (r.states.size - (edges.size + 1)) = r.states.size := by omega
        have happend := List.range'_append_1 (s := edges.size + 1)
          (m := r.states.size - (edges.size + 1)) (n := more.states.size - r.states.size)
        rw [hend] at happend
        rw [happend]
        congr 1
        omega
      rw [hwait]
      exact hnext
    · have hnone : r.states.size - edges.size = 0 := by omega
      rw [dif_neg hlt, hnone]
      exact .pure _

/-- An exploration that expands all states is the same. -/
theorem follows_explore (h : ∀ s, Follows (transitions s) (transitions' s)) {bound : Nat} {root : σ}
    (hall : ∀ g, Numbering.explore transitions' target bound root = .ok g →
      g.edges.size = g.states.size) :
    Follows (explore transitions target bound root)
      (Numbering.explore transitions' target bound root) := by
  have hqueue : [0] = List.range' (#[] : Array (List (τ × Nat))).size
      ((Register.empty.number root).1.states.size - (#[] : Array (List (τ × Nat))).size) := by
    rw [Register.states_number_empty]
    rfl
  unfold explore
  rw [hqueue]
  exact follows_expand h bound _ #[] (Nat.zero_le _) hall

end

end LexChart.Checked
