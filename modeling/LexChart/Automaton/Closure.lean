import LexChart.Ascending
import LexChart.Automaton.Nfa
import LexChart.Count
import Std.Data.HashSet
set_option autoImplicit false

/-!
# Closures

A closure is a set of states of an automaton, kept as a strictly ascending list, so that two
closures with the same states are equal.

A sweep collects the states that can be reached from others.  It marks a state when it is first met
and keeps the marked states that are still to be followed on a stack.  `Sweep.run` follows them
until the stack is empty; a state that does not exist ends the run with a fault and leaves the marks
set so far.  The same sweep serves any number of runs, with a `reset` before each.
-/

namespace LexChart

/-- A set of states. -/
structure Closure where
  states : List Nat
  ascending : states.Pairwise (· < ·)
  deriving DecidableEq

namespace Closure

/-- The states of a list. -/
def ofList (ids : List Nat) : Closure := ⟨LexChart.ascending ids, pairwise_ascending ids⟩

instance : Membership Nat Closure := ⟨fun c id => id ∈ c.states⟩

instance : Hashable Closure := ⟨fun c => hash c.states⟩

instance (id : Nat) (c : Closure) : Decidable (id ∈ c) :=
  inferInstanceAs (Decidable (id ∈ c.states))

@[simp] theorem mem_ofList {id : Nat} {ids : List Nat} : id ∈ ofList ids ↔ id ∈ ids := by
  show id ∈ LexChart.ascending ids ↔ _
  exact mem_ascending

/-- The number of states. -/
def size (c : Closure) : Nat := c.states.length

/-- Every state of the first is in the second. -/
def isSubset (a b : Closure) : Bool :=
  let index := Std.HashSet.ofList b.states
  a.states.all index.contains

theorem isSubset_iff {a b : Closure} : a.isSubset b = true ↔ ∀ id ∈ a, id ∈ b := by
  simp [isSubset, Std.HashSet.contains_ofList, Membership.mem]

/-- Closures are ordered by their lists of states, lexicographically. -/
def compare (a b : Closure) : Ordering := compareLists a.states b.states
where
  /-- The lexicographic order of lists of numbers. -/
  compareLists : List Nat → List Nat → Ordering
    | [], [] => .eq
    | [], _ :: _ => .lt
    | _ :: _, [] => .gt
    | x :: xs, y :: ys => (Ord.compare x y).then (compareLists xs ys)

end Closure

/-- The marks of a search through an automaton. -/
structure Sweep where
  /-- The marked states, as they are looked up. -/
  visited : Std.HashSet Nat := {}
  /-- The marked states, the last one first. -/
  members : List Nat := []
  /-- The marked states that are still to be followed, the next one first. -/
  stack : List Nat := []

/-- Actions on a sweep.  What was marked before a fault stays marked. -/
abbrev Sweeping : Type → Type := ExceptT Fault (StateM Sweep)

namespace Sweep

/-- The sweep with all marks taken away. -/
def clear (s : Sweep) : Sweep where
  visited := s.members.foldl (fun visited id => visited.erase id) s.visited

/-- Takes all marks away, and prepares for an automaton of `size` states. -/
def reset (size : Nat) : Sweeping Unit := do
  modify clear
  checkSize size 1

/-- The sweep with one more mark, of a state that is to be followed. -/
def mark (s : Sweep) (id : Nat) : Sweep :=
  ⟨s.visited.insert id, id :: s.members, id :: s.stack⟩

/-- Marks a state that is to be followed; says whether it had no mark before.  A state takes part in
no automaton if the states up to it are more than a list can hold. -/
def push (id : Nat) : Sweeping Bool := do
  let size ← checkCount (id + 1)
  checkSize size 1
  let s ← get
  if id ∈ s.visited then pure false
  else
    set (s.mark id)
    pure true

/-- Marks the states of a list one after the other. -/
def pushAll : List Nat → Sweeping Unit
  | [] => pure ()
  | id :: rest => do
    let _ ← push id
    pushAll rest

/-- Takes the next state to be followed. -/
def pop : Sweeping (Option Nat) := do
  let s ← get
  match s.stack with
  | [] => pure none
  | id :: stack => do
    set { s with stack }
    pure (some id)

/-- The marked states. -/
def closure (s : Sweep) : Closure := .ofList s.members

/-- Follows marked states until none is left, at most `limit` of them. -/
def run (next : Nat → Except Fault (List Nat)) : Nat → Sweeping Unit
  | 0 => pure ()
  | limit + 1 => do
    match ← pop with
    | none => pure ()
    | some id =>
      let ids ← next id
      pushAll ids
      run next limit

/-- All states reached from a frontier in an automaton of `size` states.  A run marks no state twice
and ends at the first one that does not exist, so `size + 1` steps suffice. -/
def collect (size : Nat) (next : Nat → Except Fault (List Nat)) (frontier : List Nat) :
    Sweeping Closure := do
  reset size
  pushAll frontier
  run next (size + 1)
  let s ← get
  pure s.closure

/-- The answer of an action on a new sweep. -/
def fresh {α : Type} (action : Sweeping α) : Except Fault α := (action.run.run {}).1

end Sweep

namespace Nfa

variable {L : Type}

/-- The targets of the null transitions of a state. -/
def nullTargets (nfa : Nfa L) (id : Nat) : Except Fault (List Nat) :=
  (nfa.state id).map NfaState.nullTargets

/-- Collects the states reached from a frontier through null transitions. -/
def sweepNull (nfa : Nfa L) (frontier : List Nat) : Sweeping Closure :=
  Sweep.collect nfa.size nfa.nullTargets frontier

/-- The states reached from a frontier through null transitions. -/
def nullClosure (nfa : Nfa L) (frontier : List Nat) : Except Fault Closure :=
  Sweep.fresh (nfa.sweepNull frontier)

/-- The final states of a closure, each after the rule that it is final for. -/
def finals (nfa : Nfa L) (c : Closure) : Except Fault (List (Nat × Nat)) := do
  let rules ← c.states.mapM fun id => (nfa.state id).map NfaState.accept
  pure ((rules.zip c.states).filterMap fun (rule, id) => rule.map (·, id))

end Nfa

end LexChart
