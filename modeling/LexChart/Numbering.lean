import LexChart.Fault
import Std.Data.HashMap
set_option autoImplicit false

/-!
# Numbering the states of a graph

A graph is given by an action that lists the transitions of a state and by the target of a
transition.  `Numbering.explore` walks it from a root, breadth first, and gives every state a number
when it is first met.  Numbers are handed out in the order in which states are expanded, so the
states that still wait are the ones from the number of finished states on, and no queue is kept.

The walk expands at most `bound` states.  On a graph with no more than that many reachable states it
is complete.
-/

namespace LexChart

/-- States in the order of their numbers, and the transitions of every expanded state with the
numbers of their targets. -/
structure Numbering (σ τ : Type) where
  states : Array σ
  edges : Array (List (τ × Nat))

namespace Numbering

section

variable {σ τ : Type}

/-- The number of states. -/
def size (g : Numbering σ τ) : Nat := g.states.size

/-- A state by its number. -/
def state (g : Numbering σ τ) (id : Nat) : Except Fault σ :=
  match g.states[id]? with
  | some s => .ok s
  | none => .error (.missingState id)

/-- The transitions of a state, each with the number of its target. -/
def edgesOf (g : Numbering σ τ) (id : Nat) : Except Fault (List (τ × Nat)) :=
  match g.edges[id]? with
  | some edges => .ok edges
  | none => .error (.missingState id)

end

end Numbering

/-- States in the order in which they are met, and the number of each. -/
structure Register (σ : Type) [BEq σ] [Hashable σ] where
  states : Array σ
  /-- The position of each state, as it is looked up. -/
  numbers : Std.HashMap σ Nat
  numbers_eq : ∀ s, numbers[s]? = states.findIdx? (· == s)

namespace Register

variable {σ : Type} [DecidableEq σ] [Hashable σ]

/-- No state is met yet. -/
def empty : Register σ := ⟨#[], {}, by simp⟩

/-- The number of a state, after adding it if it is new. -/
def number (r : Register σ) (s : σ) : Register σ × Nat :=
  match h : r.numbers[s]? with
  | some id => (r, id)
  | none =>
    let id := r.states.size
    ({ states := r.states.push s
       numbers := r.numbers.insert s id
       numbers_eq := fun t => by
        rw [Std.HashMap.getElem?_insert, Array.findIdx?_push, r.numbers_eq t]
        by_cases hst : s = t
        · subst hst; simp [← r.numbers_eq s, h, id]
        · simp [hst] },
      id)

end Register

namespace Numbering

variable {σ τ : Type} [DecidableEq σ] [Hashable σ]

/-- The transitions with the numbers of their targets, new targets numbered in their order. -/
def numberTargets (target : τ → σ) (r : Register σ) : List τ → Register σ × List (τ × Nat)
  | [] => (r, [])
  | t :: rest =>
    let (r, id) := r.number (target t)
    let (r, numbered) := numberTargets target r rest
    (r, (t, id) :: numbered)

/-- Expands the next waiting state until none is left, at most `bound` of them. -/
def expand {m : Type → Type} [Monad m] (transitions : σ → m (List τ)) (target : τ → σ) :
    Nat → Register σ → Array (List (τ × Nat)) → m (Numbering σ τ)
  | 0, r, edges => pure ⟨r.states, edges⟩
  | bound + 1, r, edges =>
    if h : edges.size < r.states.size then do
      let found ← transitions r.states[edges.size]
      let (r, numbered) := numberTargets target r found
      expand transitions target bound r (edges.push numbered)
    else pure ⟨r.states, edges⟩

/-- Numbers the states reachable from the root, which gets number zero. -/
def explore {m : Type → Type} [Monad m] (transitions : σ → m (List τ)) (target : τ → σ)
    (bound : Nat) (root : σ) : m (Numbering σ τ) :=
  expand transitions target bound (Register.empty.number root).1 #[]

end Numbering

end LexChart
