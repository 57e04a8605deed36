import LexChart.Numbering
import Mathlib.Data.List.Basic
set_option autoImplicit false

/-!
# Exploring a graph

What `Numbering.explore` answers on a graph whose transitions are known for every state that can be
reached: all reachable states, each once and the root first, and for every state its transitions in
their order, each with the number of its target.

The bound on the number of expansions has to be no smaller than the number of reachable states.
-/

namespace LexChart

namespace Register

variable {σ : Type} [DecidableEq σ] [Hashable σ]

/-- A state that is met again keeps its number; a new one gets the next number. -/
theorem number_cases (r : Register σ) (s : σ) :
    ((r.number s).1 = r ∧ r.states[(r.number s).2]? = some s) ∨
      (s ∉ r.states ∧ (r.number s).1.states = r.states.push s ∧
        (r.number s).2 = r.states.size) := by
  unfold number
  split
  · rename_i id h
    refine .inl ⟨rfl, ?_⟩
    rw [r.numbers_eq, Array.findIdx?_eq_some_iff_getElem] at h
    obtain ⟨hlt, hs, _⟩ := h
    rw [Array.getElem?_eq_getElem hlt, eq_of_beq hs]
  · rename_i h
    refine .inr ⟨?_, rfl, rfl⟩
    rw [r.numbers_eq, Array.findIdx?_eq_none_iff] at h
    intro hs
    have := h s hs
    simp at this

theorem states_number_empty (s : σ) : (empty.number s).1.states = #[s] := by
  rcases empty.number_cases s with ⟨_, hs⟩ | ⟨_, hr, _⟩
  · simp [empty] at hs
  · simpa [empty] using hr

end Register

namespace Numbering

section

variable {σ τ : Type}

/-- A state that transitions lead to from the root. -/
inductive Reached (transitions : σ → Except Fault (List τ)) (target : τ → σ) (root : σ) :
    σ → Prop where
  | root : Reached transitions target root root
  | step {s : σ} {found : List τ} {t : τ} : Reached transitions target root s →
      transitions s = .ok found → t ∈ found → Reached transitions target root (target t)

/-- The states of a numbering are the reachable ones, each once and the root first; the edges of a
state are its transitions in their order, each with the number of its target. -/
structure IsExploration (transitions : σ → Except Fault (List τ)) (target : τ → σ) (root : σ)
    (g : Numbering σ τ) : Prop where
  nodup : g.states.toList.Nodup
  first : g.states[0]? = some root
  mem_iff : ∀ s, s ∈ g.states ↔ Reached transitions target root s
  size_edges : g.edges.size = g.states.size
  found : ∀ (id : Nat) (s : σ) (edges : List (τ × Nat)), g.states[id]? = some s →
    g.edges[id]? = some edges → transitions s = .ok (edges.map Prod.fst)
  target_eq : ∀ (id : Nat) (edges : List (τ × Nat)), g.edges[id]? = some edges →
    ∀ e ∈ edges, g.states[e.2]? = some (target e.1)

/-- Every state has edges: those that its transitions are found to be. -/
theorem IsExploration.exists_edges {transitions : σ → Except Fault (List τ)} {target : τ → σ}
    {root : σ} {g : Numbering σ τ} (h : IsExploration transitions target root g) {id : Nat} {s : σ}
    (hs : g.states[id]? = some s) :
    ∃ edges : List (τ × Nat), g.edges[id]? = some edges ∧
      transitions s = .ok (edges.map Prod.fst) := by
  have hlt := (Array.getElem?_eq_some_iff.1 hs).1
  rw [← h.size_edges] at hlt
  have hedges := Array.getElem?_eq_getElem hlt
  exact ⟨_, hedges, h.found id s _ hs hedges⟩

end

variable {σ τ : Type} [DecidableEq σ] [Hashable σ]

/-- What numbering the targets of some transitions does to a register. -/
structure NumbersTargets (target : τ → σ) (r : Register σ) (found : List τ) (r' : Register σ)
    (numbered : List (τ × Nat)) : Prop where
  extends_ : ∃ added, r'.states.toList = r.states.toList ++ added
  nodup : r.states.toList.Nodup → r'.states.toList.Nodup
  map_fst : numbered.map Prod.fst = found
  target_eq : ∀ e ∈ numbered, r'.states[e.2]? = some (target e.1)
  mem : ∀ s ∈ r'.states, s ∈ r.states ∨ ∃ t ∈ found, s = target t

/-- A register that grows keeps the numbers it has given. -/
theorem getElem?_of_extends {r r' : Register σ} {added : List σ} {id : Nat} {s : σ}
    (h : r'.states.toList = r.states.toList ++ added) (hs : r.states[id]? = some s) :
    r'.states[id]? = some s := by
  rw [← Array.getElem?_toList] at hs ⊢
  rw [h, List.getElem?_append_left]
  · exact hs
  · exact (List.getElem?_eq_some_iff.1 hs).1

theorem numberTargets_spec (target : τ → σ) (found : List τ) (r : Register σ) :
    NumbersTargets target r found (numberTargets target r found).1
      (numberTargets target r found).2 := by
  induction found generalizing r with
  | nil =>
    exact ⟨⟨[], by simp [numberTargets]⟩, fun h => h, rfl, fun e he => (nomatch he),
      fun s hs => .inl hs⟩
  | cons t rest ih =>
    obtain ⟨⟨added, hadded⟩, hnodup, hfst, htarget, hmem⟩ := ih (r.number (target t)).1
    have hfirst : (r.number (target t)).1.states[(r.number (target t)).2]? = some (target t) := by
      rcases r.number_cases (target t) with ⟨hr, hs⟩ | ⟨_, hr, hid⟩
      · rw [hr, hs]
      · rw [hr, hid, Array.getElem?_push_size]
    refine ⟨?_, ?_, ?_, ?_, ?_⟩
    · rcases r.number_cases (target t) with ⟨hr, _⟩ | ⟨_, hr, _⟩
      · exact ⟨added, by simpa [numberTargets, hr] using hadded⟩
      · exact ⟨target t :: added, by simpa [numberTargets, hr] using hadded⟩
    · intro h
      apply hnodup
      rcases r.number_cases (target t) with ⟨hr, _⟩ | ⟨hnew, hr, _⟩
      · rwa [hr]
      · rw [hr, Array.toList_push]
        refine List.nodup_append.2 ⟨h, by simp, ?_⟩
        intro a ha b hb hab
        rw [List.mem_singleton.1 hb] at hab
        exact hnew (Array.mem_toList_iff.1 (hab ▸ ha))
    · simp [numberTargets, hfst]
    · intro e he
      rcases List.mem_cons.1 he with rfl | he
      · exact getElem?_of_extends hadded hfirst
      · exact htarget e he
    · intro s hs
      rcases hmem s hs with hs | ⟨u, hu, rfl⟩
      · rcases r.number_cases (target t) with ⟨hr, _⟩ | ⟨_, hr, _⟩
        · exact .inl (by rwa [hr] at hs)
        · rw [hr, Array.mem_push] at hs
          exact hs.imp id fun h => ⟨t, by simp, h⟩
      · exact .inr ⟨u, by simp [hu], rfl⟩

/-- What holds between two expansions: the states met so far are reachable and different, and the
first of them are expanded. -/
structure Frontier (transitions : σ → Except Fault (List τ)) (target : τ → σ) (root : σ)
    (r : Register σ) (edges : Array (List (τ × Nat))) : Prop where
  nodup : r.states.toList.Nodup
  first : r.states[0]? = some root
  reached : ∀ s ∈ r.states, Reached transitions target root s
  size_le : edges.size ≤ r.states.size
  found : ∀ (id : Nat) (s : σ) (out : List (τ × Nat)), r.states[id]? = some s →
    edges[id]? = some out → transitions s = .ok (out.map Prod.fst)
  target_eq : ∀ (id : Nat) (out : List (τ × Nat)), edges[id]? = some out →
    ∀ e ∈ out, r.states[e.2]? = some (target e.1)

variable {transitions : σ → Except Fault (List τ)} {target : τ → σ} {root : σ}

theorem frontier_root :
    Frontier transitions target root (Register.empty.number root).1 #[] := by
  have hstates := Register.states_number_empty root
  refine ⟨?_, ?_, ?_, ?_, ?_, ?_⟩
  · simp [hstates]
  · simp [hstates]
  · intro s hs
    rw [hstates, Array.mem_singleton] at hs
    exact hs ▸ .root
  · simp
  · intro id s out _ h
    simp at h
  · intro id out h
    simp at h

/-- Expanding the next waiting state keeps what holds between two expansions. -/
theorem Frontier.expand {r : Register σ} {edges : Array (List (τ × Nat))} {found : List τ}
    (h : Frontier transitions target root r edges) (hlt : edges.size < r.states.size)
    (hfound : transitions r.states[edges.size] = .ok found) :
    Frontier transitions target root (numberTargets target r found).1
      (edges.push (numberTargets target r found).2) := by
  obtain ⟨⟨added, hadded⟩, hnodup, hfst, htarget, hmem⟩ := numberTargets_spec target found r
  have hsize : r.states.size ≤ (numberTargets target r found).1.states.size := by
    rw [← Array.length_toList, ← Array.length_toList, hadded, List.length_append]
    omega
  refine ⟨hnodup h.nodup, getElem?_of_extends hadded h.first, ?_, ?_, ?_, ?_⟩
  · intro s hs
    rcases hmem s hs with hs | ⟨t, ht, rfl⟩
    · exact h.reached s hs
    · exact .step (h.reached _ (Array.getElem_mem hlt)) hfound ht
  · rw [Array.size_push]
    omega
  · intro id s out hs hout
    rw [Array.getElem?_push] at hout
    split at hout
    · rename_i hid
      obtain rfl := Option.some.inj hout
      have hold := getElem?_of_extends hadded (Array.getElem?_eq_getElem hlt)
      rw [hid, hold] at hs
      rw [← Option.some.inj hs, hfst, hfound]
    · have hid : id < edges.size := (Array.getElem?_eq_some_iff.1 hout).1
      have hold := getElem?_of_extends hadded
        (Array.getElem?_eq_getElem (show id < r.states.size by omega))
      rw [hold] at hs
      exact h.found id s out (by rw [← hs, Array.getElem?_eq_getElem]) hout
  · intro id out hout e he
    rw [Array.getElem?_push] at hout
    split at hout
    · obtain rfl := Option.some.inj hout
      exact htarget e he
    · exact getElem?_of_extends hadded (h.target_eq id out hout e he)

/-- Once no state waits, all reachable states are numbered. -/
theorem Frontier.isExploration {r : Register σ} {edges : Array (List (τ × Nat))}
    (h : Frontier transitions target root r edges) (hsize : edges.size = r.states.size) :
    IsExploration transitions target root ⟨r.states, edges⟩ := by
  refine ⟨h.nodup, h.first, fun s => ⟨h.reached s, fun hs => ?_⟩, hsize, h.found, h.target_eq⟩
  induction hs with
  | root => exact Array.mem_of_getElem? h.first
  | @step s found t _ hfound ht ih =>
    obtain ⟨id, hid⟩ := Array.mem_iff_getElem?.1 ih
    have hlt : id < edges.size := by
      rw [hsize]
      exact (Array.getElem?_eq_some_iff.1 hid).1
    have hout := Array.getElem?_eq_getElem hlt
    have heq := h.found id s _ hid hout
    rw [hfound] at heq
    obtain ⟨e, he, rfl⟩ := List.mem_map.1 (Except.ok.inj heq ▸ ht)
    exact Array.mem_of_getElem? (h.target_eq id _ hout e he)

/-- However the walk ends, what it has met is reachable and met once. -/
theorem frontier_of_expand {limit : Nat} {r : Register σ} {edges : Array (List (τ × Nat))}
    {g : Numbering σ τ} (h : Frontier transitions target root r edges)
    (hg : expand transitions target limit r edges = .ok g) :
    ∃ r' : Register σ, r'.states = g.states ∧ Frontier transitions target root r' g.edges := by
  induction limit generalizing r edges with
  | zero =>
    cases hg
    exact ⟨r, rfl, h⟩
  | succ limit ih =>
    rw [expand] at hg
    split at hg
    · rename_i hlt
      cases hfound : transitions r.states[edges.size] with
      | error fault =>
        rw [hfound] at hg
        cases hg
      | ok found =>
        rw [hfound] at hg
        exact ih (h.expand hlt hfound) hg
    · cases hg
      exact ⟨r, rfl, h⟩

/-- The states that can be reached are no more than `bound`. -/
def ReachesAtMost (transitions : σ → Except Fault (List τ)) (target : τ → σ) (root : σ)
    (bound : Nat) : Prop :=
  ∀ states : List σ, states.Nodup → (∀ s ∈ states, Reached transitions target root s) →
    states.length ≤ bound

theorem expand_ok {bound : Nat}
    (known : ∀ s, Reached transitions target root s → ∃ found, transitions s = .ok found)
    (few : ReachesAtMost transitions target root bound) (limit : Nat) (r : Register σ)
    (edges : Array (List (τ × Nat))) (h : Frontier transitions target root r edges)
    (hlimit : bound ≤ edges.size + limit) :
    ∃ g, expand transitions target limit r edges = .ok g ∧
      IsExploration transitions target root g := by
  have hbound : r.states.size ≤ bound := by
    have := few r.states.toList h.nodup fun s hs => h.reached s (Array.mem_toList_iff.1 hs)
    rwa [Array.length_toList] at this
  induction limit generalizing r edges with
  | zero =>
    have hle := h.size_le
    exact ⟨_, rfl, h.isExploration (by omega)⟩
  | succ limit ih =>
    rw [expand]
    split
    · rename_i hlt
      obtain ⟨found, hfound⟩ := known _ (h.reached _ (Array.getElem_mem hlt))
      have hnext := h.expand hlt hfound
      obtain ⟨g, hg, hspec⟩ := ih _ _ hnext (by rw [Array.size_push]; omega) (by
        have := few _ hnext.nodup fun s hs => hnext.reached s (Array.mem_toList_iff.1 hs)
        rwa [Array.length_toList] at this)
      exact ⟨g, by rw [hfound]; exact hg, hspec⟩
    · rename_i hlt
      have hle := h.size_le
      exact ⟨_, rfl, h.isExploration (by omega)⟩

/-- The walk through a graph answers, and its answer is an exploration of the graph. -/
theorem explore_ok {bound : Nat}
    (known : ∀ s, Reached transitions target root s → ∃ found, transitions s = .ok found)
    (few : ReachesAtMost transitions target root bound) :
    ∃ g, explore transitions target bound root = .ok g ∧
      IsExploration transitions target root g :=
  expand_ok known few bound _ _ frontier_root (by simp)

end Numbering

end LexChart
