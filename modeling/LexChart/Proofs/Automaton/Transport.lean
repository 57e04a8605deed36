import LexChart.Automaton.Dfa
import LexChart.Proofs.Answers
import LexChart.Proofs.Automaton.Exploration
set_option autoImplicit false

/-!
# Exploring the image of a graph

A map of states and transitions carries one graph into another if it is injective on the states that
can be reached and takes the transitions of a state to those of its image, in their order.  Since
numbers are handed out in the order in which states are met, the image of a graph is explored into
the image of its numbering: the same numbers, in the same order.  Making an automaton deterministic
explores the graph of its closures, and makes a state of each.
-/

namespace LexChart

section

variable {σ σ' τ τ' : Type}

/-- A numbering with its states and transitions replaced by their images. -/
def Numbering.map (f : σ → σ') (h : τ → τ') (g : Numbering σ τ) : Numbering σ' τ' where
  states := g.states.map f
  edges := g.edges.map fun edges => edges.map fun e => (h e.1, e.2)

end

/-- Tests that agree on the elements of an array find the same position. -/
theorem findIdx?_congr {α : Type} {xs : Array α} {p q : α → Bool} (h : ∀ x ∈ xs, p x = q x) :
    xs.findIdx? p = xs.findIdx? q := by
  obtain ⟨xs⟩ := xs
  simp only [List.mem_toArray, List.findIdx?_toArray] at h ⊢
  induction xs with
  | nil => rfl
  | cons x xs ih =>
    obtain ⟨hx, hxs⟩ := List.forall_mem_cons.1 h
    rw [List.findIdx?_cons, List.findIdx?_cons, hx, ih hxs]

variable {σ σ' τ τ' : Type} [DecidableEq σ] [Hashable σ] [DecidableEq σ'] [Hashable σ']
  {f : σ → σ'} {h : τ → τ'}

namespace Register

theorem states_number (r : Register σ) (s : σ) : (r.number s).1.states =
    if s ∈ r.states then r.states else r.states.push s := by
  unfold number
  split
  · rename_i id hid
    rw [r.numbers_eq, Array.findIdx?_eq_some_iff_getElem] at hid
    obtain ⟨hlt, hs, -⟩ := hid
    rw [if_pos (eq_of_beq hs ▸ Array.getElem_mem hlt)]
  · rename_i hnone
    rw [r.numbers_eq, Array.findIdx?_eq_none_iff] at hnone
    rw [if_neg fun hs => by simpa using hnone s hs]

theorem number_snd (r : Register σ) (s : σ) :
    (r.number s).2 = (r.states.findIdx? (· == s)).getD r.states.size := by
  rw [← r.numbers_eq]
  unfold number
  split
  · rename_i id hid
    simp only [hid, Option.getD_some]
  · rename_i hnone
    simp only [hnone, Option.getD_none]

/-- Two registers, the second of which has met the images of what the first has met. -/
structure Image (f : σ → σ') (inside : σ → Prop) (r : Register σ) (r' : Register σ') : Prop where
  states_eq : r'.states = r.states.map f
  inside : ∀ s ∈ r.states, inside s

/-- The image of a state gets the number of the state. -/
theorem Image.number {inside : σ → Prop} {r : Register σ} {r' : Register σ'}
    (image : Image f inside r r') (inj : ∀ s t, inside s → inside t → f s = f t → s = t) {s : σ}
    (hs : inside s) :
    Image f inside (r.number s).1 (r'.number (f s)).1 ∧ (r'.number (f s)).2 = (r.number s).2 := by
  have hsame : ∀ t ∈ r.states, f t = f s ↔ t = s := fun t ht =>
    ⟨inj t s (image.inside t ht) hs, congrArg f⟩
  have hmem : f s ∈ r.states.map f ↔ s ∈ r.states := by
    rw [Array.mem_map]
    constructor
    · rintro ⟨t, ht, heq⟩
      exact (hsame t ht).1 heq ▸ ht
    · exact fun h => ⟨s, h, rfl⟩
  refine ⟨⟨?_, fun t ht => ?_⟩, ?_⟩
  · rw [states_number, states_number, image.states_eq]
    by_cases h : s ∈ r.states
    · rw [if_pos h, if_pos (hmem.2 h)]
    · rw [if_neg h, if_neg fun h' => h (hmem.1 h'), Array.map_push]
  · rw [states_number] at ht
    split at ht
    · exact image.inside t ht
    · rcases Array.mem_push.1 ht with ht | rfl
      · exact image.inside t ht
      · exact hs
  · rw [number_snd, number_snd, image.states_eq]
    have hfound : (r.states.map f).findIdx? (· == f s) = r.states.findIdx? (· == s) := by
      rw [Array.findIdx?_map]
      refine findIdx?_congr fun t ht => ?_
      rw [Function.comp_apply, Bool.eq_iff_iff, beq_iff_eq, beq_iff_eq, hsame t ht]
    rw [hfound, Array.size_map]

end Register

namespace Numbering

open Register (Image)

variable {target : τ → σ} {target' : τ' → σ'}

/-- The targets of the images of transitions are numbered as the targets are. -/
theorem numberTargets_map {inside : σ → Prop} (inj : ∀ s t, inside s → inside t → f s = f t → s = t)
    (target_eq : ∀ e, target' (h e) = f (target e)) {r : Register σ} {r' : Register σ'}
    (image : Image f inside r r') {found : List τ} (hfound : ∀ e ∈ found, inside (target e)) :
    Image f inside (numberTargets target r found).1 (numberTargets target' r' (found.map h)).1 ∧
      (numberTargets target' r' (found.map h)).2 =
        (numberTargets target r found).2.map fun e => (h e.1, e.2) := by
  induction found generalizing r r' with
  | nil => exact ⟨image, rfl⟩
  | cons e rest ih =>
    obtain ⟨he, hrest⟩ := List.forall_mem_cons.1 hfound
    obtain ⟨himage, hnumber⟩ := image.number inj he
    obtain ⟨hlast, hnumbered⟩ := ih himage hrest
    rw [List.map_cons]
    simp only [numberTargets, target_eq, hnumber, hnumbered]
    exact ⟨hlast, rfl⟩

/-- A map carries what can be reached in one graph into another graph. -/
structure Carries (transitions : σ → Except Fault (List τ)) (target : τ → σ)
    (transitions' : σ' → Except Fault (List τ')) (target' : τ' → σ') (root : σ) (f : σ → σ')
    (h : τ → τ') : Prop where
  inj : ∀ s t, Reached transitions target root s → Reached transitions target root t →
    f s = f t → s = t
  transitions_eq : ∀ s, Reached transitions target root s →
    transitions' (f s) = (transitions s).map (List.map h)
  target_eq : ∀ e, target' (h e) = f (target e)

section

variable {transitions : σ → Except Fault (List τ)} {transitions' : σ' → Except Fault (List τ')}
  {root : σ}

theorem Carries.expand (carries : Carries transitions target transitions' target' root f h)
    (bound : Nat) {r : Register σ} {r' : Register σ'} {edges : Array (List (τ × Nat))}
    (frontier : Frontier transitions target root r edges)
    (image : Image f (Reached transitions target root) r r') :
    expand transitions' target' bound r' (edges.map fun out => out.map fun e => (h e.1, e.2)) =
      (expand transitions target bound r edges).map (Numbering.map f h) := by
  induction bound generalizing r r' edges with
  | zero =>
    rw [Numbering.expand, Numbering.expand, image.states_eq]
    rfl
  | succ bound ih =>
    have hsize : r'.states.size = r.states.size := by rw [image.states_eq, Array.size_map]
    rw [Numbering.expand, Numbering.expand]
    by_cases hlt : edges.size < r.states.size
    · have hlt' : (edges.map fun out => out.map fun e => (h e.1, e.2)).size < r'.states.size := by
        rwa [Array.size_map, hsize]
      have hget : r'.states[(edges.map fun out => out.map fun e => (h e.1, e.2)).size] =
          f r.states[edges.size] := by
        simp only [image.states_eq, Array.size_map, Array.getElem_map]
      have hreached := frontier.reached _ (Array.getElem_mem hlt)
      rw [dif_pos hlt, dif_pos hlt', hget, carries.transitions_eq _ hreached]
      cases hfound : transitions r.states[edges.size] with
      | error fault => rfl
      | ok found =>
        have hinside : ∀ e ∈ found, Reached transitions target root (target e) := fun e he =>
          .step hreached hfound he
        obtain ⟨hnext, hnumbered⟩ :=
          numberTargets_map carries.inj carries.target_eq image hinside
        have hrest := ih (frontier.expand hlt hfound) hnext
        rw [Array.map_push, ← hnumbered] at hrest
        exact hrest
    · have hge' : ¬ (edges.map fun out => out.map fun e => (h e.1, e.2)).size < r'.states.size := by
        rwa [Array.size_map, hsize]
      rw [dif_neg hlt, dif_neg hge', image.states_eq]
      rfl

/-- The image of a graph is explored into the image of its numbering. -/
theorem Carries.explore (carries : Carries transitions target transitions' target' root f h)
    (bound : Nat) : explore transitions' target' bound (f root) =
      (explore transitions target bound root).map (Numbering.map f h) := by
  have hempty : Image f (Reached transitions target root) Register.empty Register.empty :=
    ⟨Array.map_empty.symm, fun s hs => by simp [Register.empty] at hs⟩
  have hexpand := carries.expand bound frontier_root (hempty.number carries.inj .root).1
  rw [Array.map_empty] at hexpand
  exact hexpand

end

end Numbering

/-- If the closures of an automaton are explored into the image of those of another one, and the
states made of them are images as well, so is the deterministic automaton. -/
theorem Dfa.build_eq_map {L M : Type} [Alphabet L] [Alphabet M] {nfa : Nfa L} {nfa' : Nfa M}
    {start start' : Nat} {f : Closure → Closure} {h : SubsetEdge L → SubsetEdge M}
    {k : DfaState L → DfaState M}
    (hsubsets : nfa'.subsets start' = (nfa.subsets start).map (Numbering.map f h))
    (hstates : ∀ g, nfa.subsets start = .ok g → ∀ c ∈ g.states, ∀ edges,
      ofClosure nfa' (f c) (edges.map fun e => (h e.1, e.2)) = (ofClosure nfa c edges).map k) :
    build nfa' start' = (build nfa start).map fun dfa => ⟨dfa.states.map k⟩ := by
  unfold build
  rw [hsubsets]
  cases hg : nfa.subsets start with
  | error fault => rfl
  | ok g =>
    have himages : ((g.map f h).states.toList.zip (g.map f h).edges.toList).mapM (fun pair =>
        ofClosure nfa' pair.1 pair.2) =
          ((g.states.toList.zip g.edges.toList).mapM fun pair => ofClosure nfa pair.1 pair.2).map
            (List.map k) := by
      unfold Numbering.map
      rw [Array.toList_map, Array.toList_map, List.zip_map]
      exact mapM_map_eq fun pair hpair =>
        hstates g hg _ (Array.mem_toList_iff.1 (List.of_mem_zip hpair).1) pair.2
    simp only [Except.map, bind, Except.bind] at himages ⊢
    rw [himages]
    cases (g.states.toList.zip g.edges.toList).mapM fun pair => ofClosure nfa pair.1 pair.2 with
    | error fault => rfl
    | ok states => exact congrArg (fun s => Except.ok (Dfa.mk s)) List.map_toArray.symm

end LexChart
