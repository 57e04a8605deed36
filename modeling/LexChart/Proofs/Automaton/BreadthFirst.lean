import LexChart.Proofs.Checked.Graphs
import Mathlib.Data.Set.Card
set_option autoImplicit false

/-!
# Explorations are breadth first

`Numbering.explore` on a graph whose transitions are a function of the state, and from whose root
only finitely many states can be reached.  Any bound from their number on gives the same answer, in
which no state waits: the reachable states in the order in which they are expanded, each of them
once.

Numbers follow the distance from the root.  The reason is the order in which states are met: if a
transition of the `k`-th state leads to the `j`-th, then any earlier state but the root is the
target of a transition of the `k`-th state or an earlier one.  This holds between any two
expansions, and from it a walk to the `j`-th state gives a walk to any earlier state that is no
longer, by induction on its length.
-/

namespace LexChart.Numbering

section

variable {σ τ : Type}

/-! ## Walks and distances -/

/-- A walk of so many transitions leads from the root to a state. -/
inductive Walk (next : σ → List τ) (target : τ → σ) (root : σ) : Nat → σ → Prop where
  | root : Walk next target root 0 root
  | step {n : Nat} {s : σ} {t : τ} : Walk next target root n s → t ∈ next s →
      Walk next target root (n + 1) (target t)

/-- The states that some walk leads to. -/
def reach (next : σ → List τ) (target : τ → σ) (root : σ) : Set σ :=
  {s | ∃ n, Walk next target root n s}

/-- The length of the shortest walks to a state. -/
def IsDistance (next : σ → List τ) (target : τ → σ) (root s : σ) (n : Nat) : Prop :=
  Walk next target root n s ∧ ∀ m, Walk next target root m s → n ≤ m

variable {next : σ → List τ} {target : τ → σ} {root : σ}

/-- The transitions of a graph as an action that always answers. -/
def answered (next : σ → List τ) (s : σ) : Except Fault (List τ) := .ok (next s)

theorem reached_iff {s : σ} :
    Reached (answered next) target root s ↔ s ∈ reach next target root := by
  constructor
  · intro h
    induction h with
    | root => exact ⟨0, .root⟩
    | step _ hfound ht ih =>
      obtain ⟨n, hn⟩ := ih
      exact ⟨n + 1, hn.step (Except.ok.inj hfound ▸ ht)⟩
  · rintro ⟨n, hn⟩
    induction hn with
    | root => exact .root
    | step _ ht ih => exact ih.step rfl ht

/-- No more different states are reached than there are. -/
theorem reachesAtMost_ncard (finite : (reach next target root).Finite) :
    ReachesAtMost (answered next) target root (reach next target root).ncard := by
  classical
  intro states hnodup hreached
  have hsub : (states.toFinset : Set σ) ⊆ reach next target root := fun s hs =>
    reached_iff.1 (hreached s (List.mem_toFinset.1 hs))
  have hcard := Set.ncard_le_ncard hsub finite
  rwa [Set.ncard_coe_finset, List.toFinset_card_of_nodup hnodup] at hcard

/-! ## The order in which states are met -/

/-- A transition of the `k`-th state leads to the `i`-th. -/
def Meets (edges : Array (List (τ × Nat))) (k i : Nat) : Prop :=
  ∃ out, edges[k]? = some out ∧ ∃ e ∈ out, e.2 = i

/-- Every state but the root is met from some other one, and what is met no later than another state
is met from a state that stands no later. -/
structure InOrder (count : Nat) (edges : Array (List (τ × Nat))) : Prop where
  met : ∀ i, 0 < i → i < count → ∃ k, Meets edges k i
  ordered : ∀ k i j, Meets edges k j → 0 < i → i ≤ j → ∃ k' ≤ k, Meets edges k' i

theorem meets_push {edges : Array (List (τ × Nat))} {out : List (τ × Nat)} {k i : Nat} :
    Meets (edges.push out) k i ↔ Meets edges k i ∨ k = edges.size ∧ ∃ e ∈ out, e.2 = i := by
  unfold Meets
  rw [Array.getElem?_push]
  split
  · rename_i hk
    subst hk
    simp
  · rename_i hk
    simp [hk]

theorem Meets.lt {edges : Array (List (τ × Nat))} {k i : Nat} (h : Meets edges k i) :
    k < edges.size := by
  obtain ⟨out, hout, -⟩ := h
  exact (Array.getElem?_eq_some_iff.1 hout).1

/-- One more expansion, after which all new states are met. -/
theorem InOrder.push {count more : Nat} {edges : Array (List (τ × Nat))} {out : List (τ × Nat)}
    (h : InOrder count edges) (hlt : ∀ e ∈ out, e.2 < more)
    (hnew : ∀ i, count ≤ i → i < more → ∃ e ∈ out, e.2 = i) : InOrder more (edges.push out) := by
  have hmet : ∀ i, 0 < i → i < more → ∃ k ≤ edges.size, Meets (edges.push out) k i := by
    intro i hpos hi
    by_cases hold : i < count
    · obtain ⟨k, hk⟩ := h.met i hpos hold
      exact ⟨k, Nat.le_of_lt hk.lt, meets_push.2 (.inl hk)⟩
    · exact ⟨edges.size, Nat.le_refl _, meets_push.2 (.inr ⟨rfl, hnew i (Nat.not_lt.1 hold) hi⟩)⟩
  refine ⟨fun i hpos hi => ?_, fun k i j hk hpos hle => ?_⟩
  · obtain ⟨k, -, hk⟩ := hmet i hpos hi
    exact ⟨k, hk⟩
  · rcases meets_push.1 hk with hk | ⟨rfl, e, he, rfl⟩
    · obtain ⟨k', hle', hk'⟩ := h.ordered k i j hk hpos hle
      exact ⟨k', hle', meets_push.2 (.inl hk')⟩
    · exact hmet i hpos (Nat.lt_of_le_of_lt hle (hlt e he))

/-- A state has one number. -/
theorem IsExploration.id_unique {transitions : σ → Except Fault (List τ)} {g : Numbering σ τ}
    (h : IsExploration transitions target root g) {i j : Nat} {s : σ} (hi : g.states[i]? = some s)
    (hj : g.states[j]? = some s) : i = j := by
  have hlt := (Array.getElem?_eq_some_iff.1 hi).1
  rw [← Array.getElem?_toList] at hi hj
  exact (List.getElem?_inj hlt h.nodup).1 (hi.trans hj.symm)

theorem IsExploration.eq_root {transitions : σ → Except Fault (List τ)} {g : Numbering σ τ}
    (h : IsExploration transitions target root g) {s : σ} (hs : g.states[0]? = some s) : s = root :=
  Option.some.inj (hs.symm.trans h.first)

/-- A step of a walk is an edge between the numbers of its ends. -/
theorem IsExploration.meets_of_step {g : Numbering σ τ}
    (h : IsExploration (answered next) target root g) {n j : Nat} {s : σ} {t : τ}
    (hwalk : Walk next target root n s) (ht : t ∈ next s) (hj : g.states[j]? = some (target t)) :
    ∃ k : Nat, g.states[k]? = some s ∧ Meets g.edges k j := by
  obtain ⟨k, hk⟩ := Array.mem_iff_getElem?.1 ((h.mem_iff s).2 (reached_iff.2 ⟨n, hwalk⟩))
  obtain ⟨out, hout, hfound⟩ := h.exists_edges hk
  obtain ⟨e, he, rfl⟩ := List.mem_map.1 (Except.ok.inj hfound ▸ ht)
  exact ⟨k, hk, out, hout, e, he, h.id_unique (h.target_eq k out hout e he) hj⟩

/-- An edge prolongs the walks to its beginning. -/
theorem IsExploration.walk_of_meets {g : Numbering σ τ}
    (h : IsExploration (answered next) target root g) {n k i : Nat} {s t : σ}
    (hmeets : Meets g.edges k i) (hk : g.states[k]? = some s) (hi : g.states[i]? = some t)
    (hwalk : Walk next target root n s) : Walk next target root (n + 1) t := by
  obtain ⟨out, hout, e, he, rfl⟩ := hmeets
  have hfound : next s = out.map Prod.fst := Except.ok.inj (h.found k s out hk hout)
  obtain rfl : t = target e.1 := Option.some.inj (hi.symm.trans (h.target_eq k out hout e he))
  exact hwalk.step (hfound ▸ List.mem_map_of_mem he)

/-- A walk to a state gives a walk to any earlier state that is no longer. -/
theorem IsExploration.exists_walk {g : Numbering σ τ}
    (h : IsExploration (answered next) target root g) (inOrder : InOrder g.states.size g.edges)
    {n i j : Nat} {s t : σ} (hwalk : Walk next target root n t) (hij : i ≤ j)
    (hs : g.states[i]? = some s) (ht : g.states[j]? = some t) :
    ∃ m ≤ n, Walk next target root m s := by
  -- Both ends move: an earlier state is met from an earlier state.
  induction n generalizing i j s t with
  | zero =>
    cases hwalk
    obtain rfl : j = 0 := h.id_unique ht h.first
    obtain rfl : i = 0 := Nat.le_zero.1 hij
    exact ⟨0, Nat.le_refl 0, h.eq_root hs ▸ .root⟩
  | succ n ih =>
    rcases Nat.eq_zero_or_pos i with rfl | hpos
    · exact ⟨0, Nat.zero_le _, h.eq_root hs ▸ .root⟩
    · cases hwalk with
      | step hwalk hedge =>
        obtain ⟨k, hk, hmeets⟩ := h.meets_of_step hwalk hedge ht
        obtain ⟨k', hle, hmeets'⟩ := inOrder.ordered k i j hmeets hpos hij
        have hlt : k' < g.states.size := h.size_edges ▸ hmeets'.lt
        have hk' := Array.getElem?_eq_getElem hlt
        obtain ⟨m, hm, hwalk'⟩ := ih hwalk hle hk' hk
        exact ⟨m + 1, Nat.succ_le_succ hm, h.walk_of_meets hmeets' hk' hs hwalk'⟩

/-! ## Breadth-first numberings -/

/-- The states are the reachable ones, each of them once and the root first; the edges of a state
are its transitions in their order, each with the number of its target; and what is nearer to the
root comes first. -/
structure IsBreadthFirst (next : σ → List τ) (target : τ → σ) (root : σ) (g : Numbering σ τ) :
    Prop where
  nodup : g.states.toList.Nodup
  root_eq : g.state 0 = .ok root
  exists_iff : ∀ s, (∃ id, g.state id = .ok s) ↔ s ∈ reach next target root
  size_edges : g.edges.size = g.states.size
  edges_eq : ∀ id s, g.state id = .ok s → ∃ out, g.edgesOf id = .ok out ∧
    out.map Prod.fst = next s ∧ ∀ e ∈ out, g.state e.2 = .ok (target e.1)
  lt_of_distance_lt : ∀ i j s t m n, g.state i = .ok s → g.state j = .ok t →
    IsDistance next target root s m → IsDistance next target root t n → m < n → i < j

theorem state_eq_ok_iff {g : Numbering σ τ} {id : Nat} {s : σ} :
    g.state id = .ok s ↔ g.states[id]? = some s := by
  unfold state
  cases g.states[id]? with
  | none => simp
  | some t => simp

theorem IsExploration.isBreadthFirst {g : Numbering σ τ}
    (h : IsExploration (answered next) target root g) (inOrder : InOrder g.states.size g.edges) :
    IsBreadthFirst next target root g where
  nodup := h.nodup
  root_eq := state_eq_ok_iff.2 h.first
  exists_iff s := by
    simp only [state_eq_ok_iff, ← Array.mem_iff_getElem?, h.mem_iff, reached_iff]
  size_edges := h.size_edges
  edges_eq id s hs := by
    obtain ⟨out, hout, hfound⟩ := h.exists_edges (state_eq_ok_iff.1 hs)
    refine ⟨out, by rw [edgesOf, hout], (Except.ok.inj hfound).symm, fun e he => ?_⟩
    exact state_eq_ok_iff.2 (h.target_eq id out hout e he)
  lt_of_distance_lt i j s t m n hs ht hm hn hlt := by
    by_contra hij
    rw [state_eq_ok_iff] at hs ht
    obtain ⟨l, hle, hwalk⟩ := h.exists_walk inOrder hm.1 (Nat.not_lt.1 hij) ht hs
    have := hn.2 l hwalk
    omega

end

variable {σ τ : Type} [DecidableEq σ] [Hashable σ] {next : σ → List τ} {target : τ → σ} {root : σ}

/-! ## The walk -/

/-- The numbers that are handed out are those of targets. -/
theorem exists_numbered (target : τ → σ) (found : List τ) (r : Register σ) (i : Nat)
    (hle : r.states.size ≤ i) (hlt : i < (numberTargets target r found).1.states.size) :
    ∃ e ∈ (numberTargets target r found).2, e.2 = i := by
  induction found generalizing r with
  | nil => exact absurd hlt (Nat.not_lt.2 hle)
  | cons t rest ih =>
    by_cases hfirst : (r.number (target t)).2 = i
    · exact ⟨_, List.mem_cons_self, hfirst⟩
    · have hle' : (r.number (target t)).1.states.size ≤ i := by
        rcases r.number_cases (target t) with ⟨hr, -⟩ | ⟨-, hr, hid⟩
        · rwa [hr]
        · rw [hr, Array.size_push]
          omega
      obtain ⟨e, he, hei⟩ := ih _ hle' hlt
      exact ⟨e, List.mem_cons_of_mem _ he, hei⟩

/-- However the walk ends, states are numbered in the order in which they are met. -/
theorem inOrder_of_expand {transitions : σ → Except Fault (List τ)} {limit : Nat} {r : Register σ}
    {edges : Array (List (τ × Nat))} {g : Numbering σ τ} (h : InOrder r.states.size edges)
    (hg : expand transitions target limit r edges = .ok g) : InOrder g.states.size g.edges := by
  induction limit generalizing r edges with
  | zero =>
    cases hg
    exact h
  | succ limit ih =>
    rw [expand] at hg
    split at hg
    · obtain ⟨found, -, hg⟩ := bind_eq_ok_iff.1 hg
      have hspec := numberTargets_spec target found r
      refine ih (h.push (fun e he => ?_) (exists_numbered target found r)) hg
      exact (Array.getElem?_eq_some_iff.1 (hspec.target_eq e he)).1
    · cases hg
      exact h

theorem inOrder_root : InOrder (Register.empty.number root).1.states.size
    (#[] : Array (List (τ × Nat))) := by
  rw [Register.states_number_empty]
  refine ⟨fun i hpos hi => ?_, fun k i j hk => absurd hk.lt (Nat.not_lt_zero k)⟩
  have : i < 1 := hi
  omega

/-! ## Bounds and calls -/

/-- A walk that has expanded all states takes no notice of a larger bound. -/
theorem expand_add {transitions : σ → Except Fault (List τ)} {limit : Nat} {r : Register σ}
    {edges : Array (List (τ × Nat))} {g : Numbering σ τ} (extra : Nat)
    (hg : expand transitions target limit r edges = .ok g) (hall : g.edges.size = g.states.size) :
    expand transitions target (limit + extra) r edges = .ok g := by
  induction limit generalizing r edges with
  | zero =>
    cases hg
    cases extra with
    | zero => rfl
    | succ extra =>
      rw [Nat.zero_add, expand, dif_neg (Nat.not_lt.2 (Nat.le_of_eq hall.symm))]
      rfl
  | succ limit ih =>
    rw [Nat.succ_add, expand]
    rw [expand] at hg
    split at hg
    · rename_i hlt
      obtain ⟨found, hfound, hg⟩ := bind_eq_ok_iff.1 hg
      rw [dif_pos hlt, hfound]
      exact ih hg
    · rename_i hge
      rw [dif_neg hge]
      exact hg

/-- The transitions of a graph as an action that puts every call on record. -/
def recorded (next : σ → List τ) (s : σ) : StateM (List σ) (List τ) := do
  modify fun calls => calls ++ [s]
  pure (next s)

/-- The calls are those for the expanded states, in their order. -/
theorem run_expand_recorded {limit : Nat} {r : Register σ} {edges : Array (List (τ × Nat))}
    {g : Numbering σ τ} (hg : expand (answered next) target limit r edges = .ok g) :
    (expand (recorded next) target limit r edges).run (r.states.toList.take edges.size) =
      (g, g.states.toList.take g.edges.size) := by
  induction limit generalizing r edges with
  | zero =>
    cases hg
    rfl
  | succ limit ih =>
    rw [expand] at hg ⊢
    split at hg
    · rename_i hlt
      rw [dif_pos hlt]
      obtain ⟨added, hadded⟩ := (numberTargets_spec target (next r.states[edges.size]) r).extends_
      have hcalls := ih hg
      have htake : (numberTargets target r (next r.states[edges.size])).1.states.toList.take
          (edges.push (numberTargets target r (next r.states[edges.size])).2).size =
          r.states.toList.take edges.size ++ [r.states[edges.size]] := by
        have hlength : edges.size < r.states.toList.length := by rwa [Array.length_toList]
        rw [Array.size_push, hadded, List.take_append_of_le_length hlength,
          ← List.take_append_getElem hlength, Array.getElem_toList]
      rw [htake] at hcalls
      exact hcalls
    · rename_i hge
      rw [dif_neg hge]
      cases hg
      rfl

/-- Where only finitely many states are reached, the walk ends, and with any bound that is large
enough it has the same breadth-first answer, each state being asked for its transitions once, in the
order of the numbers.  With a queue of the states that wait, no step breaks off. -/
theorem breadth_first_exact (next : σ → List τ) (target : τ → σ) (root : σ)
    (finite : (reach next target root).Finite) :
    ∃ g : Numbering σ τ, IsBreadthFirst next target root g ∧
      ∀ bound, (reach next target root).ncard ≤ bound →
        (explore (recorded next) target bound root).run [] = (g, g.states.toList) ∧
        Checked.ran (Checked.explore (fun s => pure (next s)) target bound root) = some g := by
  have hanswered : ∀ s, Reached (answered next) target root s →
      ∃ found, answered next s = .ok found := fun s _ => ⟨next s, rfl⟩
  obtain ⟨g, hg, hexploration⟩ := explore_ok hanswered (reachesAtMost_ncard finite)
  refine ⟨g, hexploration.isBreadthFirst (inOrder_of_expand inOrder_root hg), fun bound hbound => ?_⟩
  obtain ⟨extra, rfl⟩ := Nat.exists_eq_add_of_le hbound
  have hmore : explore (answered next) target (_ + extra) root = .ok g :=
    expand_add extra hg hexploration.size_edges
  refine ⟨?_, ?_⟩
  · have hall : g.states.toList.take g.edges.size = g.states.toList := by
      rw [hexploration.size_edges, ← Array.length_toList, List.take_length]
    have hrun := run_expand_recorded hmore
    rw [hall] at hrun
    exact hrun
  · refine (Checked.follows_explore (fun s => Checked.Follows.pure (next s)) ?_).ran_eq hmore
    intro g' hg'
    obtain rfl := Except.ok.inj (hmore.symm.trans hg')
    exact hexploration.size_edges

/-- Doubling and adding one among seven numbers. -/
def doubling (s : Fin 7) : List (Char × Fin 7) := [('*', s * 2), ('+', s + 1)]

theorem breadth_first_exact_doubling : ∃ g : Numbering (Fin 7) (Char × Fin 7),
    IsBreadthFirst doubling Prod.snd 1 g ∧ g.state 0 = .ok 1 ∧
      (explore (recorded doubling) Prod.snd 7 1).run [] = (g, g.states.toList) := by
  have finite : (reach doubling Prod.snd 1).Finite := Set.toFinite _
  obtain ⟨g, hg, hbound⟩ := breadth_first_exact doubling Prod.snd 1 finite
  have hcard : (reach doubling Prod.snd 1).ncard ≤ 7 := by
    simpa using Set.ncard_le_card (reach doubling Prod.snd 1)
  exact ⟨g, hg, hg.root_eq, (hbound 7 hcard).1⟩

end LexChart.Numbering
