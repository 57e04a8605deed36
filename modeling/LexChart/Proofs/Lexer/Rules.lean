import LexChart.Lexer.Scanner
import LexChart.Proofs.Automaton.Dispatch
import LexChart.Proofs.Automaton.Fragment
set_option autoImplicit false

/-!
# Many patterns in one automaton

The automaton of a lexer branches from its root into one fragment for each pattern, whose exit is
final for the rule of that pattern.  No transition leads back to the root and the fragments are
closed, so a word leads from the root to a state that is final for a rule exactly if it is a word of
the pattern of the rule.
-/

namespace LexChart

open Nfa Building

namespace Nfa

variable {L σ : Type} {reads : L → σ → Prop} {nfa : Nfa L}

/-- The automaton with a state final for a rule. -/
def finalFor (nfa : Nfa L) (id rule : Nat) : Nfa L :=
  nfa.modifyState id fun s => { s with accept := some rule }

theorem leaves_finalFor {id rule q : Nat} {t : Transition L} :
    (nfa.finalFor id rule).Leaves q t ↔ nfa.Leaves q t := by
  unfold finalFor
  rw [leaves_iff, leaves_iff, getElem?_modifyState]
  split
  · constructor
    · rintro ⟨s, hs, ht⟩
      obtain ⟨s₀, hs₀, rfl⟩ := Option.map_eq_some_iff.1 hs
      exact ⟨s₀, hs₀, ht⟩
    · rintro ⟨s, hs, ht⟩
      exact ⟨_, Option.map_eq_some_iff.2 ⟨s, hs, rfl⟩, ht⟩
  · rfl

theorem isFinal_iff {q r : Nat} :
    nfa.IsFinal q r ↔ (nfa.states[q]?).bind NfaState.accept = some r := by
  unfold IsFinal
  simp only [state_eq_ok_iff, Option.bind_eq_some_iff]

theorem IsFinal.lt {q r : Nat} (h : nfa.IsFinal q r) : q < nfa.size := by
  obtain ⟨s, hs, -⟩ := h
  exact lt_of_state hs

theorem isFinal_finalFor {id rule q r : Nat} (hid : id < nfa.size)
    (hnone : ∀ other, ¬ nfa.IsFinal id other) :
    (nfa.finalFor id rule).IsFinal q r ↔ nfa.IsFinal q r ∨ (q = id ∧ r = rule) := by
  have hfinal : (nfa.finalFor id rule).IsFinal q r ↔
      (if id = q then nfa.states[q]?.map fun s => { s with accept := some rule }
        else nfa.states[q]?).bind NfaState.accept = some r := by
    rw [isFinal_iff]
    unfold finalFor
    rw [getElem?_modifyState]
  rw [hfinal]
  split
  · rename_i hq
    subst hq
    rw [Array.getElem?_eq_getElem hid]
    have := hnone r
    simp only [Option.map_some, Option.bind_some, Option.some.injEq, true_and, this, false_or]
    exact eq_comm
  · rename_i hq
    have hne : ¬ q = id := fun h => hq h.symm
    simp only [hne, false_and, or_false]
    exact isFinal_iff.symm

theorem isFinal_linked {source target q r : Nat} :
    (nfa.linked source target).IsFinal q r ↔ nfa.IsFinal q r := by
  rw [isFinal_iff, isFinal_iff]
  unfold linked
  rw [getElem?_modifyState]
  split
  · cases nfa.states[q]? <;> rfl
  · rfl

/-! ## Branches from a root -/

section

variable {allowed : L → Prop} {built joined : Nfa L} {entry : Nat}

/-- The second automaton is the first one with a region behind its states, and the third one also
has a null transition from state zero into that region. -/
structure Joined (allowed : L → Prop) (nfa built joined : Nfa L) (entry : Nat) : Prop where
  size_pos : 0 < nfa.size
  targets : nfa.TargetsExist
  root_free : ∀ id t, nfa.Leaves id t → t.target ≠ 0
  grows : Grows nfa.size nfa built
  region : Region allowed nfa.size entry built
  size_eq : joined.size = built.size
  leaves_iff : ∀ id t, joined.Leaves id t ↔ built.Leaves id t ∨ (id = 0 ∧ t = .null entry)

theorem Joined.leaves_old (h : Joined allowed nfa built joined entry) {id : Nat}
    (hne : id ≠ 0) (hlt : id < nfa.size) {t : Transition L} (leaves : joined.Leaves id t) :
    nfa.Leaves id t := by
  rcases (h.leaves_iff id t).1 leaves with leaves | ⟨hid, -⟩
  · exact (h.grows.leaves_iff_of_lt hlt).1 leaves
  · exact absurd hid hne

theorem Joined.path_old (h : Joined allowed nfa built joined entry) {p q : Nat} {w : List σ}
    (path : joined.Path reads p w q) (hne : p ≠ 0) (hlt : p < nfa.size) : nfa.Path reads p w q := by
  induction path with
  | nil p => exact .nil p
  | null leaves _ ih =>
    have leaves := h.leaves_old hne hlt leaves
    exact .null leaves (ih (h.root_free _ _ leaves) (h.targets _ _ leaves))
  | symbol leaves stands _ ih =>
    have leaves := h.leaves_old hne hlt leaves
    exact .symbol leaves stands (ih (h.root_free _ _ leaves) (h.targets _ _ leaves))

theorem Joined.leaves_new (h : Joined allowed nfa built joined entry) {id : Nat}
    (hle : nfa.size ≤ id) {t : Transition L} (leaves : joined.Leaves id t) : built.Leaves id t := by
  have hpos := h.size_pos
  rcases (h.leaves_iff id t).1 leaves with leaves | ⟨hid, -⟩
  · exact leaves
  · omega

theorem Joined.path_new (h : Joined allowed nfa built joined entry) {p q : Nat} {w : List σ}
    (path : joined.Path reads p w q) (hle : nfa.size ≤ p) : built.Path reads p w q := by
  induction path with
  | nil p => exact .nil p
  | null leaves _ ih =>
    have leaves := h.leaves_new hle leaves
    exact .null leaves (ih (h.region.inside _ _ hle leaves).1)
  | symbol leaves stands _ ih =>
    have leaves := h.leaves_new hle leaves
    exact .symbol leaves stands (ih (h.region.inside _ _ hle leaves).1)

/-- What leads out of the root leads to another old state, or into the new region. -/
theorem Joined.leaves_root (h : Joined allowed nfa built joined entry) {t : Transition L}
    (leaves : joined.Leaves 0 t) :
    (nfa.Leaves 0 t ∧ t.target ≠ 0 ∧ t.target < nfa.size) ∨ t = .null entry := by
  rcases (h.leaves_iff 0 t).1 leaves with leaves | ⟨-, ht⟩
  · have leaves := (h.grows.leaves_iff_of_lt h.size_pos).1 leaves
    exact .inl ⟨leaves, h.root_free _ _ leaves, h.targets _ _ leaves⟩
  · exact .inr ht

/-- A path from the root stays among the old states or leads through the new region. -/
theorem Joined.path_iff (h : Joined allowed nfa built joined entry) {q : Nat} {w : List σ} :
    joined.Path reads 0 w q ↔ nfa.Path reads 0 w q ∨ built.Path reads entry w q := by
  constructor
  · intro path
    cases path with
    | nil => exact .inl (.nil 0)
    | null leaves path =>
      rcases h.leaves_root leaves with ⟨leaves, hne, hlt⟩ | heq
      · exact .inl (.null leaves (h.path_old path hne hlt))
      · cases heq
        exact .inr (h.path_new path h.region.base_le)
    | symbol leaves stands path =>
      rcases h.leaves_root leaves with ⟨leaves, hne, hlt⟩ | heq
      · exact .inl (.symbol leaves stands (h.path_old path hne hlt))
      · cases heq
  · have hmore : ∀ id t, built.Leaves id t → joined.Leaves id t := fun id t leaves =>
      (h.leaves_iff id t).2 (.inl leaves)
    rintro (path | path)
    · exact path.mono fun id t leaves => hmore id t (h.grows.leaves id t leaves)
    · exact .null ((h.leaves_iff 0 _).2 (.inr ⟨rfl, rfl⟩)) (path.mono hmore)

theorem Joined.targetsExist (h : Joined allowed nfa built joined entry) : joined.TargetsExist := by
  intro id t leaves
  have hsize := h.grows.size_le
  rw [h.size_eq]
  rcases (h.leaves_iff id t).1 leaves with leaves | ⟨-, rfl⟩
  · by_cases hlt : id < nfa.size
    · exact Nat.lt_of_lt_of_le (h.targets id t ((h.grows.leaves_iff_of_lt hlt).1 leaves)) hsize
    · exact (h.region.inside id t (Nat.le_of_not_lt hlt) leaves).2.1
  · exact h.region.entry_lt

theorem Joined.target_ne (h : Joined allowed nfa built joined entry) (id : Nat) (t : Transition L)
    (leaves : joined.Leaves id t) : t.target ≠ 0 := by
  have hpos := h.size_pos
  rcases (h.leaves_iff id t).1 leaves with leaves | ⟨-, rfl⟩
  · by_cases hlt : id < nfa.size
    · exact h.root_free id t ((h.grows.leaves_iff_of_lt hlt).1 leaves)
    · have := (h.region.inside id t (Nat.le_of_not_lt hlt) leaves).1
      omega
  · have := h.region.base_le
    show entry ≠ 0
    omega

end

/-- A path between existing states. -/
theorem Path.lt (htargets : nfa.TargetsExist) {p q : Nat} {w : List σ}
    (path : nfa.Path reads p w q) (hp : p < nfa.size) : q < nfa.size := by
  induction path with
  | nil => exact hp
  | null leaves _ ih => exact ih (htargets _ _ leaves)
  | symbol leaves _ _ ih => exact ih (htargets _ _ leaves)

theorem Region.path_le {allowed : L → Prop} {base entry : Nat}
    (region : Region allowed base entry nfa) {p q : Nat} {w : List σ}
    (path : nfa.Path reads p w q) (hp : base ≤ p) : base ≤ q := by
  induction path with
  | nil => exact hp
  | null leaves _ ih => exact ih (region.inside _ _ hp leaves).1
  | symbol leaves _ _ ih => exact ih (region.inside _ _ hp leaves).1

end Nfa

namespace Lexer

/-- The automaton branches from its root into the given patterns. -/
structure Branches (nfa : Nfa Interval) (patterns : List Pattern) : Prop where
  size_pos : 0 < nfa.size
  targets : nfa.TargetsExist
  root_free : ∀ id t, nfa.Leaves id t → t.target ≠ 0
  matches_iff : ∀ w r, (∃ q, nfa.Path Interval.reads 0 w q ∧ nfa.IsFinal q r) ↔
    ∃ p, patterns[r]? = some p ∧ w ∈ p.language

theorem branches_root : Branches Nfa.empty.addState.1 [] := by
  have hsize : Nfa.empty.addState.1.size = 1 := size_addState (L := Interval) Nfa.empty
  have hleaves : ∀ id t, ¬ (Nfa.empty.addState.1 : Nfa Interval).Leaves id t := by
    intro id t leaves
    have := (leaves_addState.1 leaves).lt
    exact absurd this (Nat.not_lt_zero id)
  refine ⟨by omega, fun id t leaves => absurd leaves (hleaves id t),
    fun id t leaves => absurd leaves (hleaves id t), fun w r => ?_⟩
  constructor
  · rintro ⟨q, -, hfinal⟩
    rw [isFinal_iff, getElem?_addState] at hfinal
    split at hfinal
    · cases hfinal
    · simp [Nfa.empty] at hfinal
  · rintro ⟨p, hp, -⟩
    simp at hp

/-- The language of a pattern, its terminals read label by label. -/
theorem denotes_pattern (pattern : Pattern) :
    Denotes Interval.reads (fun _ => True) (pattern.builder CharClass.intervals)
      pattern.language :=
  Expr.denotes_builder (fun _ _ _ => trivial) pattern

theorem addRule_eq (nfa : Nfa Interval) (pattern : Pattern) (rule : Nat) :
    addRule 0 nfa pattern rule = ((pattern.builder CharClass.intervals nfa).2.linked 0
      (pattern.builder CharClass.intervals nfa).1.entry).finalFor
        (pattern.builder CharClass.intervals nfa).1.exit rule := rfl

/-- A branch is final at its exit only, and nothing else changes about final states. -/
theorem isFinal_branch_iff {nfa built : Nfa Interval} {entry exit rule q r : Nat}
    (hgrows : Grows nfa.size nfa built) (hregion : Region (fun _ => True) nfa.size entry built)
    (hle : nfa.size ≤ exit) (hlt : exit < built.size) :
    ((built.linked 0 entry).finalFor exit rule).IsFinal q r ↔
      nfa.IsFinal q r ∨ (q = exit ∧ r = rule) := by
  have hnone : ∀ id r, nfa.size ≤ id → ¬ built.IsFinal id r := by
    rintro id r hid ⟨s, hs, haccept⟩
    rw [hregion.accept id s hid (state_eq_ok_iff.1 hs)] at haccept
    cases haccept
  rw [isFinal_finalFor (by rwa [size_linked])
    (fun other => mt isFinal_linked.1 (hnone _ other hle)), isFinal_linked]
  apply or_congr_left
  by_cases hq : q < nfa.size
  · rw [isFinal_iff, isFinal_iff, hgrows.kept q hq]
  · exact iff_of_false (hnone q r (Nat.le_of_not_lt hq)) fun hfinal => hq hfinal.lt

/-- Adding a rule adds a branch for its pattern. -/
theorem Branches.addRule {nfa : Nfa Interval} {patterns : List Pattern} (h : Branches nfa patterns)
    (pattern : Pattern) :
    Branches (addRule 0 nfa pattern patterns.length) (patterns ++ [pattern]) := by
  have hdenotes := denotes_pattern pattern
  have hword := hdenotes.path_iff nfa
  have hgrows := hdenotes.framed.grows nfa
  have hregion := hdenotes.framed.region nfa
  have hexit_le := hdenotes.framed.le_exit nfa
  have hexit_lt := hdenotes.framed.exit_lt nfa
  rw [addRule_eq]
  generalize pattern.builder CharClass.intervals nfa = answer at *
  obtain ⟨fragment, built⟩ := answer
  dsimp only at *
  have hpos := h.size_pos
  have hsize := hgrows.size_le
  have hjoined : Joined (fun _ => True) nfa built ((built.linked 0 fragment.entry).finalFor
      fragment.exit patterns.length) fragment.entry := by
    refine ⟨h.size_pos, h.targets, h.root_free, hgrows, hregion, ?_, fun id t => ?_⟩
    · unfold finalFor
      rw [size_modifyState, size_linked]
    · have hbuilt : 0 < built.size := by omega
      refine leaves_finalFor.trans (leaves_addTransition.trans ?_)
      simp only [hbuilt, true_and]
  have hfinal : ∀ q r, ((built.linked 0 fragment.entry).finalFor fragment.exit
      patterns.length).IsFinal q r ↔
        nfa.IsFinal q r ∨ (q = fragment.exit ∧ r = patterns.length) :=
    fun q r => isFinal_branch_iff hgrows hregion hexit_le hexit_lt
  refine ⟨?_, hjoined.targetsExist, hjoined.target_ne, fun w r => ?_⟩
  · rw [hjoined.size_eq]
    omega
  constructor
  · rintro ⟨q, path, hq⟩
    rcases (hfinal q r).1 hq with hq | ⟨rfl, rfl⟩
    · rcases hjoined.path_iff.1 path with path | path
      · obtain ⟨p, hp, hw⟩ := (h.matches_iff w r).1 ⟨q, path, hq⟩
        exact ⟨p, getElem?_concat_eq_some_iff.2 (.inl hp), hw⟩
      · have := hregion.path_le path hregion.base_le
        have := hq.lt
        omega
    · rcases hjoined.path_iff.1 path with path | path
      · have := path.lt h.targets hpos
        omega
      · exact ⟨pattern, by simp, (hword w).1 path⟩
  · rintro ⟨p, hp, hw⟩
    rcases getElem?_concat_eq_some_iff.1 hp with hp | ⟨rfl, rfl⟩
    · obtain ⟨q, path, hq⟩ := (h.matches_iff w r).2 ⟨p, hp, hw⟩
      exact ⟨q, hjoined.path_iff.2 (.inl path), (hfinal q r).2 (.inl hq)⟩
    · exact ⟨fragment.exit, hjoined.path_iff.2 (.inr ((hword w).2 hw)),
        (hfinal _ _).2 (.inr ⟨rfl, rfl⟩)⟩

/-- The automaton of the rules branches into all their patterns. -/
theorem branches_nfa (patterns : List Pattern) : Branches (nfa patterns) patterns := by
  induction patterns using List.reverseRecOn with
  | nil => exact branches_root
  | append_singleton patterns pattern ih =>
    have hnfa : nfa (patterns ++ [pattern]) =
        Lexer.addRule 0 (nfa patterns) pattern patterns.length := by
      unfold nfa
      simp only [List.zipIdx_append, List.foldl_append]
      simp [Nfa.addState, Nfa.size, Nfa.empty]
    rw [hnfa]
    exact ih.addRule pattern

end Lexer

end LexChart
