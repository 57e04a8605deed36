set_option autoImplicit false

/-!
# Ascending lists

Sets of numbers and of characters are shown as strictly ascending lists.  This module fixes that
form once: `ascending xs` holds exactly the elements of `xs`, each once, in strictly ascending
order, and `groups` collects the values listed under each key, keys ascending and the values of a
key in the order in which they came.

Lists are sorted by merging, and an element that two lists share is merged into one.
-/

namespace LexChart

section

variable {α : Type} [DecidableEq α] [LE α] [DecidableLE α]

/-- Merges the rest of two ascending lists behind `a`, the head of the first; `mergeRest` merges its
tail with any list. -/
def mergeHead (a : α) (as : List α) (mergeRest : List α → List α) : List α → List α
  | [] => a :: as
  | b :: bs =>
    if a = b then a :: mergeRest bs
    else if a ≤ b then a :: mergeRest (b :: bs)
    else b :: mergeHead a as mergeRest bs

/-- The elements of two ascending lists, in ascending order and each once. -/
def merge : List α → List α → List α
  | [] => fun bs => bs
  | a :: as => mergeHead a as (merge as)

/-- Merges the lists at positions one and two, three and four, and so on. -/
def mergePairs : List (List α) → List (List α)
  | a :: b :: rest => merge a b :: mergePairs rest
  | runs => runs

/-- Merges neighbours `rounds` times, or until one list is left, and then all that are left. -/
def mergeAll : Nat → List (List α) → List α
  | _, [] => []
  | _, [run] => run
  | 0, runs => runs.foldr merge []
  | rounds + 1, runs => mergeAll rounds (mergePairs runs)

/-- The elements of a list in ascending order, each once. -/
def ascending (xs : List α) : List α := mergeAll xs.length (xs.map fun x => [x])

/-- The values listed under each key: keys ascending, the values of one key in their order. -/
def groups {β : Type} (pairs : List (α × β)) : List (α × List β) :=
  (ascending (pairs.map Prod.fst)).map fun key =>
    (key, pairs.filterMap fun pair => if pair.1 = key then some pair.2 else none)

/-! ## Elements -/

theorem mem_mergeHead {x a : α} {as : List α} {mergeRest : List α → List α}
    (h : ∀ bs, x ∈ mergeRest bs ↔ x ∈ as ∨ x ∈ bs) (bs : List α) :
    x ∈ mergeHead a as mergeRest bs ↔ x ∈ a :: as ∨ x ∈ bs := by
  induction bs with
  | nil => simp [mergeHead]
  | cons b bs ih => rw [mergeHead]; grind

@[simp] theorem mem_merge {x : α} {as bs : List α} : x ∈ merge as bs ↔ x ∈ as ∨ x ∈ bs := by
  induction as generalizing bs with
  | nil => simp [merge]
  | cons a as ih => exact mem_mergeHead (fun bs => ih) bs

theorem mem_mergePairs {x : α} (runs : List (List α)) :
    (∃ run ∈ mergePairs runs, x ∈ run) ↔ ∃ run ∈ runs, x ∈ run := by
  fun_induction mergePairs runs with
  | case1 a b rest ih =>
    simp only [List.mem_cons, exists_eq_or_imp, ih, mem_merge, or_assoc]
  | case2 => rfl

theorem mem_foldr_merge {x : α} (runs : List (List α)) :
    x ∈ runs.foldr merge [] ↔ ∃ run ∈ runs, x ∈ run := by
  induction runs with
  | nil => simp
  | cons run runs ih => simp [ih]

theorem mem_mergeAll {x : α} (rounds : Nat) (runs : List (List α)) :
    x ∈ mergeAll rounds runs ↔ ∃ run ∈ runs, x ∈ run := by
  fun_induction mergeAll rounds runs with
  | case1 => simp
  | case2 => simp
  | case3 runs => exact mem_foldr_merge runs
  | case4 rounds runs _ _ ih => rw [ih, mem_mergePairs]

@[simp] theorem mem_ascending {x : α} {xs : List α} : x ∈ ascending xs ↔ x ∈ xs := by
  rw [ascending, mem_mergeAll]
  constructor
  · rintro ⟨run, hrun, hx⟩
    obtain ⟨y, hy, rfl⟩ := List.mem_map.1 hrun
    rwa [List.mem_singleton.1 hx]
  · exact fun hx => ⟨[x], List.mem_map.2 ⟨x, hx, rfl⟩, List.mem_singleton.2 rfl⟩

/-! ## Order -/

variable [LT α] [Std.IsLinearOrder α] [Std.LawfulOrderLT α]

theorem pairwise_merge (as bs : List α) (ha : as.Pairwise (· < ·)) (hb : bs.Pairwise (· < ·)) :
    (merge as bs).Pairwise (· < ·) := by
  induction as generalizing bs with
  | nil => exact hb
  | cons a as iha =>
    obtain ⟨ha₁, ha₂⟩ := List.pairwise_cons.1 ha
    show (mergeHead a as (merge as) bs).Pairwise _
    induction bs with
    | nil => exact ha
    | cons b bs ihb =>
      obtain ⟨hb₁, hb₂⟩ := List.pairwise_cons.1 hb
      rw [mergeHead]
      split
      · rename_i hab; subst hab
        refine List.pairwise_cons.2 ⟨fun x hx => ?_, iha bs ha₂ hb₂⟩
        exact (mem_merge.1 hx).elim (ha₁ x) (hb₁ x)
      · rename_i hne
        split
        · rename_i hle
          have hab : a < b := Std.lt_of_le_of_ne hle hne
          refine List.pairwise_cons.2 ⟨fun x hx => ?_, iha (b :: bs) ha₂ hb⟩
          rcases mem_merge.1 hx with hx | hx
          · exact ha₁ x hx
          · rcases List.mem_cons.1 hx with rfl | hx
            · exact hab
            · exact Std.lt_trans hab (hb₁ x hx)
        · rename_i hle
          have hba : b < a := Std.not_le.1 hle
          refine List.pairwise_cons.2 ⟨fun x hx => ?_, ihb hb₂⟩
          rcases (mem_mergeHead (fun bs => mem_merge) bs).1 hx with hx | hx
          · rcases List.mem_cons.1 hx with rfl | hx
            · exact hba
            · exact Std.lt_trans hba (ha₁ x hx)
          · exact hb₁ x hx

theorem pairwise_mergePairs (runs : List (List α)) (h : ∀ run ∈ runs, run.Pairwise (· < ·)) :
    ∀ run ∈ mergePairs runs, run.Pairwise (· < ·) := by
  fun_induction mergePairs runs with
  | case1 a b rest ih =>
    intro run hrun
    rcases List.mem_cons.1 hrun with rfl | hrun
    · exact pairwise_merge a b (h a (by simp)) (h b (by simp))
    · exact ih (fun run hrun => h run (by simp [hrun])) run hrun
  | case2 => exact h

theorem pairwise_foldr_merge (runs : List (List α)) (h : ∀ run ∈ runs, run.Pairwise (· < ·)) :
    (runs.foldr merge []).Pairwise (· < ·) := by
  induction runs with
  | nil => simp
  | cons run runs ih =>
    exact pairwise_merge _ _ (h run (by simp)) (ih fun run hrun => h run (by simp [hrun]))

theorem pairwise_mergeAll (rounds : Nat) (runs : List (List α))
    (h : ∀ run ∈ runs, run.Pairwise (· < ·)) : (mergeAll rounds runs).Pairwise (· < ·) := by
  fun_induction mergeAll rounds runs with
  | case1 => simp
  | case2 _ run => exact h run (by simp)
  | case3 runs => exact pairwise_foldr_merge runs h
  | case4 rounds runs _ _ ih => exact ih (pairwise_mergePairs runs h)

theorem pairwise_ascending (xs : List α) : (ascending xs).Pairwise (· < ·) := by
  refine pairwise_mergeAll _ _ fun run hrun => ?_
  obtain ⟨x, _, rfl⟩ := List.mem_map.1 hrun
  simp

end

end LexChart
