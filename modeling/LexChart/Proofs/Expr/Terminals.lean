import LexChart.Proofs.Expr.Language
set_option autoImplicit false

/-!
# Terminals and marks of equal trees

Simplifying an expression keeps its terminals in their order, and all marks but those that say
nothing: both are read off an expression from left to right, and neither a node that gives way to
its parts nor a repetition that moves to the only part changes what is read.  Expressions that
differ in their terminals only have the same marks.
-/

namespace LexChart.Expr

variable {α β : Type}

theorem terminals_node (m : Marks) (join : Join) (parts : List (Expr α)) :
    terminals (.node m join parts) = parts.flatMap terminals :=
  terminalsOfParts_eq_flatMap parts

theorem repetitionsOfParts_eq_flatMap (parts : List (Expr α)) :
    repetitionsOfParts parts = parts.flatMap repetitions := by
  induction parts with
  | nil => rfl
  | cons part rest ih => rw [repetitionsOfParts, ih, List.flatMap_cons]

theorem repetitions_node (m : Marks) (join : Join) (parts : List (Expr α)) :
    repetitions (.node m join parts) = m.repetition :: parts.flatMap repetitions := by
  rw [repetitions, repetitionsOfParts_eq_flatMap]

/-! ## Marks -/

mutual

/-- The marks of all nodes, each in front of those inside it. -/
def markings : Expr α → List Marks
  | .leaf m _ => [m]
  | .node m _ parts => m :: markingsOfParts parts

/-- The marks of all nodes of all parts. -/
def markingsOfParts : List (Expr α) → List Marks
  | [] => []
  | part :: rest => markings part ++ markingsOfParts rest

end

theorem markingsOfParts_eq_flatMap (parts : List (Expr α)) :
    markingsOfParts parts = parts.flatMap markings := by
  induction parts with
  | nil => rfl
  | cons part rest ih => rw [markingsOfParts, ih, List.flatMap_cons]

theorem markings_node (m : Marks) (join : Join) (parts : List (Expr α)) :
    markings (.node m join parts) = m :: parts.flatMap markings := by
  rw [markings, markingsOfParts_eq_flatMap]

mutual

theorem repetitions_eq_map : ∀ e : Expr α, repetitions e = (markings e).map Marks.repetition
  | .leaf m t => rfl
  | .node m join parts => by
    rw [repetitions, markings, List.map_cons, repetitionsOfParts_eq_map parts]

theorem repetitionsOfParts_eq_map : ∀ parts : List (Expr α),
    repetitionsOfParts parts = (markingsOfParts parts).map Marks.repetition
  | [] => rfl
  | part :: rest => by
    rw [repetitionsOfParts, markingsOfParts, List.map_append, repetitions_eq_map part,
      repetitionsOfParts_eq_map rest]

end

/-- The marks that say anything, from left to right: names, repetitions and groups. -/
def marked (e : Expr α) : List Marks := (markings e).filter (· ≠ {})

/-! ## Simplified expressions -/

/-- A plain root carries no marks. -/
theorem marks_eq_of_isPlain {e : Expr α} (h : e.isPlain = true) : e.marks = {} :=
  of_decide_eq_true h

/-- A list is read off an expression from left to right: a node adds what its marks say in front of
what its parts give, and marks that say nothing add nothing. -/
structure ReadOff {γ : Type} (own : Marks → List γ) (read : Expr α → List γ) : Prop where
  leaf : ∀ m t, read (.leaf m t) = own m ++ read (.leaf {} t)
  node : ∀ m join parts, read (.node m join parts) = own m ++ parts.flatMap read
  plain : own {} = []

namespace ReadOff

variable {γ : Type} {own : Marks → List γ} {read : Expr α → List γ}

theorem flatMap_spliceInto (h : ReadOff own read) (join : Join) (part : Expr α) :
    (spliceInto join part).flatMap read = read part := by
  unfold spliceInto
  split
  · rename_i hspliced
    cases part with
    | leaf m t => exact nomatch hspliced.2
    | node m join' parts =>
      obtain rfl : m = {} := marks_eq_of_isPlain hspliced.1
      rw [h.node, h.plain]
      rfl
  · exact List.flatMap_singleton ..

/-- A repetition says the same on a plain part as on a node above it. -/
theorem withRepetition (h : ReadOff own read) {part : Expr α} (hplain : part.isPlain = true)
    (r : Repetition) : read (part.withRepetition r) = own { repetition := r } ++ read part := by
  cases part with
  | leaf m t =>
    obtain rfl : m = {} := marks_eq_of_isPlain hplain
    exact h.leaf ..
  | node m join parts =>
    obtain rfl : m = {} := marks_eq_of_isPlain hplain
    rw [h.node, h.plain]
    exact h.node ..

theorem rejoin (h : ReadOff own read) (m : Marks) (join : Join) (parts : List (Expr α)) :
    read (rejoin m join parts) = own m ++ parts.flatMap read := by
  unfold Expr.rejoin
  split
  · rename_i part
    rw [List.flatMap_singleton]
    have hnode : read (.node m join [part]) = own m ++ read part :=
      (h.node m join [part]).trans (by rw [List.flatMap_singleton])
    split
    · exact hnode
    · rename_i hfree
      -- what is left of the marks is a repetition
      obtain ⟨name, r, grouped⟩ := m
      obtain ⟨rfl, rfl⟩ : grouped = false ∧ name = none := by simpa using hfree
      split
      · rename_i honce
        obtain rfl : r = .once := honce
        exact (congrArg (· ++ read part) h.plain).symm
      · split
        · rename_i hplain
          exact h.withRepetition hplain r
        · exact hnode
  · exact h.node ..

mutual

/-- Simplifying changes nothing that is read off an expression. -/
theorem simplify (h : ReadOff own read) : ∀ e : Expr α, read (simplify e) = read e
  | .leaf m t => rfl
  | .node m join parts => by
    rw [Expr.simplify, h.rejoin, h.node, List.flatMap_assoc]
    simp only [h.flatMap_spliceInto]
    rw [simplifyParts h parts]

theorem simplifyParts (h : ReadOff own read) : ∀ parts : List (Expr α),
    (simplifyParts parts).flatMap read = parts.flatMap read
  | [] => rfl
  | part :: rest => by
    rw [Expr.simplifyParts, List.flatMap_cons, List.flatMap_cons, simplify h part,
      simplifyParts h rest]

end

end ReadOff

/-- Simplifying keeps the terminals in their order. -/
theorem terminals_simplify (e : Expr α) : terminals (simplify e) = terminals e := by
  have hread : ReadOff (fun _ => []) (terminals (α := α)) :=
    ⟨fun _ _ => rfl, terminals_node, rfl⟩
  exact hread.simplify e

/-- Simplifying keeps the marks that say anything, and their order. -/
theorem marked_simplify (e : Expr α) : marked (simplify e) = marked e := by
  have hread : ReadOff (fun m => [m].filter (· ≠ {})) (marked (α := α)) := by
    refine ⟨fun m t => (List.append_nil _).symm, fun m join parts => ?_, rfl⟩
    rw [marked, markings_node, ← List.singleton_append, List.filter_append, List.filter_flatMap]
    rfl
  exact hread.simplify e

theorem mem_repetitions_iff {r : Repetition} (hr : r ≠ .once) {e : Expr α} :
    r ∈ repetitions e ↔ ∃ m ∈ marked e, m.repetition = r := by
  rw [repetitions_eq_map, List.mem_map]
  refine exists_congr fun m => and_congr_left fun hm => ?_
  have hsays : m ≠ {} := fun h => hr (by rw [← hm, h])
  rw [marked, List.mem_filter, and_iff_left (decide_eq_true hsays)]

/-- Simplifying keeps all repetitions but those that say nothing. -/
theorem mem_repetitions_simplify {r : Repetition} (hr : r ≠ .once) (e : Expr α) :
    r ∈ repetitions (simplify e) ↔ r ∈ repetitions e := by
  rw [mem_repetitions_iff hr, mem_repetitions_iff hr, marked_simplify]

/-! ## Expressions of the same shape -/

variable {related : α → β → Prop}

mutual

theorem Related.forall₂_terminals : ∀ (a : Expr α) (b : Expr β), Related related a b →
    List.Forall₂ related (terminals a) (terminals b)
  | .leaf m s, _, h => by
    cases h with
    | leaf _ hst => exact .cons hst .nil
  | .node m join as, _, h => by
    cases h with
    | node _ _ hall => exact Related.forall₂_terminalsOfParts as _ hall

theorem Related.forall₂_terminalsOfParts : ∀ (as : List (Expr α)) (bs : List (Expr β)),
    List.Forall₂ (Related related) as bs →
      List.Forall₂ related (terminalsOfParts as) (terminalsOfParts bs)
  | [], _, h => by
    cases h
    exact .nil
  | a :: as, _, h => by
    cases h with
    | cons hab hrest =>
      exact List.rel_append (Related.forall₂_terminals a _ hab)
        (Related.forall₂_terminalsOfParts as _ hrest)

end

mutual

theorem Related.markings_eq : ∀ (a : Expr α) (b : Expr β), Related related a b →
    markings b = markings a
  | .leaf m s, _, h => by
    cases h
    rfl
  | .node m join as, _, h => by
    cases h with
    | node _ _ hall => rw [markings, markings, Related.markingsOfParts_eq as _ hall]

theorem Related.markingsOfParts_eq : ∀ (as : List (Expr α)) (bs : List (Expr β)),
    List.Forall₂ (Related related) as bs → markingsOfParts bs = markingsOfParts as
  | [], _, h => by
    cases h
    rfl
  | a :: as, _, h => by
    cases h with
    | cons hab hrest =>
      rw [markingsOfParts, markingsOfParts, Related.markings_eq a _ hab,
        Related.markingsOfParts_eq as _ hrest]

end

theorem Related.repetitions_eq {a : Expr α} {b : Expr β} (h : Related related a b) :
    repetitions b = repetitions a := by
  rw [repetitions_eq_map, repetitions_eq_map, Related.markings_eq a b h]

end LexChart.Expr
