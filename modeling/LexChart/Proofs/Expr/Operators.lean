import LexChart.Proofs.Expr.Simplified
set_option autoImplicit false

/-!
# Expressions written with operators

Among the parts of a node a simplified expression stands as a list of parts: its own parts, if it is
plain and joins in the same way as the node, and itself otherwise.  `contribution` is that list.  No
part of it could be spliced again, so a plain node gives back the list that it was rejoined from,
and a simplified expression is what its contribution is rejoined to.

An operator joins two expressions by a plain node and simplifies it, so it appends contributions.
That makes it associative, with the plain node of no parts as its unit, whatever names, groups and
repetitions the operands carry: marks decide what an operand contributes, and nothing else.
-/

namespace LexChart.Expr

variable {α : Type}

/-! ## Flat lists of parts -/

/-- The parts are simplified, and none of them could be spliced into a node that joins them. -/
def IsFlat (join : Join) (parts : List (Expr α)) : Prop :=
  ∀ part ∈ parts, IsNormal part ∧ (part.isPlain = true → part.join? ≠ some join)

theorem IsNormal.isFlat_spliceInto {e : Expr α} (h : IsNormal e) (join : Join) :
    IsFlat join (spliceInto join e) :=
  fun _ hpart => h.of_mem_spliceInto hpart

/-- A plain node with one part is that part. -/
theorem rejoin_plain_singleton (join : Join) (part : Expr α) : rejoin {} join [part] = part := by
  simp [rejoin, Repetition.once]

/-- A plain node without exactly one part is kept. -/
theorem rejoin_plain_of_length_ne {join : Join} {parts : List (Expr α)} (h : parts.length ≠ 1) :
    rejoin {} join parts = .node {} join parts :=
  rejoin_eq_node fun _ hpart => absurd (congrArg List.length hpart) h

/-- Splicing takes a plain node apart again. -/
theorem spliceInto_rejoin {join : Join} {parts : List (Expr α)} (h : IsFlat join parts) :
    spliceInto join (rejoin {} join parts) = parts := by
  by_cases hlength : parts.length = 1
  · obtain ⟨part, rfl⟩ := List.length_eq_one_iff.1 hlength
    rw [rejoin_plain_singleton]
    exact spliceInto_eq_singleton (h part (List.mem_singleton_self part)).2
  · rw [rejoin_plain_of_length_ne hlength]
    simp [spliceInto, isPlain, marks, join?, Expr.parts]

/-- A simplified expression is rejoined from what stands for it. -/
theorem IsNormal.rejoin_spliceInto {e : Expr α} (h : IsNormal e) (join : Join) :
    rejoin {} join (spliceInto join e) = e := by
  by_cases hspliced : e.isPlain = true ∧ e.join? = some join
  · cases h with
    | leaf m t => exact nomatch hspliced.2
    | node m join' parts normal apart only =>
      obtain rfl : join' = join := Option.some.inj hspliced.2
      obtain rfl : m = {} := marks_eq_of_isPlain hspliced.1
      rw [spliceInto, if_pos hspliced]
      exact rejoin_eq_node only
  · rw [spliceInto, if_neg hspliced, rejoin_plain_singleton]

/-! ## Contributions -/

/-- What stands for an expression, once simplified, among the parts of a node. -/
def contribution (join : Join) (e : Expr α) : List (Expr α) := spliceInto join (simplify e)

theorem isFlat_contribution (join : Join) (e : Expr α) : IsFlat join (contribution join e) :=
  (isNormal_simplify e).isFlat_spliceInto join

/-- An expression is simplified by rejoining its contribution to a node of either kind. -/
theorem rejoin_contribution (join : Join) (e : Expr α) :
    rejoin {} join (contribution join e) = simplify e :=
  (isNormal_simplify e).rejoin_spliceInto join

theorem simplify_node (m : Marks) (join : Join) (parts : List (Expr α)) :
    simplify (.node m join parts) = rejoin m join (parts.flatMap (contribution join)) := by
  rw [simplify, simplifyParts_eq_map, List.flatMap_map]
  rfl

theorem isFlat_flatMap_contribution (join : Join) (parts : List (Expr α)) :
    IsFlat join (parts.flatMap (contribution join)) := by
  intro part hpart
  obtain ⟨whole, -, hpart⟩ := List.mem_flatMap.1 hpart
  exact isFlat_contribution join whole part hpart

/-- A plain node contributes what its parts do. -/
theorem contribution_node (join : Join) (parts : List (Expr α)) :
    contribution join (.node {} join parts) = parts.flatMap (contribution join) := by
  rw [contribution, simplify_node, spliceInto_rejoin (isFlat_flatMap_contribution join parts)]

/-- There is nothing more to simplify in what is simplified already. -/
theorem contribution_simplify (join : Join) (e : Expr α) :
    contribution join (simplify e) = contribution join e := by
  rw [contribution, (isNormal_simplify e).simplify_eq, contribution]

/-! ## Joining two expressions -/

/-- The operator that joins two expressions by a plain node. -/
def joined (join : Join) (a b : Expr α) : Expr α := simplify (.node {} join [a, b])

theorem andThen_eq_joined (a b : Expr α) : andThen a b = joined .sequence a b := rfl

theorem orElse_eq_joined (a b : Expr α) : orElse a b = joined .choice a b := rfl

/-- The joined expressions contribute what both do, one after the other. -/
theorem contribution_joined (join : Join) (a b : Expr α) :
    contribution join (joined join a b) = contribution join a ++ contribution join b := by
  rw [joined, contribution_simplify, contribution_node]
  simp

theorem joined_eq_rejoin (join : Join) (a b : Expr α) :
    joined join a b = rejoin {} join (contribution join a ++ contribution join b) := by
  rw [joined, simplify_node]
  simp

theorem joined_assoc (join : Join) (a b c : Expr α) :
    joined join (joined join a b) c = joined join a (joined join b c) := by
  calc joined join (joined join a b) c
      = rejoin {} join ((contribution join a ++ contribution join b) ++ contribution join c) := by
        rw [joined_eq_rejoin, contribution_joined]
    _ = rejoin {} join (contribution join a ++ (contribution join b ++ contribution join c)) := by
        rw [List.append_assoc]
    _ = joined join a (joined join b c) := by rw [joined_eq_rejoin, contribution_joined]

theorem joined_nil (join : Join) (a : Expr α) : joined join a (.node {} join []) = simplify a := by
  rw [joined_eq_rejoin, contribution_node, List.flatMap_nil, List.append_nil, rejoin_contribution]

theorem nil_joined (join : Join) (a : Expr α) : joined join (.node {} join []) a = simplify a := by
  rw [joined_eq_rejoin, contribution_node, List.flatMap_nil, List.nil_append, rejoin_contribution]

/-! ## Sequences and choices -/

section

variable {σ : Type} {terminal : α → Language σ}

theorem language_joined (join : Join) (a b : Expr α) :
    language terminal (joined join a b) =
      join.language [language terminal a, language terminal b] := by
  rw [joined, language_simplify, language_node, Repetition.language_once]
  rfl

theorem language_andThen (a b : Expr α) :
    language terminal (andThen a b) = language terminal a * language terminal b := by
  rw [andThen_eq_joined, language_joined]
  simp [Join.language]

theorem language_orElse (a b : Expr α) :
    language terminal (orElse a b) = language terminal a + language terminal b := by
  rw [orElse_eq_joined, language_joined]
  simp [Join.language]

end

/-- Expressions under either operator form a monoid up to simplification: sequences with the
sequence of nothing, choices with the choice of nothing.  The operators stand for the product and
the sum of languages. -/
theorem operators_form_monoids (a b c : Expr α) :
    andThen (andThen a b) c = andThen a (andThen b c) ∧
    orElse (orElse a b) c = orElse a (orElse b c) ∧
    andThen a empty = simplify a ∧
    andThen empty a = simplify a ∧
    orElse a (choice []) = simplify a ∧
    orElse (choice []) a = simplify a ∧
    ∀ (σ : Type) (terminal : α → Language σ),
      language terminal (andThen a b) = language terminal a * language terminal b ∧
      language terminal (orElse a b) = language terminal a + language terminal b :=
  ⟨joined_assoc .sequence a b c, joined_assoc .choice a b c, joined_nil .sequence a,
    nil_joined .sequence a, joined_nil .choice a, nil_joined .choice a,
    fun _ _ => ⟨language_andThen a b, language_orElse a b⟩⟩

end LexChart.Expr
