import LexChart.Expr.Normal
import LexChart.Proofs.Expr.Terminals
set_option autoImplicit false

/-!
# Simplified expressions are normal

What `simplify` gives is normal, whatever it is given.  Parts that are spliced in come from a normal
node that joins in the same way, so none of them could be spliced in turn; a part that takes the
place of its node is normal already; and a repetition only moves to a plain part, which has no
single part of its own.

Named expressions and groups are the ones that nothing may remove.  `kept` lists them, and the list
of a simplified expression is the list of the expression itself, each of them simplified.
-/

namespace LexChart

/-- A name or a group, which simplifying never removes. -/
def Marks.isKept (m : Marks) : Bool := m.grouped || m.name.isSome

namespace Expr

variable {α : Type}

/-! ## Normal form -/

/-- What stands for a normal part among the parts of a node is normal and stays there. -/
theorem IsNormal.of_mem_spliceInto {join : Join} {part part' : Expr α} (h : IsNormal part)
    (hmem : part' ∈ spliceInto join part) :
    IsNormal part' ∧ (part'.isPlain = true → part'.join? ≠ some join) := by
  unfold spliceInto at hmem
  split at hmem
  · rename_i hspliced
    cases h with
    | leaf m t => exact nomatch hmem
    | node m join' parts normal apart only =>
      obtain rfl : join' = join := Option.some.inj hspliced.2
      exact ⟨normal part' hmem, apart part' hmem⟩
  · rename_i hstays
    rw [List.mem_singleton.1 hmem]
    exact ⟨h, fun hplain hjoin => hstays ⟨hplain, hjoin⟩⟩

/-- A plain normal expression does not have exactly one part, so that it may take over any
repetition. -/
theorem IsNormal.withRepetition {e : Expr α} (h : IsNormal e) (hplain : e.isPlain = true)
    (r : Repetition) : IsNormal (e.withRepetition r) := by
  cases h with
  | leaf m t => exact .leaf _ t
  | node m join parts normal apart only =>
    obtain rfl : m = {} := marks_eq_of_isPlain hplain
    refine .node _ join parts normal apart fun part hpart => ?_
    rcases only part hpart with hgrouped | hnamed | ⟨hrepeats, -⟩
    · cases hgrouped
    · cases hnamed
    · exact absurd rfl hrepeats

/-- Normal parts that stay among the parts of a node make a normal expression. -/
theorem isNormal_rejoin {m : Marks} {join : Join} {parts : List (Expr α)}
    (h : ∀ part ∈ parts, IsNormal part ∧ (part.isPlain = true → part.join? ≠ some join)) :
    IsNormal (rejoin m join parts) := by
  have hnode : (∀ part, parts = [part] → KeepsOnlyPart m part) →
      IsNormal (.node m join parts) :=
    .node m join parts (fun part hpart => (h part hpart).1) fun part hpart => (h part hpart).2
  unfold rejoin
  split
  · rename_i part
    obtain ⟨normal, -⟩ := h part (List.mem_singleton_self part)
    split
    · rename_i hkept
      refine hnode fun _ _ => ?_
      rcases Bool.or_eq_true_iff.1 hkept with hgrouped | hnamed
      · exact .inl hgrouped
      · exact .inr (.inl hnamed)
    · split
      · exact normal
      · rename_i hrepeats
        split
        · rename_i hplain
          exact normal.withRepetition hplain m.repetition
        · rename_i hmarked
          refine hnode fun part' hpart => .inr (.inr ⟨hrepeats, ?_⟩)
          rw [← (List.cons.inj hpart).1]
          exact Bool.not_eq_true _ ▸ hmarked
  · rename_i hseveral
    exact hnode fun part hpart => absurd hpart (hseveral part)

mutual

theorem isNormal_simplify : ∀ e : Expr α, IsNormal (simplify e)
  | .leaf m t => .leaf m t
  | .node m join parts => by
    rw [simplify]
    refine isNormal_rejoin fun part hpart => ?_
    obtain ⟨whole, hwhole, hpart⟩ := List.mem_flatMap.1 hpart
    exact (isNormal_simplifyParts parts whole hwhole).of_mem_spliceInto hpart

theorem isNormal_simplifyParts : ∀ parts : List (Expr α), ∀ part ∈ simplifyParts parts,
    IsNormal part
  | [] => fun _ hpart => nomatch hpart
  | part :: rest =>
    List.forall_mem_cons.2 ⟨isNormal_simplify part, isNormal_simplifyParts rest⟩

end

/-- There is nothing to simplify in a normal expression. -/
theorem IsNormal.simplify_eq {e : Expr α} (h : IsNormal e) : simplify e = e := by
  induction h with
  | leaf m t => rfl
  | node m join parts _ apart only ih =>
    have hparts : simplifyParts parts = parts := by
      rw [simplifyParts_eq_map]
      exact (List.map_congr_left ih).trans (List.map_id parts)
    have hsplice : parts.flatMap (spliceInto join) = parts := by
      rw [List.flatMap_congr fun part hpart => spliceInto_eq_singleton (apart part hpart)]
      exact List.flatMap_singleton' parts
    rw [simplify, hparts, hsplice, rejoin_eq_node only]

/-! ## Names and groups -/

mutual

/-- The named expressions and the groups within an expression, each in front of those inside it. -/
def kept : Expr α → List (Expr α)
  | .leaf m t => if m.isKept then [.leaf m t] else []
  | .node m join parts => (if m.isKept then [.node m join parts] else []) ++ keptOfParts parts

/-- The named expressions and the groups within all parts. -/
def keptOfParts : List (Expr α) → List (Expr α)
  | [] => []
  | part :: rest => kept part ++ keptOfParts rest

end

theorem keptOfParts_eq_flatMap (parts : List (Expr α)) :
    keptOfParts parts = parts.flatMap kept := by
  induction parts with
  | nil => rfl
  | cons part rest ih => rw [keptOfParts, ih, List.flatMap_cons]

theorem kept_node (m : Marks) (join : Join) (parts : List (Expr α)) :
    kept (.node m join parts) =
      (if m.isKept then [.node m join parts] else []) ++ parts.flatMap kept := by
  rw [kept, keptOfParts_eq_flatMap]

theorem kept_node_of_not_isKept {m : Marks} (h : m.isKept = false) (join : Join)
    (parts : List (Expr α)) : kept (.node m join parts) = parts.flatMap kept := by
  rw [kept_node, h]
  rfl

theorem kept_spliceInto (join : Join) (part : Expr α) :
    (spliceInto join part).flatMap kept = kept part := by
  unfold spliceInto
  split
  · rename_i h
    cases part with
    | leaf m t => exact nomatch h.2
    | node m join' parts =>
      obtain rfl : m = {} := marks_eq_of_isPlain h.1
      exact (kept_node_of_not_isKept rfl join' parts).symm
  · exact List.flatMap_singleton ..

theorem kept_withRepetition {e : Expr α} (h : e.isPlain = true) (r : Repetition) :
    kept (e.withRepetition r) = kept e := by
  cases e with
  | leaf m t =>
    obtain rfl : m = {} := marks_eq_of_isPlain h
    rfl
  | node m join parts =>
    obtain rfl : m = {} := marks_eq_of_isPlain h
    exact (kept_node_of_not_isKept rfl join parts).trans
      (kept_node_of_not_isKept rfl join parts).symm

/-- A node with a name or of a group is never left out. -/
theorem rejoin_of_isKept {m : Marks} (h : m.isKept = true) (join : Join)
    (parts : List (Expr α)) : rejoin m join parts = .node m join parts := by
  refine rejoin_eq_node fun part _ => ?_
  rcases Bool.or_eq_true_iff.1 h with hgrouped | hnamed
  · exact .inl hgrouped
  · exact .inr (.inl hnamed)

/-- Leaving out a node loses none of those within its parts. -/
theorem kept_rejoin_of_not_isKept {m : Marks} (h : m.isKept = false) (join : Join)
    (parts : List (Expr α)) : kept (rejoin m join parts) = parts.flatMap kept := by
  unfold rejoin
  split
  · rename_i part
    rw [if_neg (by rw [show (m.grouped || m.name.isSome) = false from h]; exact Bool.false_ne_true),
      List.flatMap_singleton]
    split
    · rfl
    · split
      · rename_i hplain
        exact kept_withRepetition hplain m.repetition
      · rw [kept_node_of_not_isKept h, List.flatMap_singleton]
  · exact kept_node_of_not_isKept h join parts

theorem kept_rejoin (m : Marks) (join : Join) (parts : List (Expr α)) :
    kept (rejoin m join parts) =
      (if m.isKept then [rejoin m join parts] else []) ++ parts.flatMap kept := by
  cases h : m.isKept with
  | true =>
    rw [rejoin_of_isKept h, kept_node, h]
  | false => exact kept_rejoin_of_not_isKept h join parts

mutual

/-- The named expressions and the groups are simplified where they stand. -/
theorem kept_simplify : ∀ e : Expr α, kept (simplify e) = (kept e).map simplify
  | .leaf m t => by
    cases h : m.isKept <;> simp [simplify, kept, h]
  | .node m join parts => by
    have hparts : ((simplifyParts parts).flatMap (spliceInto join)).flatMap kept =
        (parts.flatMap kept).map simplify := by
      rw [List.flatMap_assoc]
      simp only [kept_spliceInto]
      exact flatMap_kept_simplifyParts parts
    have hsimplify : rejoin m join ((simplifyParts parts).flatMap (spliceInto join)) =
        simplify (.node m join parts) := by
      rw [simplify]
    rw [simplify, kept_rejoin, hparts, hsimplify, kept_node, List.map_append]
    cases m.isKept <;> rfl

theorem flatMap_kept_simplifyParts : ∀ parts : List (Expr α),
    (simplifyParts parts).flatMap kept = (parts.flatMap kept).map simplify
  | [] => rfl
  | part :: rest => by
    rw [simplifyParts, List.flatMap_cons, List.flatMap_cons, List.map_append, kept_simplify part,
      flatMap_kept_simplifyParts rest]

end

mutual

theorem map_marks_kept : ∀ e : Expr α, (kept e).map marks = (markings e).filter Marks.isKept
  | .leaf m t => by
    rw [kept, markings, List.filter_singleton]
    cases m.isKept <;> rfl
  | .node m join parts => by
    rw [kept, markings, List.map_append, List.filter_cons, map_marks_keptOfParts parts]
    cases m.isKept <;> rfl

theorem map_marks_keptOfParts : ∀ parts : List (Expr α),
    (keptOfParts parts).map marks = (markingsOfParts parts).filter Marks.isKept
  | [] => rfl
  | part :: rest => by
    rw [keptOfParts, markingsOfParts, List.map_append, List.filter_append, map_marks_kept part,
      map_marks_keptOfParts rest]

end

/-- Marks with a name or of a group say something. -/
theorem filter_isKept_marked (e : Expr α) :
    (marked e).filter Marks.isKept = (markings e).filter Marks.isKept := by
  rw [marked, List.filter_filter]
  refine List.filter_congr fun m _ => Bool.and_eq_left_iff_imp.2 fun hkept => ?_
  refine decide_eq_true ?_
  rintro rfl
  cases hkept

/-- No name, no group and nothing that they carry is lost, and no other one appears. -/
theorem map_marks_kept_simplify (e : Expr α) :
    (kept (simplify e)).map marks = (kept e).map marks := by
  rw [map_marks_kept, map_marks_kept, ← filter_isKept_marked, ← filter_isKept_marked,
    marked_simplify]

/-- Simplifying gives an expression in normal form with the same words, the same terminals in the
same order, and the same names and groups around them, which are simplified in turn.  Simplifying
it again changes nothing. -/
theorem simplify_exact (e : Expr α) :
    (∀ (σ : Type) (terminal : α → Language σ),
      language terminal (simplify e) = language terminal e) ∧
    terminals (simplify e) = terminals e ∧
    kept (simplify e) = (kept e).map simplify ∧
    (kept (simplify e)).map marks = (kept e).map marks ∧
    IsNormal (simplify e) ∧
    simplify (simplify e) = simplify e :=
  ⟨fun _ _ => language_simplify e, terminals_simplify e, kept_simplify e,
    map_marks_kept_simplify e, isNormal_simplify e, (isNormal_simplify e).simplify_eq⟩

end Expr

end LexChart
