import LexChart.Expr.Simplify
set_option autoImplicit false

/-!
# Expressions in normal form

An expression is normal if no node of it could be removed: no plain part joins in the same way as
its parent, and no node with one part has a meaning that the part could not carry itself.

A terminal is normal, and so is every expression that `spliceInto` and `rejoin` leave alone.
-/

namespace LexChart.Expr

variable {α : Type}

/-- A node with one part is there for a reason: it is a group, it has a name, or it repeats a part
that carries marks of its own. -/
def KeepsOnlyPart (m : Marks) (part : Expr α) : Prop :=
  m.grouped = true ∨ m.name.isSome = true ∨ (m.repetition ≠ .once ∧ part.isPlain = false)

/-- No node could be removed. -/
inductive IsNormal : Expr α → Prop where
  | leaf (m : Marks) (t : α) : IsNormal (.leaf m t)
  | node (m : Marks) (join : Join) (parts : List (Expr α))
      (normal : ∀ part ∈ parts, IsNormal part)
      (apart : ∀ part ∈ parts, part.isPlain = true → part.join? ≠ some join)
      (only : ∀ part, parts = [part] → KeepsOnlyPart m part) : IsNormal (.node m join parts)

/-- A part that joins in another way, or carries marks, stands for itself. -/
theorem spliceInto_eq_singleton {join : Join} {part : Expr α}
    (h : part.isPlain = true → part.join? ≠ some join) : spliceInto join part = [part] := by
  unfold spliceInto
  exact if_neg fun ⟨plain, same⟩ => h plain same

/-- A node that is there for a reason is kept. -/
theorem rejoin_eq_node {m : Marks} {join : Join} {parts : List (Expr α)}
    (h : ∀ part, parts = [part] → KeepsOnlyPart m part) :
    rejoin m join parts = .node m join parts := by
  unfold rejoin
  split
  · rename_i part
    rcases h part rfl with h | h | ⟨hr, hp⟩
    · simp [h]
    · simp [h]
    · simp [hr, hp]
  · rfl

end LexChart.Expr
