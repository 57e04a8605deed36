import LexChart.Expr.Basic
set_option autoImplicit false

/-!
# Simplified expressions

`Expr.simplify` removes nodes that mean nothing: a plain part that joins in the same way as its
parent gives way to its own parts, and a node with one part gives way to that part.  Names,
explicit groups and repetitions are never lost, so a named node or a group is kept as it is, and a
repetition moves to the only part below it where that part carries none of its own.

Sequences and choices written with `andThen` and `orElse` come out simplified.
-/

namespace LexChart.Expr

variable {α : Type}

/-- A simplified part as it stands among the parts of a node: a plain one that joins in the same way
is replaced by its parts. -/
def spliceInto (join : Join) (part : Expr α) : List (Expr α) :=
  if part.isPlain ∧ part.join? = some join then part.parts else [part]

/-- The node of simplified parts, without the node itself where it has no meaning. -/
def rejoin (m : Marks) (join : Join) (parts : List (Expr α)) : Expr α :=
  match parts with
  | [part] =>
    if m.grouped || m.name.isSome then .node m join [part]
    else if m.repetition = .once then part
    else if part.isPlain then part.withRepetition m.repetition
    else .node m join [part]
  | parts => .node m join parts

mutual

/-- The expression without nodes that mean nothing. -/
def simplify : Expr α → Expr α
  | .leaf m t => .leaf m t
  | .node m join parts => rejoin m join ((simplifyParts parts).flatMap (spliceInto join))

/-- `simplify` of every part. -/
def simplifyParts : List (Expr α) → List (Expr α)
  | [] => []
  | part :: rest => simplify part :: simplifyParts rest

end

theorem simplifyParts_eq_map (parts : List (Expr α)) :
    simplifyParts parts = parts.map simplify := by
  induction parts with
  | nil => rfl
  | cons part rest ih => rw [simplifyParts, ih, List.map_cons]

/-- One expression after the other. -/
def andThen (a b : Expr α) : Expr α := simplify (sequence [a, b])

/-- Either of two expressions. -/
def orElse (a b : Expr α) : Expr α := simplify (choice [a, b])

end LexChart.Expr
