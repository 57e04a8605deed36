import LexChart.Expr.Basic
set_option autoImplicit false

/-!
# The terminals of an expression

Terminals are visited depth first, from left to right.  `Expr.terminals` lists them in that order;
`Expr.mapTerminals` replaces each by the result of an action, runs the actions in that order, and
keeps every node and mark as it is.
-/

namespace LexChart.Expr

variable {α β : Type}

mutual

/-- The terminals from left to right. -/
def terminals : Expr α → List α
  | .leaf _ t => [t]
  | .node _ _ parts => terminalsOfParts parts

/-- The terminals of all parts. -/
def terminalsOfParts : List (Expr α) → List α
  | [] => []
  | part :: rest => terminals part ++ terminalsOfParts rest

end

theorem terminalsOfParts_eq_flatMap (parts : List (Expr α)) :
    terminalsOfParts parts = parts.flatMap terminals := by
  induction parts with
  | nil => rfl
  | cons part rest ih => rw [terminalsOfParts, ih, List.flatMap_cons]

mutual

/-- The same tree over the results of an action on each terminal, run from left to right. -/
def mapTerminals {m : Type → Type} [Monad m] (f : α → m β) : Expr α → m (Expr β)
  | .leaf marks t => do
    let t ← f t
    pure (.leaf marks t)
  | .node marks join parts => do
    let parts ← mapTerminalsOfParts f parts
    pure (.node marks join parts)

/-- `mapTerminals` on all parts. -/
def mapTerminalsOfParts {m : Type → Type} [Monad m] (f : α → m β) :
    List (Expr α) → m (List (Expr β))
  | [] => pure []
  | part :: rest => do
    let part ← mapTerminals f part
    let rest ← mapTerminalsOfParts f rest
    pure (part :: rest)

end

end LexChart.Expr
