import LexChart.Repetition
set_option autoImplicit false

/-!
# Expressions

The trees behind patterns and rule bodies: terminals joined by choice and by sequence.  Any node may
be repeated, named, or marked as an explicit group.

```text
a(bc)*|d     choice
             ├── sequence
             │   ├── terminal a
             │   └── sequence, any number of times, grouped
             │       ├── terminal b
             │       └── terminal c
             └── terminal d
```
-/

namespace LexChart

/-- What a node carries beside its shape. -/
structure Marks where
  name : Option String := none
  repetition : Repetition := .once
  /-- Written as a group of its own. -/
  grouped : Bool := false
  deriving DecidableEq

/-- How the parts of a node are joined. -/
inductive Join where
  /-- One of the parts. -/
  | choice
  /-- All parts, one after the other. -/
  | sequence
  deriving DecidableEq

/-- An expression over terminals of type `α`. -/
inductive Expr (α : Type) where
  | leaf (marks : Marks) (terminal : α)
  | node (marks : Marks) (join : Join) (parts : List (Expr α))

namespace Expr

variable {α : Type}

mutual

/-- Two expressions are equal if they are the same tree with the same marks. -/
protected def decEq [DecidableEq α] : (a b : Expr α) → Decidable (a = b)
  | .leaf m s, .leaf n t =>
    if h : m = n ∧ s = t then isTrue (by rw [h.1, h.2])
    else isFalse (by intro e; injection e with h₁ h₂; exact h ⟨h₁, h₂⟩)
  | .leaf _ _, .node _ _ _ => isFalse (by intro e; cases e)
  | .node _ _ _, .leaf _ _ => isFalse (by intro e; cases e)
  | .node m j as, .node n k bs =>
    if h : m = n ∧ j = k then
      match Expr.decEqParts as bs with
      | isTrue e => isTrue (by rw [h.1, h.2, e])
      | isFalse e => isFalse (by intro f; injection f with _ _ g; exact e g)
    else isFalse (by intro e; injection e with h₁ h₂ _; exact h ⟨h₁, h₂⟩)

/-- Equality of the parts of two nodes. -/
protected def decEqParts [DecidableEq α] : (as bs : List (Expr α)) → Decidable (as = bs)
  | [], [] => isTrue rfl
  | [], _ :: _ => isFalse (by intro e; cases e)
  | _ :: _, [] => isFalse (by intro e; cases e)
  | a :: as, b :: bs =>
    match Expr.decEq a b, Expr.decEqParts as bs with
    | isTrue e, isTrue f => isTrue (by rw [e, f])
    | isFalse e, _ => isFalse (by intro g; injection g with h _; exact e h)
    | _, isFalse f => isFalse (by intro g; injection g with _ h; exact f h)

end

instance [DecidableEq α] : DecidableEq (Expr α) := Expr.decEq

/-- An unmarked terminal. -/
def terminal (t : α) : Expr α := .leaf {} t

/-- An unmarked choice. -/
def choice (parts : List (Expr α)) : Expr α := .node {} .choice parts

/-- An unmarked sequence. -/
def sequence (parts : List (Expr α)) : Expr α := .node {} .sequence parts

/-- The sequence of nothing. -/
def empty : Expr α := sequence []

/-- The marks of the root. -/
def marks : Expr α → Marks
  | .leaf m _ => m
  | .node m _ _ => m

/-- The same tree with the marks of the root changed. -/
def mapMarks (f : Marks → Marks) : Expr α → Expr α
  | .leaf m t => .leaf (f m) t
  | .node m j parts => .node (f m) j parts

/-- The name of the root. -/
def name (e : Expr α) : Option String := e.marks.name

/-- The repetition of the root. -/
def repetition (e : Expr α) : Repetition := e.marks.repetition

/-- The root is an explicit group. -/
def isGrouped (e : Expr α) : Bool := e.marks.grouped

/-- The same expression under a name. -/
def withName (e : Expr α) (name : String) : Expr α :=
  e.mapMarks fun m => { m with name := some name }

/-- The same expression under another repetition. -/
def withRepetition (e : Expr α) (r : Repetition) : Expr α :=
  e.mapMarks fun m => { m with repetition := r }

/-- The same expression as an explicit group. -/
def group (e : Expr α) : Expr α :=
  e.mapMarks fun m => { m with grouped := true }

/-- The expression repeated.  One that is repeated already becomes the only part of a sequence, so
that both repetitions count. -/
def repeated (e : Expr α) (r : Repetition) : Expr α :=
  if e.repetition = .once then e.withRepetition r else (sequence [e]).withRepetition r

/-- The parts of the root. -/
def parts : Expr α → List (Expr α)
  | .leaf _ _ => []
  | .node _ _ parts => parts

/-- How the root joins its parts, if it is no terminal. -/
def join? : Expr α → Option Join
  | .leaf _ _ => none
  | .node _ join _ => some join

/-- The terminal, if the root is one. -/
def terminal? : Expr α → Option α
  | .leaf _ t => some t
  | .node _ _ _ => none

/-- The sequence of nothing, exactly once. -/
def isEmpty (e : Expr α) : Bool :=
  e.join? = some .sequence && e.parts.isEmpty && e.repetition = .once

/-- The root carries nothing that would be lost if its parts stood in its place. -/
def isPlain (e : Expr α) : Bool := e.marks = {}

mutual

/-- The repetitions of all nodes. -/
def repetitions : Expr α → List Repetition
  | .leaf m _ => [m.repetition]
  | .node m _ parts => m.repetition :: repetitionsOfParts parts

/-- The repetitions of all nodes of all parts. -/
def repetitionsOfParts : List (Expr α) → List Repetition
  | [] => []
  | part :: rest => repetitions part ++ repetitionsOfParts rest

end

end Expr

end LexChart
