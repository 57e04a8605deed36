import LexChart.Grammar.Basic
import Std.Data.HashSet
set_option autoImplicit false

/-!
# From rule bodies to productions

A rule body is an expression over symbols.  It is flattened into alternatives, the sequences of
symbols that become productions: a choice has the alternatives of its parts, a sequence all
combinations of them.  A repetition needs one symbol for what is repeated and, where it has no
limit, a list of them; both are rules generated for the purpose, named after the declared rule that
they serve.  A repetition that allows more items than any memory holds is a fault.

Nullable rules are found by adding to the rules that are marked already, round after round, every
rule with a production of rules that are known to be nullable.
-/

namespace LexChart.Grammar

/-- The rule whose body is flattened: its name, and the number of declared rules, after which
generated ones are numbered. -/
structure Owner where
  name : String
  declared : Nat

/-- The rules generated so far for all bodies, and how many of them serve the present one. -/
structure Generated where
  rules : Array Rule := #[]
  count : Nat := 0

/-- Actions that generate rules. -/
abbrev Flattening : Type → Type := StateM Generated

/-- Sequences of symbols. -/
abbrev Alternatives : Type := List (List Symbol)

/-- The productions of a rule. -/
def productionsOf (id : Nat) (alternatives : Alternatives) : List Production :=
  alternatives.map fun rhs => ⟨id, rhs⟩

/-- Generates a rule, given its alternatives by its own number. -/
def generate (owner : Owner) (alternatives : Nat → Alternatives) : Flattening Nat := fun g =>
  let id := owner.declared + g.rules.size
  let rule : Rule :=
    { id := id
      name := owner.name ++ "#" ++ toString g.count
      productions := productionsOf id (alternatives id)
      nullable := false
      generated := true }
  (id, ⟨g.rules.push rule, g.count + 1⟩)

/-- One symbol for some alternatives: the only symbol there is, or a generated rule. -/
def symbolFor (owner : Owner) : Alternatives → Flattening Symbol
  | [[symbol]] => pure symbol
  | alternatives => do
    let id ← generate owner fun _ => alternatives
    pure (.rule id)

/-- The alternatives of as many items as a repetition allows. -/
def repeatedItem (owner : Owner) (r : Repetition) (item : Symbol) : Flattening Alternatives :=
  match r.upper with
  | some most =>
    pure ((List.range' r.lower (most + 1 - r.lower)).map fun count => List.replicate count item)
  | none => do
    let list ← generate owner fun id => [[item], [.rule id, item]]
    if r.lower = 0 then pure [[], [.rule list]]
    else pure [List.replicate (r.lower - 1) item ++ [.rule list]]

/-- The alternatives of a repeated expression, given those of the expression itself. -/
def repeatedAlternatives (owner : Owner) (r : Repetition) (once : Flattening Alternatives) :
    Flattening Alternatives :=
  if r = .once then once
  else do
    let alternatives ← once
    let item ← symbolFor owner alternatives
    repeatedItem owner r item

/-- All ways to take one alternative of each part, one after the other. -/
def concatenations : List Alternatives → Alternatives
  | [] => [[]]
  | heads :: rest => heads.flatMap fun head => (concatenations rest).map fun tail => head ++ tail

/-- The alternatives of parts joined by choice or sequence. -/
def joinAlternatives : Join → List Alternatives → Alternatives
  | .choice => List.flatten
  | .sequence => concatenations

mutual

/-- The alternatives of an expression. -/
def alternatives (owner : Owner) : Expr Symbol → Flattening Alternatives
  | .leaf m symbol => repeatedAlternatives owner m.repetition (pure [[symbol]])
  | .node m join parts =>
    repeatedAlternatives owner m.repetition do
      let parts ← partAlternatives owner parts
      pure (joinAlternatives join parts)

/-- The alternatives of each part. -/
def partAlternatives (owner : Owner) : List (Expr Symbol) → Flattening (List Alternatives)
  | [] => pure []
  | part :: rest => do
    let first ← alternatives owner part
    let rest ← partAlternatives owner rest
    pure (first :: rest)

end

/-- Flattens the bodies of the declared rules from number `id` on.  Gives those rules and, after all
that were there before, the ones generated for them. -/
def flattenFrom (declared id : Nat) (generated : Array Rule) :
    List (String × Expr Symbol) → List Rule × Array Rule
  | [] => ([], generated)
  | (name, body) :: rest =>
    let (found, state) := (alternatives ⟨name, declared⟩ body).run ⟨generated, 0⟩
    let rule : Rule := ⟨id, name, productionsOf id found, false, false⟩
    let (rules, generated) := flattenFrom declared (id + 1) state.rules rest
    (rule :: rules, generated)

/-- The declared rules with their productions, and after them the generated ones. -/
def flatten (bodies : List (String × Expr Symbol)) : List Rule :=
  let (declared, generated) := flattenFrom bodies.length 0 #[] bodies
  declared ++ generated.toList

/-! ## Repetitions too large for a grammar -/

/-- The number of bytes a symbol takes in memory. -/
def symbolBytes : Nat := 16

/-- The number of bytes a list of symbols takes in memory, its symbols aside. -/
def sequenceBytes : Nat := 24

/-- The alternatives of a repetition, and each of them, fit in memory. -/
def checkRepetition (r : Repetition) : Except Fault Unit :=
  match r.upper with
  | some most => do
    checkSize (most + 1 - r.lower) sequenceBytes
    checkSize most symbolBytes
  | none => checkSize (r.lower - 1) symbolBytes

/-- All repetitions in the bodies can be flattened. -/
def checkBodies (bodies : List (String × Expr Symbol)) : Except Fault Unit :=
  (bodies.flatMap fun (_, body) => body.repetitions).forM checkRepetition

/-! ## Nullable rules -/

/-- All symbols of the production are rules of the set. -/
def Production.derivesFrom (known : Std.HashSet Nat) (p : Production) : Bool :=
  p.rhs.all fun
    | .lex _ => false
    | .rule id => id ∈ known

/-- Goes through the rules once, and adds the position of every rule with a production of rules that
are known to be nullable by then. -/
def nullableRound (rules : List Rule) (known : Std.HashSet Nat) : Std.HashSet Nat :=
  rules.zipIdx.foldl (fun known (rule, id) =>
    if id ∉ known ∧ rule.productions.any (Production.derivesFrom known) then known.insert id
    else known) known

/-- The rules found in `rounds` rounds, or fewer if one of them finds nothing new. -/
def nullableWithin (rules : List Rule) : Nat → Std.HashSet Nat → Std.HashSet Nat
  | 0, known => known
  | rounds + 1, known =>
    let count := known.size
    let found := nullableRound rules known
    if found.size = count then found else nullableWithin rules rounds found

/-- The positions of the rules that are marked as nullable before any round. -/
def markedRules (rules : List Rule) : Std.HashSet Nat :=
  .ofList ((rules.zipIdx.filter fun (rule, _) => rule.nullable).map Prod.snd)

/-- The positions of all nullable rules.  Every round but the last finds another one. -/
def nullables (rules : List Rule) : Std.HashSet Nat :=
  nullableWithin rules (rules.length + 1) (markedRules rules)

/-- The rules with the nullable ones marked.  A mark is never taken away. -/
def markNullable (rules : List Rule) : List Rule :=
  let found := nullables rules
  rules.zipIdx.map fun (rule, id) => { rule with nullable := id ∈ found }

end LexChart.Grammar
