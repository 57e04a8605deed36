import LexChart.Expr.Language
import LexChart.Expr.Simplify
import LexChart.Expr.Terminals
import Mathlib.Algebra.BigOperators.Group.List.Basic
import Mathlib.Algebra.Order.Monoid.Unbundled.Pow
import Mathlib.Order.CompletePartialOrder
set_option autoImplicit false

/-!
# Languages of equal trees

Simplifying an expression keeps its language: a plain part that joins in the same way as its parent
contributes its own parts, and a node with one part is that part repeated.

Two expressions that differ in their terminals only, each terminal having the words of its
counterpart, have the same language.  Terminals with more words give an expression more words.
-/

namespace LexChart

variable {α β σ : Type}

/-- More words repeat to more words. -/
theorem Repetition.language_mono (r : Repetition) {l l' : Language σ} (h : l ≤ l') :
    r.language l ≤ r.language l' := by
  rintro w ⟨count, hcount, hw⟩
  exact ⟨count, hcount, pow_le_pow_left' h count hw⟩

/-- The words of parts joined by choice or sequence, given those of the parts. -/
def Join.language : Join → List (Language σ) → Language σ
  | .choice, ls => ls.sum
  | .sequence, ls => ls.prod

namespace Join

@[simp] theorem language_singleton (join : Join) (l : Language σ) : join.language [l] = l := by
  cases join <;> simp [language]

/-- Parts may be joined piece by piece. -/
theorem language_flatMap (join : Join) (f : α → List (Language σ)) (xs : List α) :
    join.language (xs.flatMap f) = join.language (xs.map fun x => join.language (f x)) := by
  induction xs with
  | nil => cases join <;> rfl
  | cons x xs ih => cases join <;> simp_all [language]

theorem language_mono (join : Join) {ls ls' : List (Language σ)}
    (h : List.Forall₂ (· ≤ ·) ls ls') : join.language ls ≤ join.language ls' := by
  induction h with
  | nil => exact le_refl _
  | cons hle _ ih =>
    cases join with
    | choice => exact add_le_add hle ih
    | sequence => exact mul_le_mul' hle ih

end Join

namespace Expr

variable {terminal : α → Language σ}

theorem languageOfParts_eq (join : Join) (parts : List (Expr α)) :
    languageOfParts terminal join parts = join.language (parts.map (language terminal)) := by
  cases join with
  | choice => exact languageOfParts_choice parts
  | sequence => exact languageOfParts_sequence parts

theorem language_node (m : Marks) (join : Join) (parts : List (Expr α)) :
    language terminal (.node m join parts) =
      m.repetition.language (join.language (parts.map (language terminal))) := by
  rw [language, languageOfParts_eq]

mutual

/-- Terminals with more words give an expression more words. -/
theorem language_mono {terminal' : α → Language σ} (h : ∀ t, terminal t ≤ terminal' t) :
    ∀ e : Expr α, language terminal e ≤ language terminal' e
  | .leaf m t => m.repetition.language_mono (h t)
  | .node m join parts => by
    rw [language_node, language_node]
    exact m.repetition.language_mono (join.language_mono (forall₂_language_mono h parts))

theorem forall₂_language_mono {terminal' : α → Language σ} (h : ∀ t, terminal t ≤ terminal' t) :
    ∀ parts : List (Expr α),
      List.Forall₂ (· ≤ ·) (parts.map (language terminal)) (parts.map (language terminal'))
  | [] => .nil
  | part :: rest => .cons (language_mono h part) (forall₂_language_mono h rest)

end

/-! ## Simplified expressions -/

/-- A part that is replaced by its own parts contributes their words. -/
theorem language_spliceInto (join : Join) (part : Expr α) :
    join.language ((spliceInto join part).map (language terminal)) = language terminal part := by
  unfold spliceInto
  split
  · rename_i h
    cases part with
    | leaf m t => exact absurd h.2 (by simp [join?])
    | node m join' parts =>
      obtain ⟨hplain, hjoin⟩ := h
      obtain rfl : m = {} := of_decide_eq_true hplain
      obtain rfl : join' = join := by simpa [join?] using hjoin
      rw [language_node]
      exact (Repetition.language_once _).symm
  · rw [List.map_singleton, Join.language_singleton]

theorem language_withRepetition {part : Expr α} (h : part.repetition = .once) (r : Repetition) :
    language terminal (part.withRepetition r) = r.language (language terminal part) := by
  cases part with
  | leaf m t =>
    have hm : m.repetition = .once := h
    show r.language (terminal t) = r.language (m.repetition.language (terminal t))
    rw [hm, Repetition.language_once]
  | node m join parts =>
    have hm : m.repetition = .once := h
    rw [language_node, hm, Repetition.language_once]
    exact language_node ..

/-- Repeating an expression repeats its words. -/
theorem language_repeated (e : Expr α) (r : Repetition) :
    language terminal (e.repeated r) = r.language (language terminal e) := by
  unfold repeated
  split
  · rename_i honce
    exact language_withRepetition honce r
  · show language terminal (.node { repetition := r } .sequence [e]) = _
    rw [language_node, List.map_singleton, Join.language_singleton]

/-- Leaving out a node with one part keeps the language. -/
theorem language_rejoin (m : Marks) (join : Join) (parts : List (Expr α)) :
    language terminal (rejoin m join parts) =
      m.repetition.language (join.language (parts.map (language terminal))) := by
  unfold rejoin
  split
  · rename_i part
    rw [List.map_singleton, Join.language_singleton]
    split
    · rw [language_node, List.map_singleton, Join.language_singleton]
    · split
      · rename_i honce
        rw [honce, Repetition.language_once]
      · split
        · rename_i hplain
          have hmarks : part.marks = {} := of_decide_eq_true hplain
          exact language_withRepetition (congrArg Marks.repetition hmarks) _
        · rw [language_node, List.map_singleton, Join.language_singleton]
  · exact language_node ..

mutual

/-- Simplifying keeps the language. -/
theorem language_simplify : ∀ e : Expr α, language terminal (simplify e) = language terminal e
  | .leaf m t => rfl
  | .node m join parts => by
    rw [simplify, language_rejoin, List.map_flatMap, Join.language_flatMap]
    simp only [language_spliceInto]
    rw [language_simplifyParts parts, language_node]

theorem language_simplifyParts : ∀ parts : List (Expr α),
    (simplifyParts parts).map (language terminal) = parts.map (language terminal)
  | [] => rfl
  | part :: rest => by
    rw [simplifyParts, List.map_cons, List.map_cons, language_simplify part,
      language_simplifyParts rest]

end

/-! ## Expressions of the same shape -/

/-- The two expressions are the same tree with the same marks, and their terminals are related. -/
inductive Related (r : α → β → Prop) : Expr α → Expr β → Prop where
  | leaf (m : Marks) {s : α} {t : β} : r s t → Related r (.leaf m s) (.leaf m t)
  | node (m : Marks) (join : Join) {as : List (Expr α)} {bs : List (Expr β)} :
      List.Forall₂ (Related r) as bs → Related r (.node m join as) (.node m join bs)

variable {r : α → β → Prop} {terminal' : β → Language σ}

mutual

/-- Expressions whose terminals have the same words have the same words. -/
theorem Related.language_eq (hr : ∀ s t, r s t → terminal s = terminal' t) :
    ∀ (a : Expr α) (b : Expr β), Related r a b → language terminal a = language terminal' b
  | .leaf m s, _, h => by
    cases h with
    | leaf _ hst => rw [language, language, hr _ _ hst]
  | .node m join as, _, h => by
    cases h with
    | node _ _ hall =>
      rw [language_node, language_node, Related.map_language_eq hr as _ hall]

theorem Related.map_language_eq (hr : ∀ s t, r s t → terminal s = terminal' t) :
    ∀ (as : List (Expr α)) (bs : List (Expr β)), List.Forall₂ (Related r) as bs →
      as.map (language terminal) = bs.map (language terminal')
  | [], _, h => by
    cases h
    rfl
  | a :: as, _, h => by
    cases h with
    | cons hab hrest =>
      rw [List.map_cons, List.map_cons, Related.language_eq hr a _ hab,
        Related.map_language_eq hr as _ hrest]

end

mutual

/-- A property of the right terminals that the relation entails holds of all of them. -/
theorem Related.forall_terminals {p : β → Prop} (hp : ∀ s t, r s t → p t) :
    ∀ (a : Expr α) (b : Expr β), Related r a b → ∀ t ∈ terminals b, p t
  | .leaf m s, _, h => by
    cases h with
    | leaf _ hst =>
      intro t ht
      rw [terminals, List.mem_singleton] at ht
      exact ht ▸ hp _ _ hst
  | .node m join as, _, h => by
    cases h with
    | node _ _ hall => exact Related.forall_terminalsOfParts hp as _ hall

theorem Related.forall_terminalsOfParts {p : β → Prop} (hp : ∀ s t, r s t → p t) :
    ∀ (as : List (Expr α)) (bs : List (Expr β)), List.Forall₂ (Related r) as bs →
      ∀ t ∈ terminalsOfParts bs, p t
  | [], _, h => by
    cases h
    exact fun t ht => nomatch ht
  | a :: as, _, h => by
    cases h with
    | cons hab hrest =>
      intro t ht
      rcases List.mem_append.1 ht with ht | ht
      · exact Related.forall_terminals hp a _ hab t ht
      · exact Related.forall_terminalsOfParts hp as _ hrest t ht

end

end Expr

end LexChart
