import LexChart.Proofs.Grammar.Build
set_option autoImplicit false

/-!
# Marking nullable rules in place

The rules that are known to be nullable are kept as an array of marks, one for each rule, which a
round reads and sets as it goes over the rules: a rule that is marked counts at once for those
behind it.  A checked step breaks off where a symbol is no rule of the list, and the rounds where
they have reached their limit and the last one has still set a mark.

The rounds begin with the marks that the rules have, and never take one away.  Where the symbols are
in range, any limit above the number of rules lets the rounds end, and they end with the marks of
the library.
-/

namespace LexChart.Checked

open Grammar (addNullable nullableRound nullableWithin nullables markNullable markedRules
  NullableSound Vanishes DerivesMarked Marked)

/-- All symbols are marked rules.  They are looked at from the left, up to one that is not. -/
def allMarked (marks : Array Bool) : List Symbol → Option Bool
  | [] => some true
  | .lex _ :: _ => some false
  | .rule id :: rest => do
    let marked ← marks[id]?
    if marked then allMarked marks rest else some false

/-- Some production consists of marked rules.  They are looked at up to the first that does. -/
def anyMarked (marks : Array Bool) : List Production → Option Bool
  | [] => some false
  | p :: rest => do
    let found ← allMarked marks p.rhs
    if found then some true else anyMarked marks rest

/-- Marks the rule at a position, unless it is marked or none of its productions consists of marked
rules.  The marks come with whether one of them was set in this round. -/
def markRule (round : Array Bool × Bool) (rule : Rule × Nat) : Option (Array Bool × Bool) := do
  let marked ← round.1[rule.2]?
  if marked then some round
  else
    let found ← anyMarked round.1 rule.1.productions
    if found then some (round.1.setIfInBounds rule.2 true, true) else some round

/-- `Grammar.nullableRound` on an array of marks. -/
def markRound (rules : List Rule) (marks : Array Bool) : Option (Array Bool × Bool) :=
  rules.zipIdx.foldlM markRule (marks, false)

/-- `Grammar.nullableWithin` on an array of marks, which has to end before the limit. -/
def markRounds (rules : List Rule) : Nat → Array Bool → Option (Array Bool)
  | 0, _ => none
  | limit + 1, marks => do
    let (marks, changed) ← markRound rules marks
    if changed then markRounds rules limit marks else some marks

/-! ## Marks of a set -/

/-- The marks of the rules of a set, for the rules up to some number. -/
def marksOf (size : Nat) (known : Std.HashSet Nat) : Array Bool :=
  Array.ofFn fun id : Fin size => decide (id.val ∈ known)

section

variable {size : Nat} {known : Std.HashSet Nat}

theorem getElem?_marksOf {id : Nat} (h : id < size) :
    (marksOf size known)[id]? = some (decide (id ∈ known)) := by
  rw [marksOf, Array.getElem?_ofFn, dif_pos h]

theorem marksOf_insert (id : Nat) :
    (marksOf size known).setIfInBounds id true = marksOf size (known.insert id) := by
  refine Array.ext (by simp [marksOf]) fun k hk hk' => ?_
  rw [Array.getElem_setIfInBounds (by simpa [marksOf] using hk')]
  simp only [marksOf, Array.getElem_ofFn, Std.HashSet.mem_insert, beq_iff_eq]
  by_cases heq : id = k <;> simp [heq]

/-- Only the rules of the set matter. -/
theorem marksOf_congr {known' : Std.HashSet Nat} (h : ∀ id, id ∈ known ↔ id ∈ known') :
    marksOf size known = marksOf size known' := by
  unfold marksOf
  simp only [h]

/-- All calls in a production are in range. -/
def CallsWithin (size : Nat) (p : Production) : Prop := ∀ id, .rule id ∈ p.rhs → id < size

theorem allMarked_eq {p : Production} (h : CallsWithin size p) :
    allMarked (marksOf size known) p.rhs = some (Grammar.Production.derivesFrom known p) := by
  obtain ⟨lhs, rhs⟩ := p
  unfold CallsWithin at h
  unfold Grammar.Production.derivesFrom
  dsimp only at h ⊢
  induction rhs with
  | nil => rfl
  | cons s rest ih =>
    cases s with
    | lex id => rfl
    | rule id =>
      have hrest := ih fun id hid => h id (List.mem_cons_of_mem _ hid)
      rw [allMarked, getElem?_marksOf (h id List.mem_cons_self), List.all_cons]
      show (if decide (id ∈ known) = true then _ else _) = _
      by_cases hid : id ∈ known
      · rw [if_pos (decide_eq_true hid), hrest]
        simp [hid]
      · simp [hid]

theorem anyMarked_eq {productions : List Production} (h : ∀ p ∈ productions, CallsWithin size p) :
    anyMarked (marksOf size known) productions =
      some (productions.any (Grammar.Production.derivesFrom known)) := by
  induction productions with
  | nil => rfl
  | cons p rest ih =>
    obtain ⟨hp, hrest⟩ := List.forall_mem_cons.1 h
    rw [anyMarked, allMarked_eq hp, List.any_cons]
    show (if Grammar.Production.derivesFrom known p = true then _ else _) = _
    cases Grammar.Production.derivesFrom known p with
    | true => rfl
    | false => exact ih hrest

/-- Looking at one rule sets a mark exactly if the set grows. -/
theorem markRule_eq {rule : Rule × Nat} (hrule : rule.2 < size)
    (h : ∀ p ∈ rule.1.productions, CallsWithin size p) (changed : Bool) :
    markRule (marksOf size known, changed) rule =
      some (marksOf size (addNullable known rule),
        changed || decide (known.size < (addNullable known rule).size)) := by
  unfold markRule addNullable
  dsimp only
  rw [getElem?_marksOf hrule, anyMarked_eq h]
  show (if decide (rule.2 ∈ known) = true then _ else _) = _
  by_cases hknown : rule.2 ∈ known
  · simp [hknown]
  · rw [if_neg (by simpa using hknown)]
    show (if rule.1.productions.any _ = true then _ else _) = _
    cases rule.1.productions.any (Grammar.Production.derivesFrom known) with
    | true => simp [hknown, marksOf_insert, Std.HashSet.size_insert]
    | false => simp

/-- Going over rules sets a mark exactly if the set grows, since it never gets smaller. -/
theorem foldlM_markRule {list : List (Rule × Nat)}
    (h : ∀ rule ∈ list, rule.2 < size ∧ ∀ p ∈ rule.1.productions, CallsWithin size p)
    (changed : Bool) :
    list.foldlM markRule (marksOf size known, changed) =
      some (marksOf size (list.foldl addNullable known),
        changed || decide (known.size < (list.foldl addNullable known).size)) := by
  induction list generalizing known changed with
  | nil => simp
  | cons rule rest ih =>
    obtain ⟨⟨hrule, hcalls⟩, hrest⟩ := List.forall_mem_cons.1 h
    rw [List.foldlM_cons, markRule_eq hrule hcalls, Option.bind_eq_bind, Option.bind_some, ih hrest,
      List.foldl_cons]
    have hfirst := Grammar.size_le_foldl_addNullable [rule] known
    have hlast := Grammar.size_le_foldl_addNullable rest (addNullable known rule)
    rw [List.foldl_cons, List.foldl_nil] at hfirst
    rw [Bool.or_assoc, ← Bool.decide_or]
    congr 3
    exact decide_eq_decide.2 (by omega)

end

section

variable {rules : List Rule}

/-- All calls in the productions of the rules are in range. -/
def Ranged (rules : List Rule) : Prop :=
  ∀ r ∈ rules, ∀ p ∈ r.productions, CallsWithin rules.length p

theorem markRound_eq (h : Ranged rules) (known : Std.HashSet Nat) :
    markRound rules (marksOf rules.length known) =
      some (marksOf rules.length (nullableRound rules known),
        decide (known.size < (nullableRound rules known).size)) := by
  refine foldlM_markRule (fun rule hrule => ?_) false
  have hget := List.mem_zipIdx_iff_getElem?.1 hrule
  exact ⟨(List.getElem?_eq_some_iff.1 hget).1, h rule.1 (List.mem_of_getElem? hget)⟩

/-- Every round but the last sets a mark, so the rounds end before a limit that leaves one for each
unmarked rule and one more. -/
theorem markRounds_eq (h : Ranged rules) {limit : Nat} {known : Std.HashSet Nat}
    (hsound : NullableSound rules known) (hlimit : rules.length < limit + known.size) :
    markRounds rules limit (marksOf rules.length known) =
      some (marksOf rules.length (nullableWithin rules limit known)) := by
  induction limit generalizing known with
  | zero =>
    have := hsound.size_le
    omega
  | succ limit ih =>
    rw [markRounds, markRound_eq h, Option.bind_eq_bind, Option.bind_some, nullableWithin]
    dsimp only
    rcases Grammar.nullableRound_cases rules known with ⟨heq, -⟩ | hlt
    · simp [heq]
    · rw [if_pos (decide_eq_true hlt), if_neg (Nat.ne_of_gt hlt)]
      exact ih hsound.round (by omega)

/-- The marks of a set are those of the rules, where it has the rules that are marked. -/
theorem marksOf_eq {known : Std.HashSet Nat}
    (h : ∀ (id : Nat) (r : Rule), rules[id]? = some r → r.nullable = decide (id ∈ known)) :
    marksOf rules.length known = (rules.map Rule.nullable).toArray := by
  refine Array.ext (by simp [marksOf]) fun id hid _ => ?_
  have hlt : id < rules.length := by simpa [marksOf] using hid
  have hr := List.getElem?_eq_getElem hlt
  rw [← Option.some_inj, ← Array.getElem?_eq_getElem, ← Array.getElem?_eq_getElem,
    getElem?_marksOf hlt, List.getElem?_toArray, List.getElem?_map, hr, Option.map_some, h id _ hr]

theorem marksOf_markedRules (rules : List Rule) :
    marksOf rules.length (markedRules rules) = (rules.map Rule.nullable).toArray := by
  refine marksOf_eq fun id r hr => ?_
  rw [Bool.eq_iff_iff, decide_eq_true_iff, Grammar.mem_markedRules]
  simp [Marked, hr]

/-- The marks of the library are those of the rules that it finds. -/
theorem marksOf_nullables (rules : List Rule) : marksOf rules.length (nullables rules) =
    ((markNullable rules).map Rule.nullable).toArray := by
  rw [← Grammar.length_markNullable rules]
  refine marksOf_eq fun id r hr => ?_
  obtain ⟨-, -, -, -, hnullable⟩ := Grammar.getElem?_markNullable hr
  exact hnullable

theorem marked_markNullable_iff {id : Nat} :
    Marked (markNullable rules) id ↔ DerivesMarked rules id := by
  rw [← Grammar.mem_nullables_iff_derivesMarked]
  constructor
  · rintro ⟨r, hr, hmarked⟩
    obtain ⟨-, -, -, -, hnullable⟩ := Grammar.getElem?_markNullable hr
    exact of_decide_eq_true (hnullable.symm.trans hmarked)
  · intro hid
    have hlt := Grammar.lt_of_derivesMarked (Grammar.mem_nullables_iff_derivesMarked.1 hid)
    refine ⟨{ rules[id] with nullable := decide (id ∈ nullables rules) }, ?_, decide_eq_true hid⟩
    rw [Grammar.getElem?_markNullable_eq, List.getElem?_eq_getElem hlt, Option.map_some]

end

/-- Nullability is exact.  The rounds begin with the marks of the rules and end within any limit
above the number of rules, without a step that breaks off, with the marks of the library.  A rule
keeps all its data.  Where none is marked at first, a rule ends up marked exactly if it derives the
empty sequence; else exactly if it derives a sequence of rules that were marked, so that the marks
are exact just where those at first are right. -/
theorem nullability_exact {rules : List Rule} (ranged : Ranged rules) :
    (∀ limit, rules.length < limit →
      markRounds rules limit (rules.map Rule.nullable).toArray =
        some ((markNullable rules).map Rule.nullable).toArray) ∧
    (markNullable rules).length = rules.length ∧
    (∀ id r, rules[id]? = some r → ∃ nullable,
      (markNullable rules)[id]? = some { r with nullable := nullable } ∧
      ((∀ r ∈ rules, r.nullable = false) → (nullable = true ↔ Vanishes rules id)) ∧
      (nullable = true ↔ DerivesMarked rules id)) ∧
    ((∀ id, Marked (markNullable rules) id ↔ Vanishes rules id) ↔
      ∀ id, Marked rules id → Vanishes rules id) ∧
    ∀ g : Grammar, g.productions = rules.flatMap Rule.productions →
      (∀ (id : Nat) (r : Rule), rules[id]? = some r → ∀ p ∈ r.productions, p.lhs = id) →
      ∀ id, Vanishes rules id ↔ g.Generates id [] := by
  refine ⟨fun limit hlimit => ?_, Grammar.length_markNullable rules, fun id r hr => ?_,
    ⟨fun hexact id hid => ?_, fun hright id => ?_⟩,
    fun g hall hlhs id => Grammar.vanishes_iff_generates hlhs hall⟩
  · have hfound : ∀ id, id ∈ nullableWithin rules limit (markedRules rules) ↔
        id ∈ nullables rules := fun id =>
      (Grammar.mem_nullableWithin_iff hlimit).trans Grammar.mem_nullables_iff_derivesMarked.symm
    rw [← marksOf_markedRules, markRounds_eq ranged (Grammar.nullableSound_markedRules rules)
      (Nat.lt_add_right _ hlimit), marksOf_congr hfound, marksOf_nullables]
  · have hmark : decide (id ∈ nullables rules) = true ↔ DerivesMarked rules id := by
      rw [decide_eq_true_iff, Grammar.mem_nullables_iff_derivesMarked]
    refine ⟨decide (id ∈ nullables rules), ?_, fun hnone => hmark.trans ?_, hmark⟩
    · rw [Grammar.getElem?_markNullable_eq, hr, Option.map_some]
    · exact Grammar.derivesMarked_iff_vanishes fun _ hmarked =>
        absurd hmarked (Grammar.not_marked hnone)
  · exact (hexact id).1 (marked_markNullable_iff.2 (Grammar.derivesOnly_call hid))
  · exact marked_markNullable_iff.trans (Grammar.derivesMarked_iff_vanishes hright)

/-- Rules `t → s s`, `s → '(' s ')' | ε`, `u → t 'u'`, `v → v`, a rule without productions, and one
that is generated for a repetition of `s`. -/
def nestings : List Rule := [
  ⟨0, "t", [⟨0, [.rule 1, .rule 1]⟩], false, false⟩,
  ⟨1, "s", [⟨1, [.lex 0, .rule 1, .lex 1]⟩, ⟨1, []⟩], false, false⟩,
  ⟨2, "u", [⟨2, [.rule 0, .lex 2]⟩], false, false⟩,
  ⟨3, "v", [⟨3, [.rule 3]⟩], false, false⟩,
  ⟨4, "w", [], false, false⟩,
  ⟨5, "s#0", [⟨5, [.rule 1]⟩, ⟨5, [.rule 5, .rule 1]⟩], false, true⟩]

/-- Rules `a → 'a'` and `b → a`, the first of them marked although it does not vanish. -/
def premarked : List Rule := [
  ⟨0, "a", [⟨0, [.lex 0]⟩], true, false⟩,
  ⟨1, "b", [⟨1, [.rule 0]⟩], false, false⟩]

theorem not_vanishes_premarked {id : Nat} : ¬ Vanishes premarked id := by
  intro h
  refine Grammar.of_derivesOnly (fun _ => False) (fun _ hknown => hknown) ?_
    (Grammar.vanishes_iff_derivesOnly.1 h)
  intro id r hr p hp hall
  have hr := List.mem_of_getElem? hr
  simp only [premarked, List.mem_cons, List.not_mem_nil, or_false] at hr
  obtain rfl | rfl := hr <;> obtain rfl := List.mem_singleton.1 hp
  · exact absurd (hall (.lex 0) (List.mem_singleton_self _)) (by simp)
  · obtain ⟨_, -, hfalse⟩ := hall (.rule 0) (List.mem_singleton_self _)
    exact hfalse

/-- The marks that a run leaves are those of the library, rule by rule. -/
theorem getElem?_of_rounds {rules : List Rule} {limit : Nat} {start : Array Bool}
    {marks : List Bool} (hrun : markRounds rules limit start = some marks.toArray)
    (hrounds : markRounds rules limit start =
      some ((markNullable rules).map Rule.nullable).toArray) (id : Nat) :
    marks[id]? = (markNullable rules)[id]?.map Rule.nullable := by
  have hsame : marks = (markNullable rules).map Rule.nullable :=
    congrArg Array.toList (Option.some.inj (hrun.symm.trans hrounds))
  rw [hsame, List.getElem?_map]

/-- The first rule of `nestings` calls one behind it, so that a second round finds it.  The mark of
`premarked` stays, and counts for the rule that calls the marked one. -/
theorem nullability_exact_nestings :
    (markRounds nestings 7 (nestings.map Rule.nullable).toArray =
      some #[true, true, false, false, false, true] ∧
    Vanishes nestings 0 ∧ ¬ Vanishes nestings 2 ∧ ¬ Vanishes nestings 3 ∧
    ¬ Vanishes nestings 4 ∧ Vanishes nestings 5) ∧
    markRounds premarked 3 (premarked.map Rule.nullable).toArray = some #[true, true] ∧
    DerivesMarked premarked 1 ∧ ¬ Vanishes premarked 1 := by
  have ranged : Ranged nestings ∧ Ranged premarked := by
    unfold Ranged CallsWithin
    simp [nestings, premarked]
  obtain ⟨hrounds, -, hmarks, -⟩ := nullability_exact ranged.1
  obtain ⟨hrounds', -, hmarks', -⟩ := nullability_exact ranged.2
  have hrun : markRounds nestings 7 (nestings.map Rule.nullable).toArray =
      some [true, true, false, false, false, true].toArray := by
    decide
  have hrun' : markRounds premarked 3 (premarked.map Rule.nullable).toArray =
      some [true, true].toArray := by
    decide
  have hiff : ∀ id < 6, [true, true, false, false, false, true][id]? = some true ↔
      Vanishes nestings id := by
    intro id hid
    obtain ⟨nullable, hr, hvanishes, -⟩ := hmarks id _ (List.getElem?_eq_getElem hid)
    rw [getElem?_of_rounds hrun (hrounds 7 (by decide)), hr, Option.map_some, Option.some_inj]
    exact hvanishes (by decide)
  refine ⟨⟨hrun, (hiff 0 (by decide)).1 rfl, mt (hiff 2 (by decide)).2 (by decide),
    mt (hiff 3 (by decide)).2 (by decide), mt (hiff 4 (by decide)).2 (by decide),
    (hiff 5 (by decide)).1 rfl⟩, hrun', ?_, not_vanishes_premarked⟩
  obtain ⟨nullable, hr, -, hmark⟩ := hmarks' 1 _ rfl
  have hnullable := getElem?_of_rounds hrun' (hrounds' 3 (by decide)) 1
  rw [hr, Option.map_some] at hnullable
  exact hmark.1 (Option.some.inj hnullable).symm

end LexChart.Checked
