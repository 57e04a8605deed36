import LexChart.Grammar.Derivation
import LexChart.Grammar.Normalize
import Mathlib.Data.List.Perm.Subperm
import Mathlib.Logic.Relation
import Mathlib.Tactic.ByContra
set_option autoImplicit false

/-!
# Nullable rules are found

The rounds that look for nullable rules end with exactly the rules that derive a sequence of rules
that were marked before, and so, where none was, with those that derive the empty sequence.  A rule
is only added when one of its productions consists of rules that were known before it, and a round
that adds nothing leaves a set that no production leads out of.  Every other round makes the set
larger, and it never has more elements than there are rules.
-/

namespace LexChart.Grammar

open Relation (ReflTransGen)

/-! ## Deriving the empty sequence -/

/-- A rule, given by its position in a list of rules, is replaced wherever it stands by the right
side of a production that is listed under it. -/
inductive Rewrites (rules : List Rule) : List Symbol → List Symbol → Prop where
  | produce {id : Nat} {r : Rule} {p : Production} (before after : List Symbol) :
      rules[id]? = some r → p ∈ r.productions →
      Rewrites rules (before ++ .rule id :: after) (before ++ p.rhs ++ after)

/-- The rule at a position derives the empty sequence. -/
def Vanishes (rules : List Rule) (id : Nat) : Prop :=
  ReflTransGen (Rewrites rules) [.rule id] []

/-- A sequence derives one that consists of known rules. -/
def DerivesOnly (rules : List Rule) (known : Nat → Prop) (symbols : List Symbol) : Prop :=
  ∃ calls : List Nat, ReflTransGen (Rewrites rules) symbols (calls.map .rule) ∧
    ∀ id ∈ calls, known id

/-- The rule at a position is marked as nullable. -/
def Marked (rules : List Rule) (id : Nat) : Prop := ∃ r, rules[id]? = some r ∧ r.nullable = true

/-- The rule at a position derives a sequence of marked rules, as every marked rule does, and every
rule that derives the empty sequence. -/
def DerivesMarked (rules : List Rule) (id : Nat) : Prop :=
  DerivesOnly rules (Marked rules) [.rule id]

section

variable {rules : List Rule}

theorem Rewrites.context {u v : List Symbol} (h : Rewrites rules u v) (before after : List Symbol) :
    Rewrites rules (before ++ u ++ after) (before ++ v ++ after) := by
  cases h with
  | produce b a hr hp =>
    have hstep := Rewrites.produce (before ++ b) (a ++ after) hr hp
    simpa using hstep

section

variable {known : Nat → Prop}

theorem derivesOnly_call {id : Nat} (h : known id) : DerivesOnly rules known [.rule id] :=
  ⟨[id], .refl, List.forall_mem_singleton.2 h⟩

theorem DerivesOnly.of_rewrites {u v : List Symbol} (hderives : ReflTransGen (Rewrites rules) u v)
    (h : DerivesOnly rules known v) : DerivesOnly rules known u := by
  obtain ⟨calls, hcalls, hknown⟩ := h
  exact ⟨calls, hderives.trans hcalls, hknown⟩

theorem DerivesOnly.append {u v : List Symbol} (h : DerivesOnly rules known u)
    (h' : DerivesOnly rules known v) : DerivesOnly rules known (u ++ v) := by
  obtain ⟨calls, hcalls, hknown⟩ := h
  obtain ⟨calls', hcalls', hknown'⟩ := h'
  refine ⟨calls ++ calls', ?_, List.forall_mem_append.2 ⟨hknown, hknown'⟩⟩
  have hfirst := hcalls.lift (fun w => [] ++ w ++ v) fun _ _ hstep => hstep.context [] v
  have hlast := hcalls'.lift (fun w => calls.map .rule ++ w ++ []) fun _ _ hstep =>
    hstep.context (calls.map .rule) []
  simp only [List.nil_append, List.append_nil] at hfirst hlast
  rw [List.map_append]
  exact hfirst.trans hlast

theorem derivesOnly_sequence {symbols : List Symbol}
    (h : ∀ s ∈ symbols, DerivesOnly rules known [s]) : DerivesOnly rules known symbols := by
  induction symbols with
  | nil => exact ⟨[], .refl, fun _ hid => nomatch hid⟩
  | cons s rest ih =>
    obtain ⟨hs, hrest⟩ := List.forall_mem_cons.1 h
    exact hs.append (ih hrest)

theorem derivesOnly_of_production {id : Nat} {r : Rule} (hr : rules[id]? = some r) {p : Production}
    (hp : p ∈ r.productions) (h : ∀ s ∈ p.rhs, DerivesOnly rules known [s]) :
    DerivesOnly rules known [.rule id] := by
  have hstep := Rewrites.produce [] [] hr hp
  rw [List.nil_append, List.append_nil] at hstep
  exact .of_rewrites (.single hstep) (derivesOnly_sequence h)

/-- The known rules may be replaced by others that each of them derives. -/
theorem DerivesOnly.trans {known' : Nat → Prop} {symbols : List Symbol}
    (h : DerivesOnly rules known symbols)
    (hall : ∀ id, known id → DerivesOnly rules known' [.rule id]) :
    DerivesOnly rules known' symbols := by
  obtain ⟨calls, hcalls, hknown⟩ := h
  exact .of_rewrites hcalls
    (derivesOnly_sequence (List.forall_mem_map.2 fun id hid => hall id (hknown id hid)))

/-- Rules that contain the known ones, and every rule with a production of them, contain every rule
that derives known ones only.  Read from its end, a derivation only replaces such symbols by
others. -/
theorem of_derivesOnly (closure : Nat → Prop) (hknown : ∀ id, known id → closure id)
    (closed : ∀ (id : Nat) (r : Rule), rules[id]? = some r → ∀ p ∈ r.productions,
      (∀ s ∈ p.rhs, ∃ callee, s = .rule callee ∧ closure callee) → closure id)
    {id : Nat} (h : DerivesOnly rules known [.rule id]) : closure id := by
  obtain ⟨calls, hcalls, hall⟩ := h
  have hclosure : ∀ symbols, ReflTransGen (Rewrites rules) symbols (calls.map .rule) →
      ∀ s ∈ symbols, ∃ callee, s = .rule callee ∧ closure callee := by
    intro symbols hderives
    induction hderives using ReflTransGen.head_induction_on with
    | refl =>
      exact List.forall_mem_map.2 fun callee hcallee => ⟨callee, rfl, hknown _ (hall _ hcallee)⟩
    | head hstep _ ih =>
      cases hstep with
      | @produce id r p before after hr hp =>
        intro s hs
        rcases List.mem_append.1 hs with hs | hs
        · exact ih s (List.mem_append_left _ (List.mem_append_left _ hs))
        · rcases List.mem_cons.1 hs with rfl | hs
          · refine ⟨id, rfl, closed id r hr p hp fun s' hs' => ih s' ?_⟩
            exact List.mem_append_left _ (List.mem_append_right _ hs')
          · exact ih s (List.mem_append_right _ hs)
  obtain ⟨_, heq, hid⟩ := hclosure _ hcalls _ (List.mem_singleton_self _)
  cases heq
  exact hid

end

theorem vanishes_iff_derivesOnly {id : Nat} :
    Vanishes rules id ↔ DerivesOnly rules (fun _ => False) [.rule id] := by
  constructor
  · exact fun h => ⟨[], h, fun _ hid => nomatch hid⟩
  · rintro ⟨calls, hcalls, hnone⟩
    obtain rfl := List.eq_nil_iff_forall_not_mem.2 hnone
    exact hcalls

theorem Vanishes.derivesMarked {id : Nat} (h : Vanishes rules id) : DerivesMarked rules id :=
  (vanishes_iff_derivesOnly.1 h).trans fun _ hfalse => hfalse.elim

/-- Marks that are right, such as none at all, do not lead to wrong ones. -/
theorem derivesMarked_iff_vanishes (h : ∀ id, Marked rules id → Vanishes rules id) {id : Nat} :
    DerivesMarked rules id ↔ Vanishes rules id := by
  refine ⟨fun hid => vanishes_iff_derivesOnly.2 (hid.trans fun callee hcallee => ?_),
    Vanishes.derivesMarked⟩
  exact vanishes_iff_derivesOnly.1 (h callee hcallee)

theorem not_marked (h : ∀ r ∈ rules, r.nullable = false) {id : Nat} : ¬ Marked rules id := by
  rintro ⟨r, hr, hmarked⟩
  exact Bool.false_ne_true ((h r (List.mem_of_getElem? hr)).symm.trans hmarked)

theorem lt_of_derivesMarked {id : Nat} (h : DerivesMarked rules id) : id < rules.length := by
  refine of_derivesOnly (fun id => id < rules.length) ?_ (fun _ _ hr _ _ _ => ?_) h
  · rintro _ ⟨_, hr, -⟩
    exact (List.getElem?_eq_some_iff.1 hr).1
  · exact (List.getElem?_eq_some_iff.1 hr).1

variable {g : Grammar}

/-- Where productions are listed under their own rules, replacing by position is the step of a
grammar. -/
theorem rewrites_iff_step
    (hlhs : ∀ (id : Nat) (r : Rule), rules[id]? = some r → ∀ p ∈ r.productions, p.lhs = id)
    (hall : g.productions = rules.flatMap Rule.productions) {u v : List Symbol} :
    Rewrites rules u v ↔ g.Step u v := by
  constructor
  · rintro ⟨before, after, hr, hp⟩
    rw [← hlhs _ _ hr _ hp]
    refine .produce _ before after ?_
    rw [hall]
    exact List.mem_flatMap.2 ⟨_, List.mem_of_getElem? hr, hp⟩
  · rintro ⟨p, before, after, hp⟩
    rw [hall] at hp
    obtain ⟨r, hr, hp⟩ := List.mem_flatMap.1 hp
    obtain ⟨id, hid⟩ := List.mem_iff_getElem?.1 hr
    rw [hlhs id r hid p hp]
    exact .produce before after hid hp

theorem vanishes_iff_generates
    (hlhs : ∀ (id : Nat) (r : Rule), rules[id]? = some r → ∀ p ∈ r.productions, p.lhs = id)
    (hall : g.productions = rules.flatMap Rule.productions) {id : Nat} :
    Vanishes rules id ↔ g.Generates id [] := by
  constructor
  · intro h
    have hderives : ∀ u v, ReflTransGen (Rewrites rules) u v → g.Derives u v := by
      intro u v h
      induction h using ReflTransGen.head_induction_on with
      | refl => exact .refl v
      | head hstep _ ih => exact .step ((rewrites_iff_step hlhs hall).1 hstep) ih
    exact hderives _ _ h
  · intro h
    have hderives : ∀ u v, g.Derives u v → ReflTransGen (Rewrites rules) u v := by
      intro u v h
      induction h with
      | refl => exact .refl
      | step hstep _ ih => exact .head ((rewrites_iff_step hlhs hall).2 hstep) ih
    exact hderives _ _ h

end

/-! ## Rounds -/

/-- A production consists of rules of a set. -/
theorem derivesFrom_iff {known : Std.HashSet Nat} {p : Production} :
    Production.derivesFrom known p = true ↔ ∀ s ∈ p.rhs, ∃ id, s = .rule id ∧ id ∈ known := by
  unfold Production.derivesFrom
  rw [List.all_eq_true]
  refine forall₂_congr fun s _ => ?_
  cases s <;> simp

/-- Adds the position of a rule with a production of known rules. -/
def addNullable (known : Std.HashSet Nat) (rule : Rule × Nat) : Std.HashSet Nat :=
  if rule.2 ∉ known ∧ rule.1.productions.any (Production.derivesFrom known) then
    known.insert rule.2
  else known

theorem nullableRound_eq (rules : List Rule) (known : Std.HashSet Nat) :
    nullableRound rules known = rules.zipIdx.foldl addNullable known := rfl

/-- No rule with a production of known rules is missing. -/
def NullableClosed (rules : List Rule) (known : Std.HashSet Nat) : Prop :=
  ∀ rule ∈ rules.zipIdx, rule.1.productions.any (Production.derivesFrom known) → rule.2 ∈ known

/-- Either nothing is added, and the rule is not missing, or the set grows by the rule. -/
theorem addNullable_cases (known : Std.HashSet Nat) (rule : Rule × Nat) :
    (addNullable known rule = known ∧
      (rule.1.productions.any (Production.derivesFrom known) → rule.2 ∈ known)) ∨
    (addNullable known rule = known.insert rule.2 ∧ (addNullable known rule).size = known.size + 1 ∧
      rule.1.productions.any (Production.derivesFrom known)) := by
  unfold addNullable
  split
  · rename_i h
    refine .inr ⟨rfl, ?_, h.2⟩
    rw [Std.HashSet.size_insert, if_neg h.1]
  · rename_i h
    exact .inl ⟨rfl, fun hany => by_contra fun hmem => h ⟨hmem, hany⟩⟩

theorem size_le_foldl_addNullable (rules : List (Rule × Nat)) (known : Std.HashSet Nat) :
    known.size ≤ (rules.foldl addNullable known).size := by
  induction rules generalizing known with
  | nil => exact Nat.le_refl _
  | cons rule rest ih =>
    refine Nat.le_trans ?_ (ih (addNullable known rule))
    rcases addNullable_cases known rule with ⟨heq, -⟩ | ⟨-, hsize, -⟩
    · exact Nat.le_of_eq (congrArg Std.HashSet.size heq.symm)
    · omega

/-- A round that adds nothing finds no rule missing. -/
theorem forall_of_foldl_addNullable {rules : List (Rule × Nat)} {known : Std.HashSet Nat}
    (h : (rules.foldl addNullable known).size = known.size) :
    rules.foldl addNullable known = known ∧
      ∀ rule ∈ rules, rule.1.productions.any (Production.derivesFrom known) → rule.2 ∈ known := by
  induction rules with
  | nil => exact ⟨rfl, fun _ hrule => nomatch hrule⟩
  | cons rule rest ih =>
    rw [List.foldl_cons] at h ⊢
    rcases addNullable_cases known rule with ⟨heq, hrule⟩ | ⟨-, hsize, -⟩
    · rw [heq] at h ⊢
      obtain ⟨hrest, hall⟩ := ih h
      exact ⟨hrest, List.forall_mem_cons.2 ⟨hrule, hall⟩⟩
    · have := size_le_foldl_addNullable rest (addNullable known rule)
      omega

theorem mem_addNullable_of_mem {known : Std.HashSet Nat} {id : Nat} (h : id ∈ known)
    (rule : Rule × Nat) : id ∈ addNullable known rule := by
  rcases addNullable_cases known rule with ⟨heq, -⟩ | ⟨heq, -⟩
  · rwa [heq]
  · rw [heq]
    exact Std.HashSet.mem_insert.2 (.inr h)

section

variable {rules : List Rule}

/-- Known rules stay known. -/
theorem mem_nullableRound_of_mem {known : Std.HashSet Nat} {id : Nat} (h : id ∈ known) :
    id ∈ nullableRound rules known := by
  rw [nullableRound_eq]
  exact List.foldlRecOn (motive := fun known => id ∈ known) rules.zipIdx addNullable h
    fun _ hknown rule _ => mem_addNullable_of_mem hknown rule

theorem mem_nullableWithin_of_mem (rounds : Nat) {known : Std.HashSet Nat} {id : Nat}
    (h : id ∈ known) : id ∈ nullableWithin rules rounds known := by
  induction rounds generalizing known with
  | zero => exact h
  | succ rounds ih =>
    unfold nullableWithin
    dsimp only
    split
    · exact mem_nullableRound_of_mem h
    · exact ih (mem_nullableRound_of_mem h)

theorem mem_markedRules {id : Nat} : id ∈ markedRules rules ↔ Marked rules id := by
  unfold markedRules Marked
  rw [Std.HashSet.mem_ofList, List.contains_iff_mem, List.mem_map]
  constructor
  · rintro ⟨⟨r, id⟩, hmem, rfl⟩
    obtain ⟨hmem, hmarked⟩ := List.mem_filter.1 hmem
    exact ⟨r, List.mem_zipIdx_iff_getElem?.1 hmem, hmarked⟩
  · rintro ⟨r, hr, hmarked⟩
    exact ⟨(r, id), List.mem_filter.2 ⟨List.mem_zipIdx_iff_getElem?.2 hr, hmarked⟩, rfl⟩

/-- Every known rule is one of the rules, and derives rules that were marked before. -/
def NullableSound (rules : List Rule) (known : Std.HashSet Nat) : Prop :=
  ∀ id ∈ known, id < rules.length ∧ DerivesMarked rules id

theorem nullableSound_markedRules (rules : List Rule) :
    NullableSound rules (markedRules rules) := by
  intro id hid
  obtain ⟨r, hr, hmarked⟩ := mem_markedRules.1 hid
  exact ⟨(List.getElem?_eq_some_iff.1 hr).1, derivesOnly_call ⟨r, hr, hmarked⟩⟩

theorem NullableSound.addNullable {known : Std.HashSet Nat} (h : NullableSound rules known)
    {rule : Rule × Nat} (hrule : rule ∈ rules.zipIdx) :
    NullableSound rules (addNullable known rule) := by
  rcases addNullable_cases known rule with ⟨heq, -⟩ | ⟨heq, -, hany⟩
  · rwa [heq]
  · rw [heq]
    intro id hid
    rcases Std.HashSet.mem_insert.1 hid with hid | hid
    · obtain rfl := beq_iff_eq.1 hid
      have hget := List.mem_zipIdx_iff_getElem?.1 hrule
      refine ⟨(List.getElem?_eq_some_iff.1 hget).1, ?_⟩
      obtain ⟨p, hp, hderives⟩ := List.any_eq_true.1 hany
      refine derivesOnly_of_production hget hp fun s hs => ?_
      obtain ⟨callee, rfl, hcallee⟩ := derivesFrom_iff.1 hderives s hs
      exact (h callee hcallee).2
    · exact h id hid

theorem NullableSound.round {known : Std.HashSet Nat} (h : NullableSound rules known) :
    NullableSound rules (nullableRound rules known) := by
  rw [nullableRound_eq]
  exact List.foldlRecOn rules.zipIdx Grammar.addNullable h
    fun known h rule hrule => h.addNullable hrule

/-- There are no more known rules than rules. -/
theorem NullableSound.size_le {known : Std.HashSet Nat} (h : NullableSound rules known) :
    known.size ≤ rules.length := by
  have hnodup : known.toList.Nodup := by
    have hdistinct := Std.HashSet.distinct_toList (m := known)
    exact hdistinct.imp fun hab => by simpa using hab
  have hsub : known.toList ⊆ List.range rules.length := fun id hid =>
    List.mem_range.2 (h id (Std.HashSet.mem_toList.1 hid)).1
  have hle := (List.subperm_of_subset hnodup hsub).length_le
  rwa [Std.HashSet.length_toList, List.length_range] at hle

/-- A round leaves the set as it is, and nothing is missing then, or it makes it larger. -/
theorem nullableRound_cases (rules : List Rule) (known : Std.HashSet Nat) :
    (nullableRound rules known = known ∧ NullableClosed rules known) ∨
      known.size < (nullableRound rules known).size := by
  have hle := size_le_foldl_addNullable rules.zipIdx known
  rw [nullableRound_eq]
  by_cases hsize : (rules.zipIdx.foldl addNullable known).size = known.size
  · exact .inl (forall_of_foldl_addNullable hsize)
  · exact .inr (by omega)

/-- Enough rounds end with a sound set in which nothing is missing. -/
theorem nullableWithin_spec (rounds : Nat) {known : Std.HashSet Nat} (h : NullableSound rules known)
    (hrounds : rules.length < rounds + known.size) :
    NullableSound rules (nullableWithin rules rounds known) ∧
      NullableClosed rules (nullableWithin rules rounds known) := by
  induction rounds generalizing known with
  | zero =>
    have := h.size_le
    omega
  | succ rounds ih =>
    unfold nullableWithin
    dsimp only
    rcases nullableRound_cases rules known with ⟨heq, hclosed⟩ | hlt
    · rw [heq, if_pos rfl]
      exact ⟨h, hclosed⟩
    · rw [if_neg (Nat.ne_of_gt hlt)]
      exact ih h.round (by omega)

/-- The rules that are found are those that derive rules that were marked before, however many
rounds are allowed beyond the number of rules. -/
theorem mem_nullableWithin_iff {rounds : Nat} (hrounds : rules.length < rounds) {id : Nat} :
    id ∈ nullableWithin rules rounds (markedRules rules) ↔ DerivesMarked rules id := by
  obtain ⟨hsound, hclosed⟩ :=
    nullableWithin_spec rounds (nullableSound_markedRules rules) (Nat.lt_add_right _ hrounds)
  refine ⟨fun hid => (hsound id hid).2, of_derivesOnly _ (fun marked hmarked => ?_) ?_⟩
  · exact mem_nullableWithin_of_mem rounds (mem_markedRules.2 hmarked)
  · intro id r hr p hp hknown
    refine hclosed (r, id) (List.mem_zipIdx_iff_getElem?.2 hr) (List.any_eq_true.2 ⟨p, hp, ?_⟩)
    exact derivesFrom_iff.2 hknown

theorem mem_nullables_iff_derivesMarked {id : Nat} : id ∈ nullables rules ↔ DerivesMarked rules id :=
  mem_nullableWithin_iff (Nat.lt_succ_self _)

/-- Where no rule was marked before, the nullable rules are those that generate the empty
sequence. -/
theorem mem_nullables_iff {g : Grammar}
    (hunmarked : ∀ r ∈ rules, r.nullable = false)
    (hlhs : ∀ (id : Nat) (r : Rule), rules[id]? = some r → ∀ p ∈ r.productions, p.lhs = id)
    (hall : g.productions = rules.flatMap Rule.productions) {id : Nat} :
    id ∈ nullables rules ↔ g.Generates id [] :=
  calc id ∈ nullables rules
      ↔ DerivesMarked rules id := mem_nullables_iff_derivesMarked
    _ ↔ Vanishes rules id :=
      derivesMarked_iff_vanishes fun _ hmarked => absurd hmarked (not_marked hunmarked)
    _ ↔ g.Generates id [] := vanishes_iff_generates hlhs hall

end

end LexChart.Grammar
