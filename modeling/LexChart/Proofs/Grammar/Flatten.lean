import LexChart.Grammar.Normalize
import LexChart.Proofs.Answers
import LexChart.Proofs.Expr.Language
import LexChart.Proofs.Grammar.Interpretation
set_option autoImplicit false

/-!
# Flattening keeps the language

Flattening an expression answers with alternatives and adds generated rules behind those that there
are.  In every interpretation that is closed under the generated productions the words of the
expression are words of the alternatives.  Conversely, an interpretation of the rules that there
were before extends to the generated rules in such a way that it stays closed and the alternatives
have no other words.  Both together hold of each action that flattening is made of, and `Denotes`
says so.
-/

namespace LexChart

open scoped Computability

namespace Interpretation

variable {i j : Interpretation}

/-- Both interpretations give the rules below a number the same words. -/
def Agrees (limit : Nat) (i j : Interpretation) : Prop := ∀ id < limit, j id = i id

theorem Agrees.trans {low high : Nat} {k : Interpretation} (h : Agrees low i j) (hle : low ≤ high)
    (h' : Agrees high j k) : Agrees low i k :=
  fun id hid => (h' id (Nat.lt_of_lt_of_le hid hle)).trans (h id hid)

theorem Agrees.symbol_eq {lex limit : Nat} (h : Agrees limit i j) {s : Symbol}
    (hs : s.Within lex limit) : j.symbol s = i.symbol s := by
  cases s with
  | lex id => rfl
  | rule id => exact h id hs

theorem Agrees.sequence_eq {lex limit : Nat} (h : Agrees limit i j) {rhs : List Symbol}
    (hrhs : ∀ s ∈ rhs, s.Within lex limit) : j.sequence rhs = i.sequence rhs :=
  sequence_congr fun id hid => h id (hrhs _ hid)

theorem Agrees.alternatives_eq {lex limit : Nat} (h : Agrees limit i j)
    {rights : List (List Symbol)}
    (hrights : ∀ rhs ∈ rights, ∀ s ∈ rhs, s.Within lex limit) :
    j.alternatives rights = i.alternatives rights := by
  ext w
  rw [mem_alternatives, mem_alternatives]
  refine exists_congr fun rhs => and_congr_right fun hrhs => ?_
  rw [h.sequence_eq (hrights rhs hrhs)]

/-- The interpretation with other words for one rule. -/
def set (i : Interpretation) (id : Nat) (l : Language Nat) : Interpretation :=
  Function.update i id l

@[simp] theorem set_self (i : Interpretation) (id : Nat) (l : Language Nat) : i.set id l id = l :=
  Function.update_self ..

/-- Other words for the rule that comes next change nothing before it. -/
theorem agrees_set (i : Interpretation) (limit : Nat) (l : Language Nat) :
    Agrees limit i (i.set limit l) := by
  intro id hid
  unfold set
  rw [Function.update_of_ne (Nat.ne_of_lt hid)]

theorem closed_productionsOf {id : Nat} {rights : Grammar.Alternatives} :
    i.Closed (Grammar.productionsOf id rights) ↔ i.alternatives rights ≤ i id := by
  unfold Closed Grammar.productionsOf
  rw [List.forall_mem_map]
  constructor
  · rintro h w ⟨rhs, hrhs, hw⟩
    exact h rhs hrhs hw
  · exact fun h rhs hrhs w hw => h ⟨rhs, hrhs, hw⟩

/-- The interpretation is closed under the productions of all rules of a list. -/
def ClosedFor (i : Interpretation) (rules : Array Rule) : Prop :=
  ∀ r ∈ rules, i.Closed r.productions

theorem closedFor_push {rules : Array Rule} {r : Rule} :
    i.ClosedFor (rules.push r) ↔ i.ClosedFor rules ∧ i.Closed r.productions := by
  unfold ClosedFor
  simp only [Array.mem_push, or_imp, forall_and, forall_eq]

end Interpretation

namespace Grammar

open Interpretation

/-! ## Generated rules -/

/-- The generated rules are numbered behind the declared ones and not marked yet, and the numbers in
their productions are in range. -/
def Generated.Sound (lex declared : Nat) (g : Generated) : Prop :=
  ∀ (k : Nat) (r : Rule), g.rules[k]? = some r → r.id = declared + k ∧ r.nullable = false ∧
    ∀ p ∈ r.productions, p.lhs = r.id ∧ ∀ s ∈ p.rhs, s.Within lex (declared + g.rules.size)

/-- Rules are added behind those that there are. -/
structure Generated.Grows (g g' : Generated) : Prop where
  size_le : g.rules.size ≤ g'.rules.size
  kept : ∀ k < g.rules.size, g'.rules[k]? = g.rules[k]?

theorem Generated.Grows.refl (g : Generated) : g.Grows g := ⟨Nat.le_refl _, fun _ _ => rfl⟩

theorem Generated.Grows.trans {g g' g'' : Generated} (h : g.Grows g') (h' : g'.Grows g'') :
    g.Grows g'' :=
  ⟨Nat.le_trans h.size_le h'.size_le, fun k hk =>
    (h'.kept k (Nat.lt_of_lt_of_le hk h.size_le)).trans (h.kept k hk)⟩

/-- A closed interpretation is closed for the rules that there were before. -/
theorem Generated.Grows.closedFor {g g' : Generated} (h : g.Grows g') {i : Interpretation}
    (closed : i.ClosedFor g'.rules) : i.ClosedFor g.rules := by
  intro r hr
  obtain ⟨k, hk⟩ := Array.mem_iff_getElem?.1 hr
  have hlt := (Array.getElem?_eq_some_iff.1 hk).1
  exact closed r (Array.mem_of_getElem? ((h.kept k hlt).trans hk))

/-- Interpretations that agree on the rules that there are agree on being closed for them. -/
theorem Generated.Sound.closedFor {lex declared : Nat} {g : Generated} (h : g.Sound lex declared)
    {i j : Interpretation} (agrees : Agrees (declared + g.rules.size) i j)
    (closed : i.ClosedFor g.rules) : j.ClosedFor g.rules := by
  intro r hr p hp
  obtain ⟨k, hk⟩ := Array.mem_iff_getElem?.1 hr
  have hlt := (Array.getElem?_eq_some_iff.1 hk).1
  obtain ⟨hid, -, hproductions⟩ := h k r hk
  obtain ⟨hlhs, hrhs⟩ := hproductions p hp
  have hlhs_lt : p.lhs < declared + g.rules.size := by omega
  rw [agrees.sequence_eq hrhs, agrees p.lhs hlhs_lt]
  exact closed r hr p hp

/-- The numbers in all alternatives are in range. -/
def RightsWithin (lex rules : Nat) (rights : Alternatives) : Prop :=
  ∀ rhs ∈ rights, ∀ s ∈ rhs, s.Within lex rules

theorem RightsWithin.mono {lex rules more : Nat} (h : rules ≤ more) {rights : Alternatives}
    (hrights : RightsWithin lex rules rights) : RightsWithin lex more rights :=
  fun rhs hrhs s hs => (hrights rhs hrhs s hs).mono h

/-- The rule that is generated next. -/
def nextRule (owner : Owner) (g : Generated) (rights : Alternatives) : Rule :=
  ⟨owner.declared + g.rules.size, owner.name ++ "#" ++ toString g.count,
    productionsOf (owner.declared + g.rules.size) rights, false, true⟩

theorem generate_apply (owner : Owner) (rights : Nat → Alternatives) (g : Generated) :
    generate owner rights g = (owner.declared + g.rules.size,
      ⟨g.rules.push (nextRule owner g (rights (owner.declared + g.rules.size))), g.count + 1⟩) :=
  rfl

section

variable {lex : Nat} {owner : Owner} {rights : Nat → Alternatives} {g : Generated}

theorem grows_generate : g.Grows (generate owner rights g).2 := by
  rw [generate_apply]
  refine ⟨by simp, fun k hk => ?_⟩
  rw [Array.getElem?_push, if_neg (Nat.ne_of_lt hk)]

theorem size_generate : (generate owner rights g).2.rules.size = g.rules.size + 1 := by
  rw [generate_apply]
  exact Array.size_push ..

theorem sound_generate (h : g.Sound lex owner.declared)
    (hrights : RightsWithin lex (owner.declared + g.rules.size + 1)
      (rights (owner.declared + g.rules.size))) :
    (generate owner rights g).2.Sound lex owner.declared := by
  intro k r hr
  rw [size_generate]
  rw [generate_apply, Array.getElem?_push] at hr
  split at hr
  · rename_i hk
    obtain rfl := Option.some.inj hr
    refine ⟨by rw [hk]; rfl, rfl, fun p hp => ?_⟩
    obtain ⟨rhs, hrhs, rfl⟩ := List.mem_map.1 hp
    exact ⟨rfl, hrights rhs hrhs⟩
  · obtain ⟨hid, hunmarked, hproductions⟩ := h k r hr
    refine ⟨hid, hunmarked, fun p hp => ⟨(hproductions p hp).1, fun s hs => ?_⟩⟩
    exact ((hproductions p hp).2 s hs).mono (by omega)

theorem closedFor_generate {i : Interpretation} : i.ClosedFor (generate owner rights g).2.rules ↔
    i.ClosedFor g.rules ∧ i.alternatives (rights (owner.declared + g.rules.size)) ≤
      i (owner.declared + g.rules.size) := by
  rw [generate_apply, closedFor_push]
  exact and_congr_right fun _ => closed_productionsOf

/-- The rule that is generated may be given any words that its alternatives then have. -/
theorem closedFor_generate_set (h : g.Sound lex owner.declared) {i : Interpretation}
    (closed : i.ClosedFor g.rules) {l : Language Nat}
    (hle : (i.set (owner.declared + g.rules.size) l).alternatives
      (rights (owner.declared + g.rules.size)) ≤ l) :
    (i.set (owner.declared + g.rules.size) l).ClosedFor (generate owner rights g).2.rules := by
  refine closedFor_generate.2 ⟨h.closedFor (agrees_set i _ l) closed, ?_⟩
  rwa [set_self]

end

/-! ## What an action denotes -/

/-- An action answers with alternatives for a language that depends on the declared rules alone. -/
structure Denotes (lex : Nat) (owner : Owner) (action : Flattening Alternatives)
    (l : Interpretation → Language Nat) : Prop where
  congr : ∀ i j, Agrees owner.declared i j → l j = l i
  grows : ∀ g : Generated, g.Grows (action g).2
  sound : ∀ g : Generated, g.Sound lex owner.declared → (action g).2.Sound lex owner.declared ∧
    RightsWithin lex (owner.declared + (action g).2.rules.size) (action g).1
  complete : ∀ (g : Generated) (i : Interpretation), i.ClosedFor (action g).2.rules →
    l i ≤ i.alternatives (action g).1
  extends_ : ∀ (g : Generated) (i : Interpretation), g.Sound lex owner.declared →
    i.ClosedFor g.rules →
    ∃ j : Interpretation, Agrees (owner.declared + g.rules.size) i j ∧
      j.ClosedFor (action g).2.rules ∧
      j.alternatives (action g).1 ≤ l i

variable {lex : Nat} {owner : Owner}

theorem run_bind {α β : Type} (action : Flattening α) (next : α → Flattening β) (g : Generated) :
    (action >>= next) g = next (action g).1 (action g).2 := rfl

theorem alternatives_singleton (i : Interpretation) (s : Symbol) :
    i.alternatives [[s]] = i.symbol s := by
  ext w
  simp [mem_alternatives]

theorem denotes_leaf {s : Symbol} (hs : s.Within lex owner.declared) :
    Denotes lex owner (pure [[s]]) fun i => i.symbol s := by
  refine ⟨fun i j h => h.symbol_eq hs, fun g => .refl g, fun g h => ⟨h, ?_⟩,
    fun g i _ => le_of_eq (alternatives_singleton i s).symm,
    fun g i _ closed => ⟨i, fun _ _ => rfl, closed, le_of_eq (alternatives_singleton i s)⟩⟩
  intro rhs hrhs t ht
  rw [List.mem_singleton.1 hrhs] at ht
  rw [List.mem_singleton.1 ht]
  exact hs.mono (Nat.le_add_right _ _)

theorem symbolFor_cases (owner : Owner) (rights : Alternatives) (g : Generated) :
    (∃ s, rights = [[s]] ∧ symbolFor owner rights g = (s, g)) ∨
      symbolFor owner rights g = (.rule (owner.declared + g.rules.size),
        (generate owner (fun _ => rights) g).2) := by
  unfold symbolFor
  split
  · exact .inl ⟨_, rfl, rfl⟩
  · exact .inr rfl

theorem grows_symbolFor (owner : Owner) (rights : Alternatives) (g : Generated) :
    g.Grows (symbolFor owner rights g).2 := by
  rcases symbolFor_cases owner rights g with ⟨s, rfl, heq⟩ | heq
  · rw [heq]
    exact .refl g
  · rw [heq]
    dsimp only
    exact grows_generate

theorem sound_symbolFor {rights : Alternatives} {g : Generated} (h : g.Sound lex owner.declared)
    (hrights : RightsWithin lex (owner.declared + g.rules.size) rights) :
    (symbolFor owner rights g).2.Sound lex owner.declared ∧ (symbolFor owner rights g).1.Within lex
      (owner.declared + (symbolFor owner rights g).2.rules.size) := by
  rcases symbolFor_cases owner rights g with ⟨s, rfl, heq⟩ | heq
  · rw [heq]
    exact ⟨h, hrights [s] List.mem_cons_self s List.mem_cons_self⟩
  · rw [heq]
    dsimp only
    refine ⟨sound_generate h (hrights.mono (Nat.le_succ _)), ?_⟩
    show owner.declared + g.rules.size < owner.declared + Array.size _
    rw [size_generate]
    omega

/-- One symbol for some alternatives has their words. -/
theorem alternatives_le_symbolFor {rights : Alternatives} {g : Generated} {i : Interpretation}
    (closed : i.ClosedFor (symbolFor owner rights g).2.rules) :
    i.alternatives rights ≤ i.symbol (symbolFor owner rights g).1 := by
  rcases symbolFor_cases owner rights g with ⟨s, rfl, heq⟩ | heq
  · rw [heq, alternatives_singleton]
  · rw [heq] at closed ⊢
    dsimp only at closed ⊢
    exact (closedFor_generate.1 closed).2

/-- One symbol for some alternatives may be given no other words. -/
theorem exists_symbolFor_le {rights : Alternatives} {g : Generated} (h : g.Sound lex owner.declared)
    (hrights : RightsWithin lex (owner.declared + g.rules.size) rights) {i : Interpretation}
    (closed : i.ClosedFor g.rules) :
    ∃ j : Interpretation, Agrees (owner.declared + g.rules.size) i j ∧
      j.ClosedFor (symbolFor owner rights g).2.rules ∧
      j.symbol (symbolFor owner rights g).1 ≤ i.alternatives rights := by
  rcases symbolFor_cases owner rights g with ⟨s, rfl, heq⟩ | heq
  · rw [heq, alternatives_singleton]
    exact ⟨i, fun _ _ => rfl, closed, le_refl _⟩
  · rw [heq]
    dsimp only
    refine ⟨i.set _ (i.alternatives rights), agrees_set i _ _, ?_, le_of_eq (set_self i _ _)⟩
    exact closedFor_generate_set h closed
      (le_of_eq ((agrees_set i _ _).alternatives_eq hrights))

/-! ## Repetitions -/

/-- The alternatives of a repetition with a greatest count: one for each count. -/
def limitedRights (r : Repetition) (most : Nat) (item : Symbol) : Alternatives :=
  (List.range' r.lower (most + 1 - r.lower)).map fun count => List.replicate count item

theorem alternatives_limitedRights {r : Repetition} {most : Nat} (h : r.upper = some most)
    (i : Interpretation) (item : Symbol) :
    i.alternatives (limitedRights r most item) = r.language (i.symbol item) := by
  have hle := Repetition.lower_le_upper h
  ext w
  rw [mem_alternatives, Repetition.mem_language]
  simp only [limitedRights, List.mem_map, exists_exists_and_eq_and, List.mem_range'_1,
    sequence_replicate]
  refine exists_congr fun count => and_congr_left fun _ => ?_
  constructor
  · rintro ⟨hlower, hlt⟩
    refine ⟨hlower, fun bound hbound => ?_⟩
    rw [h] at hbound
    cases hbound
    omega
  · rintro ⟨hlower, hupper⟩
    have := hupper most h
    omega

/-- The alternatives of a generated list of items. -/
def listRights (item : Symbol) (id : Nat) : Alternatives := [[item], [.rule id, item]]

/-- The alternatives of a repetition without a greatest count, given the list of its items. -/
def unlimitedRights (r : Repetition) (item : Symbol) (list : Nat) : Alternatives :=
  if r.lower = 0 then [[], [.rule list]]
  else [List.replicate (r.lower - 1) item ++ [.rule list]]

theorem alternatives_listRights (i : Interpretation) (item : Symbol) (id : Nat) :
    i.alternatives (listRights item id) = i.symbol item + i id * i.symbol item := by
  ext w
  rw [mem_alternatives, Language.mem_add]
  simp [listRights, symbol]

theorem alternatives_unlimitedRights (i : Interpretation) (r : Repetition) (item : Symbol)
    (list : Nat) : i.alternatives (unlimitedRights r item list) =
      if r.lower = 0 then 1 + i list else i.symbol item ^ (r.lower - 1) * i list := by
  ext w
  rw [mem_alternatives]
  unfold unlimitedRights
  split
  · rw [Language.mem_add]
    simp [symbol]
  · simp [symbol]

theorem allows_iff_of_unlimited {r : Repetition} (h : r.upper = none) {count : Nat} :
    r.Allows count ↔ r.lower ≤ count := by
  unfold Repetition.Allows
  simp [h]

/-- A list that has the words of one or more items serves a repetition without a greatest count. -/
theorem le_alternatives_unlimitedRights {r : Repetition} (h : r.upper = none) {i : Interpretation}
    {item : Symbol} {list : Nat} (hlist : ∀ count, i.symbol item ^ (count + 1) ≤ i list) :
    r.language (i.symbol item) ≤ i.alternatives (unlimitedRights r item list) := by
  rintro w ⟨count, hcount, hw⟩
  rw [allows_iff_of_unlimited h] at hcount
  rw [alternatives_unlimitedRights]
  split
  · apply (Language.mem_add _ _ _).2
    cases count with
    | zero => exact .inl (by rwa [pow_zero] at hw)
    | succ count => exact .inr (hlist count hw)
  · obtain ⟨more, rfl⟩ := Nat.exists_eq_add_of_le hcount
    have hsplit : r.lower + more = r.lower - 1 + (more + 1) := by omega
    rw [hsplit, pow_add] at hw
    obtain ⟨u, hu, v, hv, rfl⟩ := Language.mem_mul.1 hw
    exact Language.append_mem_mul hu (hlist more hv)

/-- A list with no other words than those of one or more items adds none to the repetition. -/
theorem alternatives_unlimitedRights_le {r : Repetition} (h : r.upper = none) {i : Interpretation}
    (item : Symbol) (list : Nat) (hlist : ∀ w ∈ i list, ∃ count, w ∈ i.symbol item ^ (count + 1)) :
    i.alternatives (unlimitedRights r item list) ≤ r.language (i.symbol item) := by
  intro w hw
  rw [alternatives_unlimitedRights] at hw
  split at hw
  · rename_i hzero
    rcases (Language.mem_add _ _ _).1 hw with hw | hw
    · obtain rfl := (Language.mem_one _).1 hw
      refine ⟨0, (allows_iff_of_unlimited h).2 (by omega), ?_⟩
      rw [pow_zero]
      exact Language.nil_mem_one
    · obtain ⟨count, hw⟩ := hlist w hw
      exact ⟨count + 1, (allows_iff_of_unlimited h).2 (by omega), hw⟩
  · rename_i hpos
    obtain ⟨u, hu, v, hv, rfl⟩ := Language.mem_mul.1 hw
    obtain ⟨count, hv⟩ := hlist v hv
    refine ⟨r.lower - 1 + (count + 1), (allows_iff_of_unlimited h).2 (by omega), ?_⟩
    rw [pow_add]
    exact Language.append_mem_mul hu hv

theorem mem_mul_kstar_iff {l : Language Nat} {w : List Nat} :
    w ∈ l * l∗ ↔ ∃ count, w ∈ l ^ (count + 1) := by
  rw [Language.kstar_eq_iSup_pow, Language.mem_mul]
  constructor
  · rintro ⟨u, hu, v, hv, rfl⟩
    obtain ⟨count, hv⟩ := Language.mem_iSup.1 hv
    refine ⟨count, ?_⟩
    rw [pow_succ']
    exact Language.append_mem_mul hu hv
  · rintro ⟨count, hw⟩
    rw [pow_succ'] at hw
    obtain ⟨u, hu, v, hv, rfl⟩ := Language.mem_mul.1 hw
    exact ⟨u, hu, v, Language.mem_iSup.2 ⟨count, hv⟩, rfl⟩

theorem repeatedItem_cases (owner : Owner) (r : Repetition) (item : Symbol) (g : Generated) :
    (∃ most, r.upper = some most ∧ repeatedItem owner r item g = (limitedRights r most item, g)) ∨
      (r.upper = none ∧ repeatedItem owner r item g =
        (unlimitedRights r item (owner.declared + g.rules.size),
          (generate owner (listRights item) g).2)) := by
  unfold repeatedItem
  cases hmost : r.upper with
  | some most => exact .inl ⟨most, rfl, rfl⟩
  | none =>
    refine .inr ⟨rfl, ?_⟩
    dsimp only
    rw [run_bind]
    unfold unlimitedRights
    split <;> rfl

theorem grows_repeatedItem (owner : Owner) (r : Repetition) (item : Symbol) (g : Generated) :
    g.Grows (repeatedItem owner r item g).2 := by
  rcases repeatedItem_cases owner r item g with ⟨most, -, heq⟩ | ⟨-, heq⟩
  · rw [heq]
    exact .refl g
  · rw [heq]
    dsimp only
    exact grows_generate

theorem rightsWithin_limitedRights {rules : Nat} {item : Symbol} (hitem : item.Within lex rules)
    (r : Repetition) (most : Nat) : RightsWithin lex rules (limitedRights r most item) := by
  intro rhs hrhs s hs
  obtain ⟨count, -, rfl⟩ := List.mem_map.1 hrhs
  rwa [List.eq_of_mem_replicate hs]

theorem rightsWithin_listRights {id : Nat} {item : Symbol} (hitem : item.Within lex id) :
    RightsWithin lex (id + 1) (listRights item id) := by
  intro rhs hrhs s hs
  have hitem' := hitem.mono (Nat.le_succ id)
  have hself : Symbol.Within lex (id + 1) (.rule id) := Nat.lt_succ_self id
  simp only [listRights, List.mem_cons, List.not_mem_nil, or_false] at hrhs
  rcases hrhs with rfl | rfl
  · rwa [List.mem_singleton.1 hs]
  · rcases List.mem_cons.1 hs with rfl | hs
    · exact hself
    · rwa [List.mem_singleton.1 hs]

theorem rightsWithin_unlimitedRights {id : Nat} {item : Symbol} (hitem : item.Within lex id)
    (r : Repetition) : RightsWithin lex (id + 1) (unlimitedRights r item id) := by
  intro rhs hrhs s hs
  have hitem' := hitem.mono (Nat.le_succ id)
  have hself : Symbol.Within lex (id + 1) (.rule id) := Nat.lt_succ_self id
  unfold unlimitedRights at hrhs
  split at hrhs
  · simp only [List.mem_cons, List.not_mem_nil, or_false] at hrhs
    rcases hrhs with rfl | rfl
    · exact nomatch hs
    · rwa [List.mem_singleton.1 hs]
  · rw [List.mem_singleton.1 hrhs] at hs
    rcases List.mem_append.1 hs with hs | hs
    · rwa [List.eq_of_mem_replicate hs]
    · rwa [List.mem_singleton.1 hs]

theorem sound_repeatedItem (r : Repetition) {item : Symbol} {g : Generated}
    (h : g.Sound lex owner.declared) (hitem : item.Within lex (owner.declared + g.rules.size)) :
    (repeatedItem owner r item g).2.Sound lex owner.declared ∧ RightsWithin lex
      (owner.declared + (repeatedItem owner r item g).2.rules.size)
      (repeatedItem owner r item g).1 := by
  rcases repeatedItem_cases owner r item g with ⟨most, -, heq⟩ | ⟨-, heq⟩
  · rw [heq]
    exact ⟨h, rightsWithin_limitedRights hitem r most⟩
  · rw [heq]
    dsimp only
    refine ⟨sound_generate h (rightsWithin_listRights hitem), ?_⟩
    rw [size_generate]
    exact rightsWithin_unlimitedRights hitem r

/-- As many items as a repetition allows. -/
theorem language_le_repeatedItem (r : Repetition) {item : Symbol} {g : Generated}
    {i : Interpretation} (closed : i.ClosedFor (repeatedItem owner r item g).2.rules) :
    r.language (i.symbol item) ≤ i.alternatives (repeatedItem owner r item g).1 := by
  rcases repeatedItem_cases owner r item g with ⟨most, hmost, heq⟩ | ⟨hmost, heq⟩
  · rw [heq]
    exact le_of_eq (alternatives_limitedRights hmost i item).symm
  · rw [heq] at closed ⊢
    dsimp only at closed ⊢
    obtain ⟨-, hle⟩ := closedFor_generate.1 closed
    rw [alternatives_listRights] at hle
    refine le_alternatives_unlimitedRights hmost fun count => ?_
    induction count with
    | zero =>
      rw [Nat.zero_add, pow_one]
      exact le_trans le_self_add hle
    | succ count ih =>
      rw [pow_succ]
      exact le_trans (mul_le_mul_left ih _) (le_trans le_add_self hle)

/-- The list of items may be given the words of one or more of them, and then there are no
others. -/
theorem exists_repeatedItem_le (r : Repetition) {item : Symbol} {g : Generated}
    (h : g.Sound lex owner.declared) (hitem : item.Within lex (owner.declared + g.rules.size))
    {i : Interpretation} (closed : i.ClosedFor g.rules) :
    ∃ j : Interpretation, Agrees (owner.declared + g.rules.size) i j ∧
      j.ClosedFor (repeatedItem owner r item g).2.rules ∧
      j.alternatives (repeatedItem owner r item g).1 ≤ r.language (i.symbol item) := by
  rcases repeatedItem_cases owner r item g with ⟨most, hmost, heq⟩ | ⟨hmost, heq⟩
  · rw [heq]
    exact ⟨i, fun _ _ => rfl, closed, le_of_eq (alternatives_limitedRights hmost i item)⟩
  · rw [heq]
    dsimp only
    let list := owner.declared + g.rules.size
    let l := i.symbol item
    have hl : (i.set list (l * l∗)).symbol item = l := (agrees_set i list _).symbol_eq hitem
    refine ⟨i.set list (l * l∗), agrees_set i _ _, closedFor_generate_set h closed ?_, ?_⟩
    · rw [alternatives_listRights, hl, set_self]
      refine add_le ?_ ?_
      · have hone := mul_le_mul_right (one_le_kstar (a := l)) l
        rwa [mul_one] at hone
      · rw [mul_assoc]
        exact mul_le_mul_right kstar_mul_le_kstar l
    · have hlist : ∀ w ∈ i.set list (l * l∗) list,
          ∃ count, w ∈ (i.set list (l * l∗)).symbol item ^ (count + 1) := by
        intro w hw
        rw [set_self] at hw
        rw [hl]
        exact mem_mul_kstar_iff.1 hw
      have hle := alternatives_unlimitedRights_le hmost item list hlist
      rwa [hl] at hle

theorem Denotes.repeated {once : Flattening Alternatives} {l : Interpretation → Language Nat}
    (h : Denotes lex owner once l) (r : Repetition) :
    Denotes lex owner (repeatedAlternatives owner r once) fun i => r.language (l i) := by
  unfold repeatedAlternatives
  split
  · rename_i hr
    simpa only [hr, Repetition.language_once] using h
  · constructor
    case congr => exact fun i j agrees => congrArg _ (h.congr i j agrees)
    case grows =>
      intro g
      rw [run_bind, run_bind]
      exact ((h.grows g).trans (grows_symbolFor owner _ _)).trans (grows_repeatedItem owner r _ _)
    case sound =>
      intro g hg
      rw [run_bind, run_bind]
      obtain ⟨honce, hrights⟩ := h.sound g hg
      obtain ⟨hsymbol, hitem⟩ := sound_symbolFor honce hrights
      exact sound_repeatedItem r hsymbol hitem
    case complete =>
      intro g i
      rw [run_bind, run_bind]
      intro closed
      have hsymbol := (grows_repeatedItem owner r _ _).closedFor closed
      have honce := (grows_symbolFor owner _ _).closedFor hsymbol
      refine le_trans (r.language_mono ?_) (language_le_repeatedItem r closed)
      exact le_trans (h.complete g i honce) (alternatives_le_symbolFor hsymbol)
    case extends_ =>
      intro g i hg closed
      rw [run_bind, run_bind]
      obtain ⟨honce, hrights⟩ := h.sound g hg
      obtain ⟨hsymbol, hitem⟩ := sound_symbolFor honce hrights
      obtain ⟨j, agrees, closedOnce, hle⟩ := h.extends_ g i hg closed
      obtain ⟨j', agrees', closedSymbol, hle'⟩ := exists_symbolFor_le honce hrights closedOnce
      obtain ⟨k, agrees'', closedItem, hle''⟩ := exists_repeatedItem_le r hsymbol hitem closedSymbol
      have hsize := (h.grows g).size_le
      have hsize' := (grows_symbolFor owner (once g).1 (once g).2).size_le
      refine ⟨k, (agrees.trans ?_ agrees').trans ?_ agrees'', closedItem, ?_⟩
      · omega
      · omega
      · exact le_trans hle'' (r.language_mono (le_trans hle' hle))

/-! ## Joined parts -/

theorem alternatives_append (i : Interpretation) (as bs : Alternatives) :
    i.alternatives (as ++ bs) = i.alternatives as + i.alternatives bs := by
  ext w
  rw [mem_alternatives, Language.mem_add, mem_alternatives, mem_alternatives]
  simp only [List.mem_append, or_and_right, exists_or]

theorem alternatives_flatten (i : Interpretation) (parts : List Alternatives) :
    i.alternatives parts.flatten = (parts.map i.alternatives).sum := by
  induction parts with
  | nil =>
    ext w
    simp [mem_alternatives]
  | cons part rest ih =>
    rw [List.flatten_cons, alternatives_append, ih, List.map_cons, List.sum_cons]

theorem alternatives_concatenations (i : Interpretation) (parts : List Alternatives) :
    i.alternatives (concatenations parts) = (parts.map i.alternatives).prod := by
  induction parts with
  | nil =>
    ext w
    simp [mem_alternatives, concatenations]
  | cons heads rest ih =>
    rw [List.map_cons, List.prod_cons, ← ih]
    ext w
    rw [mem_alternatives, Language.mem_mul]
    simp only [concatenations, List.mem_flatMap, List.mem_map, mem_alternatives]
    constructor
    · rintro ⟨_, ⟨head, hhead, tail, htail, rfl⟩, hw⟩
      rw [sequence_append] at hw
      obtain ⟨u, hu, v, hv, rfl⟩ := Language.mem_mul.1 hw
      exact ⟨u, ⟨head, hhead, hu⟩, v, ⟨tail, htail, hv⟩, rfl⟩
    · rintro ⟨u, ⟨head, hhead, hu⟩, v, ⟨tail, htail, hv⟩, rfl⟩
      refine ⟨head ++ tail, ⟨head, hhead, tail, htail, rfl⟩, ?_⟩
      rw [sequence_append]
      exact Language.append_mem_mul hu hv

theorem alternatives_joinAlternatives (i : Interpretation) (join : Join)
    (parts : List Alternatives) :
    i.alternatives (joinAlternatives join parts) = join.language (parts.map i.alternatives) := by
  cases join with
  | choice => exact alternatives_flatten i parts
  | sequence => exact alternatives_concatenations i parts

theorem rightsWithin_joinAlternatives {rules : Nat} (join : Join) {parts : List Alternatives}
    (h : ∀ part ∈ parts, RightsWithin lex rules part) :
    RightsWithin lex rules (joinAlternatives join parts) := by
  cases join with
  | choice =>
    intro rhs hrhs
    obtain ⟨part, hpart, hrhs⟩ := List.mem_flatten.1 hrhs
    exact h part hpart rhs hrhs
  | sequence =>
    show RightsWithin lex rules (concatenations parts)
    induction parts with
    | nil =>
      intro rhs hrhs s hs
      rw [List.mem_singleton.1 hrhs] at hs
      exact nomatch hs
    | cons heads rest ih =>
      obtain ⟨hheads, hrest⟩ := List.forall_mem_cons.1 h
      intro rhs hrhs s hs
      simp only [concatenations, List.mem_flatMap, List.mem_map] at hrhs
      obtain ⟨head, hhead, tail, htail, rfl⟩ := hrhs
      rcases List.mem_append.1 hs with hs | hs
      · exact hheads head hhead s hs
      · exact ih hrest tail htail s hs

/-- An action answers with alternatives for each of some languages, as `Denotes` says of one. -/
structure DenotesAll (lex : Nat) (owner : Owner) (action : Flattening (List Alternatives))
    (ls : Interpretation → List (Language Nat)) : Prop where
  congr : ∀ i j, Agrees owner.declared i j → ls j = ls i
  grows : ∀ g : Generated, g.Grows (action g).2
  sound : ∀ g : Generated, g.Sound lex owner.declared → (action g).2.Sound lex owner.declared ∧
    ∀ rights ∈ (action g).1, RightsWithin lex (owner.declared + (action g).2.rules.size) rights
  complete : ∀ (g : Generated) (i : Interpretation), i.ClosedFor (action g).2.rules →
    List.Forall₂ (· ≤ ·) (ls i) ((action g).1.map i.alternatives)
  extends_ : ∀ (g : Generated) (i : Interpretation), g.Sound lex owner.declared →
    i.ClosedFor g.rules →
    ∃ j : Interpretation, Agrees (owner.declared + g.rules.size) i j ∧
      j.ClosedFor (action g).2.rules ∧
      List.Forall₂ (· ≤ ·) ((action g).1.map j.alternatives) (ls i)

theorem DenotesAll.nil : DenotesAll lex owner (pure []) fun _ => [] :=
  ⟨fun _ _ _ => rfl, fun g => .refl g, fun _ hg => ⟨hg, fun _ h => nomatch h⟩, fun _ _ _ => .nil,
    fun _ i _ closed => ⟨i, fun _ _ => rfl, closed, .nil⟩⟩

theorem DenotesAll.cons {first : Flattening Alternatives} {rest : Flattening (List Alternatives)}
    {l : Interpretation → Language Nat} {ls : Interpretation → List (Language Nat)}
    (h : Denotes lex owner first l) (hrest : DenotesAll lex owner rest ls) :
    DenotesAll lex owner
      (do
        let head ← first
        let tail ← rest
        pure (head :: tail))
      fun i => l i :: ls i := by
  constructor
  case congr => exact fun i j agrees => congrArg₂ _ (h.congr i j agrees) (hrest.congr i j agrees)
  case grows => exact fun g => (h.grows g).trans (hrest.grows _)
  case sound =>
    intro g hg
    obtain ⟨hfirst, hhead⟩ := h.sound g hg
    obtain ⟨hsound, htail⟩ := hrest.sound _ hfirst
    refine ⟨hsound, List.forall_mem_cons.2 ⟨hhead.mono ?_, htail⟩⟩
    have := (hrest.grows (first g).2).size_le
    show _ ≤ owner.declared + (rest (first g).2).2.rules.size
    omega
  case complete =>
    intro g i closed
    exact .cons (h.complete g i ((hrest.grows _).closedFor closed)) (hrest.complete _ i closed)
  case extends_ =>
    intro g i hg closed
    obtain ⟨hfirst, hhead⟩ := h.sound g hg
    obtain ⟨j, agrees, closedFirst, hle⟩ := h.extends_ g i hg closed
    obtain ⟨k, agrees', closedRest, hall⟩ := hrest.extends_ _ j hfirst closedFirst
    have hsize := (h.grows g).size_le
    refine ⟨k, agrees.trans (by omega) agrees', closedRest, .cons ?_ ?_⟩
    · rwa [agrees'.alternatives_eq hhead]
    · rwa [hrest.congr i j fun id hid => agrees id (Nat.lt_of_lt_of_le hid (Nat.le_add_right _ _))]
        at hall

theorem DenotesAll.joined {action : Flattening (List Alternatives)}
    {ls : Interpretation → List (Language Nat)} (h : DenotesAll lex owner action ls) (join : Join) :
    Denotes lex owner
      (do
        let parts ← action
        pure (joinAlternatives join parts))
      fun i => join.language (ls i) := by
  constructor
  case congr => exact fun i j agrees => congrArg _ (h.congr i j agrees)
  case grows => exact h.grows
  case sound =>
    intro g hg
    obtain ⟨hsound, hparts⟩ := h.sound g hg
    exact ⟨hsound, rightsWithin_joinAlternatives join hparts⟩
  case complete =>
    intro g i closed
    show _ ≤ i.alternatives (joinAlternatives join (action g).1)
    rw [alternatives_joinAlternatives]
    exact join.language_mono (h.complete g i closed)
  case extends_ =>
    intro g i hg closed
    obtain ⟨j, agrees, closedParts, hall⟩ := h.extends_ g i hg closed
    refine ⟨j, agrees, closedParts, ?_⟩
    show j.alternatives (joinAlternatives join (action g).1) ≤ _
    rw [alternatives_joinAlternatives]
    exact join.language_mono hall

/-! ## Expressions -/

mutual

/-- Flattening an expression denotes its language. -/
theorem denotes_alternatives (owner : Owner) : ∀ e : Expr Symbol,
    (∀ s ∈ e.terminals, s.Within lex owner.declared) →
      Denotes lex owner (alternatives owner e) fun i => e.language i.symbol
  | .leaf m s, h => (denotes_leaf (h s List.mem_cons_self)).repeated m.repetition
  | .node m join parts, h => by
    have hparts := ((denotesAll_partAlternatives owner parts h).joined join).repeated m.repetition
    simp only [Expr.language_node]
    exact hparts

theorem denotesAll_partAlternatives (owner : Owner) : ∀ parts : List (Expr Symbol),
    (∀ s ∈ Expr.terminalsOfParts parts, s.Within lex owner.declared) →
    DenotesAll lex owner (partAlternatives owner parts) fun i =>
      parts.map (Expr.language i.symbol)
  | [], _ => .nil
  | part :: rest, h =>
    .cons (denotes_alternatives owner part fun s hs => h s (List.mem_append_left _ hs))
      (denotesAll_partAlternatives owner rest fun s hs => h s (List.mem_append_right _ hs))

end

/-! ## All bodies -/

/-- A rule is the one declared for a body, not marked yet, and the numbers in its productions are in
range. -/
structure Declares (lex rules : Nat) (declared : (String × Expr Symbol) × Nat)
    (r : Rule) : Prop where
  id_eq : r.id = declared.2
  name_eq : r.name = declared.1.1
  unmarked : r.nullable = false
  lhs_eq : ∀ p ∈ r.productions, p.lhs = r.id
  within : ∀ p ∈ r.productions, ∀ s ∈ p.rhs, s.Within lex rules

section

variable {declared : Nat}

theorem grows_flattenFrom (bodies : List (String × Expr Symbol))
    (h : ∀ b ∈ bodies, ∀ s ∈ b.2.terminals, s.Within lex declared) (id : Nat) (rules : Array Rule) :
    Generated.Grows ⟨rules, 0⟩ ⟨(flattenFrom declared id rules bodies).2, 0⟩ := by
  induction bodies generalizing id rules with
  | nil => exact .refl _
  | cons body rest ih =>
    obtain ⟨hbody, hrest⟩ := List.forall_mem_cons.1 h
    have hgrows := (denotes_alternatives ⟨body.1, declared⟩ body.2 hbody).grows ⟨rules, 0⟩
    have hmore := ih hrest (id + 1) (alternatives ⟨body.1, declared⟩ body.2 ⟨rules, 0⟩).2.rules
    exact ⟨Nat.le_trans hgrows.size_le hmore.size_le,
      (hgrows.trans ⟨hmore.size_le, hmore.kept⟩).kept⟩

/-- The rules of the bodies are numbered one after the other. -/
theorem declares_flattenFrom (bodies : List (String × Expr Symbol))
    (h : ∀ b ∈ bodies, ∀ s ∈ b.2.terminals, s.Within lex declared) (id : Nat) (rules : Array Rule)
    (sound : Generated.Sound lex declared ⟨rules, 0⟩) :
    Generated.Sound lex declared ⟨(flattenFrom declared id rules bodies).2, 0⟩ ∧
      List.Forall₂ (Declares lex (declared + (flattenFrom declared id rules bodies).2.size))
        (bodies.zipIdx id) (flattenFrom declared id rules bodies).1 := by
  induction bodies generalizing id rules with
  | nil => exact ⟨sound, .nil⟩
  | cons body rest ih =>
    obtain ⟨hbody, hrest⟩ := List.forall_mem_cons.1 h
    have hdenotes := denotes_alternatives ⟨body.1, declared⟩ body.2 hbody
    obtain ⟨hsound, hrights⟩ := hdenotes.sound ⟨rules, 0⟩ sound
    obtain ⟨hfinal, hall⟩ := ih hrest (id + 1) _ hsound
    have hsize := (grows_flattenFrom rest hrest (id + 1)
      (alternatives ⟨body.1, declared⟩ body.2 ⟨rules, 0⟩).2.rules).size_le
    refine ⟨hfinal, .cons ⟨rfl, rfl, rfl, fun p hp => ?_, fun p hp => ?_⟩ hall⟩
    · obtain ⟨rhs, -, rfl⟩ := List.mem_map.1 hp
      rfl
    · obtain ⟨rhs, hrhs, rfl⟩ := List.mem_map.1 hp
      exact hrights.mono (Nat.add_le_add_left hsize declared) rhs hrhs

/-- Where the generated productions are closed, a rule whose own ones are has the words of its
body. -/
theorem language_le_of_flattenFrom (bodies : List (String × Expr Symbol))
    (h : ∀ b ∈ bodies, ∀ s ∈ b.2.terminals, s.Within lex declared) (id : Nat) (rules : Array Rule)
    {i : Interpretation} (closed : i.ClosedFor (flattenFrom declared id rules bodies).2) :
    List.Forall₂ (fun b r => i.Closed r.productions → b.1.2.language i.symbol ≤ i b.2)
      (bodies.zipIdx id) (flattenFrom declared id rules bodies).1 := by
  induction bodies generalizing id rules with
  | nil => exact .nil
  | cons body rest ih =>
    obtain ⟨hbody, hrest⟩ := List.forall_mem_cons.1 h
    have hdenotes := denotes_alternatives ⟨body.1, declared⟩ body.2 hbody
    refine .cons (fun hclosed => ?_) (ih hrest (id + 1) _ closed)
    have hgenerated := (grows_flattenFrom rest hrest (id + 1)
      (alternatives ⟨body.1, declared⟩ body.2 ⟨rules, 0⟩).2.rules).closedFor closed
    exact le_trans (hdenotes.complete ⟨rules, 0⟩ i hgenerated) (closed_productionsOf.1 hclosed)

/-- Languages for the declared rules that have the words of their bodies extend to the generated
rules. -/
theorem exists_closed_flattenFrom (bodies : List (String × Expr Symbol))
    (h : ∀ b ∈ bodies, ∀ s ∈ b.2.terminals, s.Within lex declared) (id : Nat) (rules : Array Rule)
    (sound : Generated.Sound lex declared ⟨rules, 0⟩) {i : Interpretation}
    (closed : i.ClosedFor rules)
    (fits : ∀ b ∈ bodies.zipIdx id, b.2 < declared ∧ b.1.2.language i.symbol ≤ i b.2) :
    ∃ j : Interpretation, Agrees (declared + rules.size) i j ∧
      j.ClosedFor (flattenFrom declared id rules bodies).2 ∧
      ∀ r ∈ (flattenFrom declared id rules bodies).1, j.Closed r.productions := by
  induction bodies generalizing id rules i with
  | nil => exact ⟨i, fun _ _ => rfl, closed, fun _ hr => nomatch hr⟩
  | cons body rest ih =>
    obtain ⟨hbody, hrest⟩ := List.forall_mem_cons.1 h
    obtain ⟨⟨hid, hle⟩, hfits⟩ := List.forall_mem_cons.1 fits
    dsimp only at hid hle
    have hdenotes := denotes_alternatives ⟨body.1, declared⟩ body.2 hbody
    obtain ⟨hsound, hrights⟩ := hdenotes.sound ⟨rules, 0⟩ sound
    obtain ⟨j, agrees, hclosed, hwords⟩ := hdenotes.extends_ ⟨rules, 0⟩ i sound closed
    have hagrees : Agrees declared i j :=
      fun k hk => agrees k (Nat.lt_of_lt_of_le hk (Nat.le_add_right _ _))
    have hfits' : ∀ b ∈ rest.zipIdx (id + 1), b.2 < declared ∧ b.1.2.language j.symbol ≤ j b.2 := by
      intro b hb
      obtain ⟨hlt, hb'⟩ := hfits b hb
      have hmem : b.1 ∈ rest := List.fst_mem_of_mem_zipIdx hb
      have hcongr := (denotes_alternatives ⟨b.1.1, declared⟩ b.1.2 (hrest b.1 hmem)).congr
        i j hagrees
      rw [hcongr, hagrees b.2 hlt]
      exact ⟨hlt, hb'⟩
    obtain ⟨k, agrees', hclosed', hall⟩ := ih hrest (id + 1) _ hsound hclosed hfits'
    have hsize := (hdenotes.grows ⟨rules, 0⟩).size_le
    refine ⟨k, agrees.trans (Nat.add_le_add_left hsize declared) agrees', hclosed',
      List.forall_mem_cons.2 ⟨closed_productionsOf.2 ?_, hall⟩⟩
    have hk : k id = i id :=
      (agrees' id (Nat.lt_of_lt_of_le hid (Nat.le_add_right _ _))).trans (hagrees id hid)
    rw [hk]
    calc k.alternatives (alternatives ⟨body.1, declared⟩ body.2 ⟨rules, 0⟩).1
        = j.alternatives (alternatives ⟨body.1, declared⟩ body.2 ⟨rules, 0⟩).1 :=
          agrees'.alternatives_eq hrights
      _ ≤ body.2.language i.symbol := hwords
      _ ≤ i id := hle

end

/-- Flattening all bodies gives a rule for each of them and the rules generated for them, numbered
one after the other, none of them marked, with all numbers in range. -/
theorem getElem?_flatten {bodies : List (String × Expr Symbol)}
    (h : ∀ b ∈ bodies, ∀ s ∈ b.2.terminals, s.Within lex bodies.length) {id : Nat} {r : Rule}
    (hr : (flatten bodies)[id]? = some r) :
    r.id = id ∧ r.nullable = false ∧ (∀ p ∈ r.productions, p.lhs = r.id) ∧
      ∀ p ∈ r.productions, ∀ s ∈ p.rhs, s.Within lex (flatten bodies).length := by
  obtain ⟨hsound, hall⟩ := declares_flattenFrom bodies h 0 #[] (fun k r hr => by simp at hr)
  unfold flatten at hr ⊢
  generalize flattenFrom bodies.length 0 #[] bodies = out at *
  obtain ⟨declared, generated⟩ := out
  dsimp only at *
  have hlength : declared.length = bodies.length := by
    rw [← hall.length_eq, List.length_zipIdx]
  rw [List.length_append, hlength, Array.length_toList]
  rw [List.getElem?_append] at hr
  split at hr
  · obtain ⟨⟨body, k⟩, hk, hdeclares⟩ := forall₂_getElem?_right hall hr
    rw [List.getElem?_zipIdx] at hk
    obtain ⟨body', -, heq⟩ := Option.map_eq_some_iff.1 hk
    obtain ⟨-, rfl⟩ := Prod.mk.inj heq
    refine ⟨?_, hdeclares.unmarked, hdeclares.lhs_eq, hdeclares.within⟩
    rw [hdeclares.id_eq]
    exact Nat.zero_add id
  · rename_i hge
    rw [Array.getElem?_toList, hlength] at hr
    obtain ⟨hid, hunmarked, hproductions⟩ := hsound _ r hr
    exact ⟨by omega, hunmarked, fun p hp => (hproductions p hp).1,
      fun p hp => (hproductions p hp).2⟩

/-- The rule of a body stands at its position. -/
theorem getElem?_flatten_of_body {bodies : List (String × Expr Symbol)}
    (h : ∀ b ∈ bodies, ∀ s ∈ b.2.terminals, s.Within lex bodies.length) {id : Nat}
    {body : String × Expr Symbol} (hbody : bodies[id]? = some body) :
    ∃ r, (flatten bodies)[id]? = some r ∧ r.name = body.1 := by
  obtain ⟨-, hall⟩ := declares_flattenFrom bodies h 0 #[] (fun k r hr => by simp at hr)
  have hzip : (bodies.zipIdx 0)[id]? = some (body, 0 + id) := by
    rw [List.getElem?_zipIdx, hbody]
    rfl
  obtain ⟨r, hr, hdeclares⟩ := forall₂_getElem?_left hall hzip
  refine ⟨r, ?_, hdeclares.name_eq⟩
  unfold flatten
  dsimp only
  rw [List.getElem?_append_left (List.getElem?_eq_some_iff.1 hr).1]
  exact hr

theorem closed_flatten_iff {bodies : List (String × Expr Symbol)} {i : Interpretation} :
    i.Closed ((flatten bodies).flatMap Rule.productions) ↔
      (∀ r ∈ (flattenFrom bodies.length 0 #[] bodies).1, i.Closed r.productions) ∧
        i.ClosedFor (flattenFrom bodies.length 0 #[] bodies).2 := by
  unfold flatten Closed ClosedFor Closed
  simp only [List.flatMap_append, List.mem_append, List.mem_flatMap, Array.mem_toList_iff]
  constructor
  · intro h
    exact ⟨fun r hr p hp => h p (.inl ⟨r, hr, hp⟩), fun r hr p hp => h p (.inr ⟨r, hr, hp⟩)⟩
  · rintro ⟨hdeclared, hgenerated⟩ p (⟨r, hr, hp⟩ | ⟨r, hr, hp⟩)
    · exact hdeclared r hr p hp
    · exact hgenerated r hr p hp

/-- Interpretations that are closed under all productions give every rule the words of its body. -/
theorem language_le_of_closed_flatten {bodies : List (String × Expr Symbol)}
    (h : ∀ b ∈ bodies, ∀ s ∈ b.2.terminals, s.Within lex bodies.length) {i : Interpretation}
    (closed : i.Closed ((flatten bodies).flatMap Rule.productions)) {id : Nat}
    {body : String × Expr Symbol} (hbody : bodies[id]? = some body) :
    body.2.language i.symbol ≤ i id := by
  obtain ⟨hdeclared, hgenerated⟩ := closed_flatten_iff.1 closed
  have hall := language_le_of_flattenFrom bodies h 0 #[] hgenerated
  have hzip : (bodies.zipIdx 0)[id]? = some (body, id) := by
    rw [List.getElem?_zipIdx, hbody, Nat.zero_add]
    rfl
  obtain ⟨r, hr, hle⟩ := forall₂_getElem?_left hall hzip
  exact hle (hdeclared r (List.mem_of_getElem? hr))

/-- Languages that have the words of the bodies extend to all rules. -/
theorem exists_closed_flatten {bodies : List (String × Expr Symbol)}
    (h : ∀ b ∈ bodies, ∀ s ∈ b.2.terminals, s.Within lex bodies.length) {i : Interpretation}
    (fits : ∀ (id : Nat) (body : String × Expr Symbol), bodies[id]? = some body →
      body.2.language i.symbol ≤ i id) :
    ∃ j : Interpretation, Agrees bodies.length i j ∧
      j.Closed ((flatten bodies).flatMap Rule.productions) := by
  have hfits : ∀ b ∈ bodies.zipIdx 0, b.2 < bodies.length ∧ b.1.2.language i.symbol ≤ i b.2 := by
    rintro ⟨body, id⟩ hb
    have hid := List.mem_zipIdx_iff_getElem?.1 hb
    exact ⟨(List.getElem?_eq_some_iff.1 hid).1, fits id body hid⟩
  obtain ⟨j, agrees, hgenerated, hdeclared⟩ := exists_closed_flattenFrom bodies h 0 #[]
    (fun k r hr => by simp at hr) (i := i) (fun r hr => by simp at hr) hfits
  exact ⟨j, agrees, closed_flatten_iff.2 ⟨hdeclared, hgenerated⟩⟩

end Grammar

end LexChart
