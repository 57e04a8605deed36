import LexChart.Proofs.Grammar.Build
set_option autoImplicit false

/-!
# Names of generated rules

While the body of a rule is flattened, the rules generated for it are named after it and numbered
from zero.  `Serves` says so of one action, and is kept from action to action; the rules of a
grammar are then the declared ones under their own names, and behind them, rule after rule, those
that serve them.
-/

namespace LexChart.Grammar

/-- The name of a generated rule, given the rule that it serves and how many serve it already. -/
def generatedName (owner : String) (count : Nat) : String := owner ++ "#" ++ toString count

/-- The name of a rule, and whether it is generated. -/
def label (r : Rule) : String × Bool := (r.name, r.generated)

/-- Rules are added that serve one rule, named and numbered in a row. -/
def Generated.Serves (owner : String) (g g' : Generated) : Prop :=
  ∃ more : List Rule, g'.rules.toList = g.rules.toList ++ more ∧
    g'.count = g.count + more.length ∧
    more.map label =
      (List.range' g.count more.length).map fun count => (generatedName owner count, true)

namespace Generated.Serves

theorem refl (owner : String) (g : Generated) : g.Serves owner g :=
  ⟨[], (List.append_nil _).symm, rfl, rfl⟩

theorem trans {owner : String} {g g' g'' : Generated} (h : g.Serves owner g')
    (h' : g'.Serves owner g'') : g.Serves owner g'' := by
  obtain ⟨first, hrules, hcount, hlabels⟩ := h
  obtain ⟨second, hrules', hcount', hlabels'⟩ := h'
  refine ⟨first ++ second, ?_, ?_, ?_⟩
  · rw [hrules', hrules, List.append_assoc]
  · rw [hcount', hcount, List.length_append, Nat.add_assoc]
  · rw [List.map_append, hlabels, hlabels', hcount, ← List.map_append, List.length_append,
      List.range'_append_1]

end Generated.Serves

section

variable {owner : Owner}

theorem serves_generate (owner : Owner) (rights : Nat → Alternatives) (g : Generated) :
    g.Serves owner.name (generate owner rights g).2 := by
  rw [generate_apply]
  exact ⟨[nextRule owner g _], Array.toList_push .., rfl, rfl⟩

theorem serves_symbolFor (owner : Owner) (rights : Alternatives) (g : Generated) :
    g.Serves owner.name (symbolFor owner rights g).2 := by
  rcases symbolFor_cases owner rights g with ⟨s, -, heq⟩ | heq
  · rw [heq]
    exact .refl _ g
  · rw [heq]
    dsimp only
    exact serves_generate owner _ g

theorem serves_repeatedItem (owner : Owner) (r : Repetition) (item : Symbol) (g : Generated) :
    g.Serves owner.name (repeatedItem owner r item g).2 := by
  rcases repeatedItem_cases owner r item g with ⟨most, -, heq⟩ | ⟨-, heq⟩
  · rw [heq]
    exact .refl _ g
  · rw [heq]
    dsimp only
    exact serves_generate owner _ g

theorem serves_repeatedAlternatives {once : Flattening Alternatives}
    (h : ∀ g : Generated, g.Serves owner.name (once g).2) (r : Repetition) (g : Generated) :
    g.Serves owner.name (repeatedAlternatives owner r once g).2 := by
  unfold repeatedAlternatives
  split
  · exact h g
  · rw [run_bind, run_bind]
    exact ((h g).trans (serves_symbolFor owner _ _)).trans (serves_repeatedItem owner r _ _)

mutual

/-- Flattening a body adds rules that serve its rule. -/
theorem serves_alternatives (owner : Owner) : ∀ (e : Expr Symbol) (g : Generated),
    g.Serves owner.name (alternatives owner e g).2
  | .leaf m s, g => by
    rw [alternatives]
    exact serves_repeatedAlternatives (fun g => .refl _ g) m.repetition g
  | .node m join parts, g => by
    rw [alternatives]
    exact serves_repeatedAlternatives (serves_partAlternatives owner parts) m.repetition g

theorem serves_partAlternatives (owner : Owner) : ∀ (parts : List (Expr Symbol)) (g : Generated),
    g.Serves owner.name (partAlternatives owner parts g).2
  | [], g => .refl _ g
  | part :: rest, g => by
    rw [partAlternatives]
    exact (serves_alternatives owner part g).trans (serves_partAlternatives owner rest _)

end

end

/-! ## All rules -/

/-- The names of generated rules, given how many serve each rule. -/
def generatedNames (served : List (String × Nat)) : List String :=
  served.flatMap fun rule => (List.range rule.2).map (generatedName rule.1)

/-- The rules of some bodies: a declared one for each of them, under its name, and generated ones
that serve them one after the other. -/
structure Named (owners : List String) (declared generated : List Rule) : Prop where
  declared_labels : declared.map label = owners.map fun name => (name, false)
  generated_labels : ∃ served : List (String × Nat), served.map Prod.fst = owners ∧
    generated.map label = (generatedNames served).map fun name => (name, true)

section

variable {owners : List String} {declared generated : List Rule}

theorem Named.declared_names (h : Named owners declared generated) :
    declared.map Rule.name = owners := by
  have hnames := congrArg (List.map Prod.fst) h.declared_labels
  simp only [List.map_map] at hnames
  exact hnames.trans (List.map_id owners)

theorem Named.generated_names (h : Named owners declared generated) :
    ∃ served : List (String × Nat), served.map Prod.fst = owners ∧
      generated.map Rule.name = generatedNames served := by
  obtain ⟨served, howners, hlabels⟩ := h.generated_labels
  have hnames := congrArg (List.map Prod.fst) hlabels
  simp only [List.map_map] at hnames
  exact ⟨served, howners, hnames.trans (List.map_id _)⟩

/-- Exactly the rules behind the declared ones are generated. -/
theorem Named.generated_iff (h : Named owners declared generated) {id : Nat} {r : Rule}
    (hr : (declared ++ generated)[id]? = some r) : r.generated = true ↔ owners.length ≤ id := by
  have hlength : declared.length = owners.length := by
    rw [← h.declared_names, List.length_map]
  rw [List.getElem?_append, hlength] at hr
  split at hr
  · rename_i hlt
    have hlabel := List.mem_map_of_mem (f := label) (List.mem_of_getElem? hr)
    rw [h.declared_labels] at hlabel
    obtain ⟨name, -, heq⟩ := List.mem_map.1 hlabel
    have hflag : r.generated = false := (Prod.mk.inj heq).2.symm
    simp [hflag, hlt]
  · rename_i hge
    obtain ⟨served, -, hlabels⟩ := h.generated_labels
    have hlabel := List.mem_map_of_mem (f := label) (List.mem_of_getElem? hr)
    rw [hlabels] at hlabel
    obtain ⟨name, -, heq⟩ := List.mem_map.1 hlabel
    have hflag : r.generated = true := (Prod.mk.inj heq).2.symm
    simp only [hflag, true_iff]
    omega

end

theorem named_flattenFrom (limit : Nat) (bodies : List (String × Expr Symbol)) (id : Nat)
    (rules : Array Rule) : ∃ more : List Rule,
    (flattenFrom limit id rules bodies).2.toList = rules.toList ++ more ∧
      Named (bodies.map Prod.fst) (flattenFrom limit id rules bodies).1 more := by
  induction bodies generalizing id rules with
  | nil => exact ⟨[], (List.append_nil _).symm, rfl, [], rfl, rfl⟩
  | cons body rest ih =>
    obtain ⟨first, hrules, -, hlabels⟩ := serves_alternatives ⟨body.1, limit⟩ body.2 ⟨rules, 0⟩
    obtain ⟨second, hrules', named⟩ :=
      ih (id + 1) (alternatives ⟨body.1, limit⟩ body.2 ⟨rules, 0⟩).2.rules
    obtain ⟨served, howners, hserved⟩ := named.generated_labels
    refine ⟨first ++ second, ?_, ?_, (body.1, first.length) :: served, ?_, ?_⟩
    · rw [← List.append_assoc, ← hrules]
      exact hrules'
    · exact congrArg ((body.1, false) :: ·) named.declared_labels
    · exact congrArg (body.1 :: ·) howners
    · rw [List.map_append, hlabels, hserved, generatedNames, generatedNames, List.flatMap_cons,
        List.map_append, List.map_map, List.range_eq_range']
      rfl

/-- The rules of a grammar are the declared ones and the generated ones behind them. -/
theorem exists_named_markNullable_flatten (bodies : List (String × Expr Symbol)) :
    ∃ declared generated : List Rule, markNullable (flatten bodies) = declared ++ generated ∧
      Named (bodies.map Prod.fst) declared generated := by
  obtain ⟨more, hmore, named⟩ := named_flattenFrom bodies.length bodies 0 #[]
  rw [List.nil_append] at hmore
  have hflatten : flatten bodies = (flattenFrom bodies.length 0 #[] bodies).1 ++ more := by
    rw [← hmore]
    rfl
  have hmap : (markNullable (flatten bodies)).map label = (flatten bodies).map label :=
    map_markNullable _ fun _ _ => rfl
  rw [hflatten, List.map_append] at hmap
  obtain ⟨declared, generated, heq, hdeclared, hgenerated⟩ := List.map_eq_append_iff.1 hmap
  rw [hflatten]
  refine ⟨declared, generated, heq, hdeclared.trans named.declared_labels, ?_⟩
  rw [hgenerated]
  exact named.generated_labels

end LexChart.Grammar
