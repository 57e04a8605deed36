import LexChart.Proofs.Grammar.Built
import LexChart.Proofs.Grammar.Closed
import LexChart.Proofs.Text.Escape
set_option autoImplicit false

/-!
# Names in a grammar

Names are given in four places.  Those of lex rules and rules are checked as they are declared,
those of literals and of generated rules are not.  Literals have different names if they have
different texts, because a text can be read back from its quoted form; generated rules are told
apart by the rule that they serve and their number; and a quoted text does not end in a digit.  So
two names can only be the same if one of them is declared and the other one is made up.
-/

namespace LexChart

/-! ## Names that are made up -/

namespace Declarations

theorem toList_literalName (spelling : String) : ∃ quote content,
    (literalName spelling).toList = content ++ [quote] ∧ quote.isDigit = false := by
  unfold literalName
  split
  · exact ⟨'\'', _, String.toList_ofList .., by decide⟩
  · exact ⟨'"', _, String.toList_ofList .., by decide⟩

/-- Literals of different texts have different names. -/
theorem literalName_inj {s t : String} (h : literalName s = literalName t) : s = t := by
  unfold literalName at h
  apply String.toList_injective
  split at h <;> rename_i hs <;> split at h <;> rename_i ht
  · rw [hs, ht, Text.quotedBareChar_inj h]
  · exact absurd h (Text.quotedBareChar_ne_quotedString _ _)
  · exact absurd h.symm (Text.quotedBareChar_ne_quotedString _ _)
  · exact Text.quotedString_inj h

end Declarations

namespace Grammar

theorem toList_generatedName (owner : String) (count : Nat) :
    (generatedName owner count).toList = owner.toList ++ '#' :: Nat.toDigits 10 count := by
  rw [generatedName, Nat.toString_eq_ofList_toDigits]
  simp

theorem isDigit_of_mem {count : Nat} {c : Char} (h : c ∈ Nat.toDigits 10 count) :
    c.isDigit = true :=
  Nat.isDigit_of_mem_toDigits (by decide) (by decide) h

/-- A generated rule is told from others by the rule that it serves and its number. -/
theorem generatedName_inj {owner owner' : String} {count count' : Nat}
    (h : generatedName owner count = generatedName owner' count') :
    owner = owner' ∧ count = count' := by
  have hlist := congrArg (fun name : String => name.toList.reverse) h
  simp only [toList_generatedName, List.reverse_append, List.reverse_cons, List.append_assoc,
    List.singleton_append] at hlist
  have hhash : ∀ k, '#' ∉ (Nat.toDigits 10 k).reverse := by
    intro k hk
    exact absurd (isDigit_of_mem (List.mem_reverse.1 hk)) (by decide)
  obtain ⟨hdigits, howner⟩ := Text.append_cons_inj (hhash count) (hhash count') hlist
  refine ⟨String.toList_injective (List.reverse_injective howner), ?_⟩
  have hvalue : ∀ k, Nat.ofDigitChars 10 (Nat.toDigits 10 k) 0 = k := fun k =>
    Nat.ofDigitChars_toDigits (by decide) (by decide)
  rw [← hvalue count, List.reverse_injective hdigits, hvalue]

/-- A generated rule ends in a digit, and a literal in a quote. -/
theorem generatedName_ne_literalName (owner : String) (count : Nat) (spelling : String) :
    generatedName owner count ≠ Declarations.literalName spelling := by
  intro h
  obtain ⟨quote, content, hliteral, hquote⟩ := Declarations.toList_literalName spelling
  have hlist := congrArg String.toList h
  rw [toList_generatedName, hliteral] at hlist
  have hmem : quote ∈ Nat.toDigits 10 count := by
    have hlast := congrArg List.getLast? hlist
    rw [List.getLast?_concat, List.getLast?_append_of_ne_nil _ (List.cons_ne_nil _ _),
      List.getLast?_cons_of_ne_nil Nat.toDigits_ne_nil] at hlast
    exact List.mem_of_getLast? hlast
  rw [isDigit_of_mem hmem] at hquote
  cases hquote

/-- The rules generated for rules of different names have different names. -/
theorem nodup_generatedNames {served : List (String × Nat)}
    (h : (served.map Prod.fst).Nodup) : (generatedNames served).Nodup := by
  refine List.nodup_flatMap.2 ⟨fun rule _ => ?_, ?_⟩
  · exact List.nodup_range.map fun _ _ heq => (generatedName_inj heq).2
  · refine (List.pairwise_map.1 h).imp fun {rule rule'} hne name hname hname' => ?_
    obtain ⟨count, -, rfl⟩ := List.mem_map.1 hname
    obtain ⟨count', -, heq⟩ := List.mem_map.1 hname'
    exact hne (generatedName_inj heq).1.symm

/-- The names of all lex rules and rules. -/
def names (g : Grammar) : List String := g.lexRules.map LexRule.name ++ g.rules.map Rule.name

/-- What is in a list without two elements of the same key is found by its key. -/
theorem find?_key_eq_some {α β : Type} [DecidableEq β] {key : α → β} {xs : List α}
    (h : (xs.map key).Nodup) {x : α} (hx : x ∈ xs) :
    xs.find? (fun y => key y = key x) = some x := by
  cases hfind : xs.find? fun y => decide (key y = key x) with
  | none => exact absurd (decide_eq_true rfl) (List.find?_eq_none.1 hfind x hx)
  | some y =>
    have hkey : key y = key x := by simpa using List.find?_some hfind
    rw [List.inj_on_of_nodup_map h (List.mem_of_find?_eq_some hfind) hx hkey]

/-- Where all names are different, each lex rule and each rule is found by its name. -/
theorem find?_of_nodup_names {g : Grammar} (h : g.names.Nodup) :
    (∀ r ∈ g.rules, g.findRule? r.name = some r) ∧
      ∀ r ∈ g.lexRules, g.findLexRule? r.name = some r := by
  obtain ⟨hlexRules, hrules, -⟩ := List.nodup_append.1 h
  exact ⟨fun _ hr => find?_key_eq_some hrules hr, fun _ hr => find?_key_eq_some hlexRules hr⟩

end Grammar

namespace Declarations

variable {d : Declarations} {g : Grammar}

/-- The names of the lex rules and rules behind those that are declared. -/
def addedNames (d : Declarations) (g : Grammar) : List String :=
  (g.lexRules.drop d.lexRules.length).map LexRule.name ++
    (g.rules.drop d.rules.length).map Rule.name

/-- No declared name is that of a literal that has a lex rule made for it, or of a rule that may be
generated for a declared one. -/
structure NamesApart (d : Declarations) : Prop where
  literal : ∀ name ∈ d.names, ¬ d.MakesName d.leaves name
  generated : ∀ name ∈ d.names, ∀ owner ∈ d.rules.map Prod.fst, ∀ count,
    name ≠ Grammar.generatedName owner count

theorem nodup_names_of_supplied {lexRules more : List LexRule} {spellings : List String}
    (supplied : Supplied lexRules more spellings) : (more.map LexRule.name).Nodup := by
  refine supplied.nodup.of_map _ |>.map_on fun r hr r' hr' hname => ?_
  obtain ⟨spelling, -, hmade, -⟩ := supplied.made r hr
  obtain ⟨spelling', -, hmade', -⟩ := supplied.made r' hr'
  rw [hmade.name_eq, hmade'.name_eq] at hname
  refine List.inj_on_of_nodup_map supplied.nodup hr hr' ?_
  rw [hmade.spelling_eq, hmade'.spelling_eq, literalName_inj hname]

section

variable {more : List LexRule} {first generated : List Rule}

/-- The names in a grammar are the declared ones and those that are added. -/
theorem Parts.names_perm (parts : Parts d g more first generated) :
    g.names.Perm (d.names ++ addedNames d g) := by
  rw [addedNames, parts.drop_lexRules, parts.drop_rules, Grammar.names, parts.lexRules_eq,
    parts.rules_eq, List.map_append, List.map_append, map_name_ignoring,
    parts.named.declared_names, names]
  simp only [List.append_assoc]
  refine List.Perm.append_left _ ?_
  simp only [← List.append_assoc]
  exact List.Perm.append_right _ List.perm_append_comm

/-- The added names are those of literals and, behind them, those of generated rules. -/
theorem Parts.exists_addedNames_eq (parts : Parts d g more first generated) :
    ∃ served : List (String × Nat), served.map Prod.fst = d.rules.map Prod.fst ∧
      addedNames d g = more.map LexRule.name ++ Grammar.generatedNames served := by
  obtain ⟨served, howners, hserved⟩ := parts.named.generated_names
  refine ⟨served, howners, ?_⟩
  rw [addedNames, parts.drop_lexRules, parts.drop_rules, hserved]

/-- No two added names are the same. -/
theorem Parts.nodup_addedNames (parts : Parts d g more first generated) (declared : Declared d) :
    (addedNames d g).Nodup := by
  obtain ⟨served, howners, hadded⟩ := parts.exists_addedNames_eq
  have hnodup : (served.map Prod.fst).Nodup := by
    rw [howners]
    exact declared.numbered_nodup.2
  rw [hadded, List.nodup_append]
  refine ⟨nodup_names_of_supplied parts.supplied, Grammar.nodup_generatedNames hnodup, ?_⟩
  intro a ha b hb
  obtain ⟨r, hr, rfl⟩ := List.mem_map.1 ha
  obtain ⟨spelling, -, hmade, -⟩ := parts.supplied.made r hr
  obtain ⟨rule, -, hb⟩ := List.mem_flatMap.1 hb
  obtain ⟨count, -, rfl⟩ := List.mem_map.1 hb
  rw [hmade.name_eq]
  exact (Grammar.generatedName_ne_literalName rule.1 count spelling).symm

end

/-- Names can only clash where one of them is declared and the other one is added. -/
theorem nodup_names_iff (declared : Declared d) (h : d.build = .ok (.ok g)) :
    g.names.Nodup ↔ ∀ name ∈ d.names, name ∉ addedNames d g := by
  obtain ⟨more, first, generated, parts⟩ := exists_parts declared h
  rw [parts.names_perm.nodup_iff, List.nodup_append]
  constructor
  · exact fun ⟨_, _, hapart⟩ name hname hadded => hapart name hname name hadded rfl
  · intro hapart
    refine ⟨declared.nodup_names, parts.nodup_addedNames declared, ?_⟩
    rintro name hname _ hadded rfl
    exact hapart name hname hadded

/-- An added name is that of a literal that has a lex rule made for it, or of a rule generated for a
declared one. -/
theorem mem_addedNames (declared : Declared d) (h : d.build = .ok (.ok g)) {name : String}
    (hname : name ∈ addedNames d g) : d.MakesName d.leaves name ∨
      ∃ owner ∈ d.rules.map Prod.fst, ∃ count, name = Grammar.generatedName owner count := by
  obtain ⟨more, first, generated, parts⟩ := exists_parts declared h
  obtain ⟨served, howners, hadded⟩ := parts.exists_addedNames_eq
  rw [hadded] at hname
  rcases List.mem_append.1 hname with hname | hname
  · obtain ⟨r, hr, rfl⟩ := List.mem_map.1 hname
    obtain ⟨spelling, hmem, hmade, hfree⟩ := parts.supplied.made r hr
    rw [spells_ignoring_iff] at hfree
    exact .inl ⟨spelling, hmem, hfree, hmade.name_eq.symm⟩
  · obtain ⟨rule, hrule, hname⟩ := List.mem_flatMap.1 hname
    obtain ⟨count, -, rfl⟩ := List.mem_map.1 hname
    rw [← howners]
    exact .inr ⟨rule.1, List.mem_map_of_mem hrule, count, rfl⟩

theorem NamesApart.notMem_addedNames (apart : NamesApart d) (declared : Declared d)
    (h : d.build = .ok (.ok g)) : ∀ name ∈ d.names, name ∉ addedNames d g := by
  intro name hname hadded
  rcases mem_addedNames declared h hadded with hmade | ⟨owner, howner, count, heq⟩
  · exact apart.literal name hname hmade
  · exact apart.generated name hname owner howner count heq

/-- After any calls the names of a grammar are all different, except that a declared name may be the
same as an added one, of a literal or a generated rule.  Where they are different, each lex rule and
each rule is found by its name. -/
theorem names_of_build (calls : List Call) {g : Grammar}
    (h : (declaredBy calls).build = .ok (.ok g)) :
    (g.names.Nodup ↔
      ∀ name ∈ (declaredBy calls).names, name ∉ addedNames (declaredBy calls) g) ∧
    (∀ name ∈ addedNames (declaredBy calls) g,
      (declaredBy calls).MakesName (declaredBy calls).leaves name ∨
        ∃ owner ∈ (declaredBy calls).rules.map Prod.fst, ∃ count,
          name = Grammar.generatedName owner count) ∧
    (NamesApart (declaredBy calls) → g.names.Nodup) ∧
    (g.names.Nodup → (∀ r ∈ g.rules, g.findRule? r.name = some r) ∧
      ∀ r ∈ g.lexRules, g.findLexRule? r.name = some r) := by
  have declared := declared_declaredBy calls
  have hiff := nodup_names_iff declared h
  exact ⟨hiff, fun _ => mem_addedNames declared h,
    fun apart => hiff.2 (apart.notMem_addedNames declared h), Grammar.find?_of_nodup_names⟩

theorem namesApart_parentheses : NamesApart (declaredBy parentheses) := by
  have hnames : (declaredBy parentheses).names = ["(", "s"] := rfl
  constructor
  case literal =>
    rw [hnames]
    unfold MakesName
    decide
  case generated =>
    rintro name hname owner - count rfl
    have hhash : '#' ∈ (Grammar.generatedName owner count).toList := by
      rw [Grammar.toList_generatedName]
      exact List.mem_append_right _ List.mem_cons_self
    rw [hnames, List.mem_pair] at hname
    rcases hname with heq | heq <;> exact absurd (heq ▸ hhash) (by decide)

/-- In the grammar of balanced parentheses all names are different. -/
theorem names_of_build_parentheses : ∃ g, (declaredBy parentheses).build = .ok (.ok g) ∧
    g.names.Nodup ∧ (∀ r ∈ g.rules, g.findRule? r.name = some r) ∧
      ∀ r ∈ g.lexRules, g.findLexRule? r.name = some r := by
  refine ⟨_, rfl, ?_⟩
  obtain ⟨-, -, hapart, hfound⟩ := names_of_build parentheses rfl
  have hnodup := hapart namesApart_parentheses
  exact ⟨hnodup, hfound hnodup⟩

/-- A rule that is named as if it were generated, and a lex rule that is named as if it were made
for a literal. -/
def lookalikes : List Call :=
  [.lexSpelling "'+'" "plus", .rule "a" ((Expr.terminal (.char '+')).repeated .star),
    .rule "a#0" (.terminal (.char '-')), .setStart "a"]

/-- A declared name can be the same as an added one, which is then not found. -/
theorem not_nodup_names_lookalikes : ∃ g, (declaredBy lookalikes).build = .ok (.ok g) ∧
    ¬ g.names.Nodup ∧ (∃ r ∈ g.rules, g.findRule? r.name ≠ some r) ∧
      ∃ r ∈ g.lexRules, g.findLexRule? r.name ≠ some r := by
  obtain ⟨g, hbuild, ⟨r, hr, hid, hname, hfind⟩, l, hl, hid', hname', hfind'⟩ :
      ∃ g, (declaredBy lookalikes).build = .ok (.ok g) ∧
        (∃ r, g.rules[2]? = some r ∧ r.id = 2 ∧ r.name = "a#0" ∧
          (g.findRule? "a#0").map Rule.id = some 1) ∧
        ∃ l, g.lexRules[1]? = some l ∧ l.id = 1 ∧ l.name = "'+'" ∧
          (g.findLexRule? "'+'").map LexRule.id = some 0 :=
    ⟨_, rfl, ⟨_, rfl, rfl, rfl, rfl⟩, _, rfl, rfl, rfl, rfl⟩
  have hrule : g.findRule? r.name ≠ some r := by
    intro heq
    rw [hname] at heq
    simp [heq, hid] at hfind
  have hlexRule : g.findLexRule? l.name ≠ some l := by
    intro heq
    rw [hname'] at heq
    simp [heq, hid'] at hfind'
  exact ⟨g, hbuild, fun h => hrule ((Grammar.find?_of_nodup_names h).1 r (List.mem_of_getElem? hr)),
    ⟨r, List.mem_of_getElem? hr, hrule⟩, l, List.mem_of_getElem? hl, hlexRule⟩

end Declarations

end LexChart
