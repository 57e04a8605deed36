import LexChart.Grammar.Derivation
import LexChart.Proofs.Automaton.Exploration
import LexChart.Proofs.Recognizer.Draft
set_option autoImplicit false

/-!
# Networks represent their grammars

The references of a rule are found by exploring its fragment, and resolved one after the other.  A
rule is pending from when its fragment is added until its references are resolved, which happens
once for each rule, so that the limit on the number of rules is never what ends the work.  When no
rule is pending, no open reference can be reached from the entry of a fragment, and the network
represents the grammar.
-/

namespace LexChart.RuleNetwork

open NetworkLabel

namespace Draft

variable {g : Grammar} {d : Draft} {owner : Nat → Nat}

/-! ## Open references -/

/-- The transition neither predicts nor completes a rule. -/
def StaysInside (t : Transition NetworkLabel) : Prop := t.label?.any NetworkLabel.crosses = false

theorem innerTransitions_ok {nfa : Nfa NetworkLabel} {id : Nat} (h : id < nfa.size) :
    ∃ found, innerTransitions nfa id = .ok found ∧ ∀ position t,
      (position, t) ∈ found ↔ nfa.transitionAt id position = some t ∧ StaysInside t := by
  refine ⟨_, by unfold innerTransitions; rw [Nfa.state_of_lt h]; rfl, fun position t => ?_⟩
  have hat : nfa.transitionAt id position = nfa.states[id].transitions[position]? := by
    unfold Nfa.transitionAt
    rw [Array.getElem?_eq_getElem h]
    rfl
  rw [hat, List.mem_filterMap]
  constructor
  · rintro ⟨⟨u, k⟩, hmem, heq⟩
    dsimp only at heq
    split at heq
    · cases heq
    · rename_i hinside
      cases heq
      exact ⟨List.mem_zipIdx_iff_getElem?.1 hmem, Bool.eq_false_iff.2 hinside⟩
  · rintro ⟨ht, hinside⟩
    refine ⟨(t, position), List.mem_zipIdx_iff_getElem?.2 ht, ?_⟩
    dsimp only
    rw [if_neg (Bool.eq_false_iff.1 hinside)]

/-- A transition that stays inside is a move. -/
theorem exists_moves_of_leaves {p : Nat} {t : Transition NetworkLabel} (h : d.nfa.Leaves p t)
    (hinside : StaysInside t) : ∃ s, d.moves p s t.target := by
  rcases t with q | ⟨label, q⟩
  · exact ⟨none, h⟩
  · cases label with
    | scan id => exact ⟨some (.lex id), h⟩
    | resolve id => exact ⟨some (.rule id), .inl h⟩
    | predict id => exact nomatch hinside
    | complete id => exact nomatch hinside

/-- While a rule has no calls, exploring its fragment meets the states that walks from its entry
lead to. -/
theorem reached_innerTransitions_iff (valid : d.Valid g owner) {rule : Nat} {f : Fragment}
    (hf : (rule, f) ∈ d.fragments) (hcalls : ∀ call ∈ d.calls, owner call.source ≠ rule) {p : Nat} :
    Numbering.Reached (innerTransitions d.nfa) (fun t => t.2.target) f.entry p ↔
      ∃ symbols, Walk d.moves f.entry symbols p := by
  constructor
  · intro h
    induction h with
    | root => exact ⟨[], .nil _⟩
    | @step p found t _ hfound ht ih =>
      obtain ⟨symbols, hwalk⟩ := ih
      obtain ⟨found', hfound', hmem⟩ := innerTransitions_ok (valid.walk_inside hf hwalk).1
      rw [hfound] at hfound'
      obtain rfl := Except.ok.inj hfound'
      obtain ⟨hat, hinside⟩ := (hmem t.1 t.2).1 ht
      obtain ⟨s, hmove⟩ := exists_moves_of_leaves (Nfa.leaves_iff_transitionAt.2 ⟨_, hat⟩) hinside
      exact hwalk.concat hmove
  · rintro ⟨symbols, hwalk⟩
    have howner := (valid.owner_fragment rule f hf).1
    have hlt := (valid.fragment_lt rule f hf).2.1
    -- Every move is a transition that the exploration follows.
    have hstep : ∀ p t, p < d.nfa.size → d.nfa.Leaves p t → StaysInside t →
        Numbering.Reached (innerTransitions d.nfa) (fun t => t.2.target) f.entry p →
        Numbering.Reached (innerTransitions d.nfa) (fun t => t.2.target) f.entry t.target := by
      intro p t hp hleaves hinside hreached
      obtain ⟨found, hfound, hmem⟩ := innerTransitions_ok hp
      obtain ⟨position, hat⟩ := Nfa.leaves_iff_transitionAt.1 hleaves
      exact hreached.step hfound ((hmem position t).2 ⟨hat, hinside⟩)
    have hkeeps := hwalk.keeps
      (fun p => p < d.nfa.size ∧ owner p = rule ∧
        Numbering.Reached (innerTransitions d.nfa) (fun t => t.2.target) f.entry p)
      (fun p s q h hmove => by
        obtain ⟨hp, howner, hreached⟩ := h
        refine ⟨(valid.lt_size p s q hmove).2, (valid.owner_move p s q hmove).trans howner, ?_⟩
        rcases s with _ | ⟨id⟩ | ⟨id⟩
        · exact hstep p _ hp hmove rfl hreached
        · exact hstep p _ hp hmove rfl hreached
        · rcases hmove with hmove | hcall
          · exact hstep p _ hp hmove rfl hreached
          · exact absurd howner (hcalls _ hcall))
      ⟨hlt, howner, .root⟩
    exact hkeeps.2.2

theorem openReference?_eq_some_iff {source : Nat} {t : Nat × Transition NetworkLabel}
    {r : OpenReference} : openReference? source t = some r ↔
      r.call.source = source ∧ t = (r.position, .symbol (.resolve r.call.rule) r.call.target) := by
  obtain ⟨position, t⟩ := t
  unfold openReference?
  split
  · rename_i position' rule target heq
    cases heq
    constructor
    · intro h
      cases h
      exact ⟨rfl, rfl⟩
    · rintro ⟨rfl, heq⟩
      obtain ⟨⟨source, rule', target'⟩, position''⟩ := r
      cases heq
      rfl
  · rename_i hne
    constructor
    · intro h
      cases h
    · rintro ⟨-, heq⟩
      exact absurd heq fun heq => hne _ _ _ heq

/-- While a rule has no calls, its fragment is explored. -/
theorem explore_innerTransitions_ok (valid : d.Valid g owner) {rule : Nat} {f : Fragment}
    (hf : (rule, f) ∈ d.fragments) (hcalls : ∀ call ∈ d.calls, owner call.source ≠ rule) :
    ∃ walked, Numbering.explore (innerTransitions d.nfa) (fun t => t.2.target) d.nfa.size f.entry =
        .ok walked ∧
      Numbering.IsExploration (innerTransitions d.nfa) (fun t => t.2.target) f.entry walked ∧
      ∀ p ∈ walked.states, p < d.nfa.size := by
  have hlt : ∀ p, Numbering.Reached (innerTransitions d.nfa) (fun t => t.2.target) f.entry p →
      p < d.nfa.size := by
    intro p h
    obtain ⟨symbols, hwalk⟩ := (reached_innerTransitions_iff valid hf hcalls).1 h
    exact (valid.walk_inside hf hwalk).1
  have few : Numbering.ReachesAtMost (innerTransitions d.nfa) (fun t => t.2.target) f.entry
      d.nfa.size := by
    intro states hnodup hall
    have hsub : states ⊆ List.range d.nfa.size :=
      fun p hp => List.mem_range.2 (hlt p (hall p hp))
    have hle := (List.subperm_of_subset hnodup hsub).length_le
    rwa [List.length_range] at hle
  obtain ⟨walked, hwalked, hspec⟩ := Numbering.explore_ok
    (fun p h => (innerTransitions_ok (hlt p h)).imp fun _ h => h.1) few
  exact ⟨walked, hwalked, hspec, fun p hp => hlt p ((hspec.mem_iff p).1 hp)⟩

/-- While a rule has no calls, its open references are found. -/
theorem openReferences_ok (valid : d.Valid g owner) {rule : Nat} {f : Fragment}
    (hf : (rule, f) ∈ d.fragments) (hcalls : ∀ call ∈ d.calls, owner call.source ≠ rule) :
    ∃ found, openReferences d.nfa f = .ok found ∧ ∀ r, r ∈ found ↔
      (∃ symbols, Walk d.moves f.entry symbols r.call.source) ∧
      d.nfa.transitionAt r.call.source r.position =
        some (.symbol (.resolve r.call.rule) r.call.target) := by
  have hreached := fun p => reached_innerTransitions_iff (p := p) valid hf hcalls
  obtain ⟨walked, hwalked, hspec, hlt⟩ := explore_innerTransitions_ok valid hf hcalls
  refine ⟨_, by unfold openReferences; rw [hwalked]; rfl, fun r => ?_⟩
  rw [List.mem_flatMap]
  constructor
  · rintro ⟨⟨source, edges⟩, hzip, hr⟩
    obtain ⟨id, hid⟩ := List.mem_iff_getElem?.1 hzip
    rw [List.getElem?_zip_eq_some, Array.getElem?_toList, Array.getElem?_toList] at hid
    obtain ⟨⟨t, target⟩, ht, heq⟩ := List.mem_filterMap.1 hr
    obtain ⟨rfl, rfl⟩ := openReference?_eq_some_iff.1 heq
    have hstate := Array.mem_of_getElem? hid.1
    have hsource := (hspec.mem_iff r.call.source).1 hstate
    obtain ⟨found, hfound, hmem⟩ := innerTransitions_ok (hlt _ hstate)
    have htransitions := hspec.found id _ edges hid.1 hid.2
    rw [hfound] at htransitions
    obtain rfl := Except.ok.inj htransitions
    exact ⟨(hreached _).1 hsource, ((hmem _ _).1 (List.mem_map.2 ⟨_, ht, rfl⟩)).1⟩
  · rintro ⟨hwalk, hat⟩
    have hstate := (hspec.mem_iff _).2 ((hreached _).2 hwalk)
    obtain ⟨id, hid⟩ := Array.mem_iff_getElem?.1 hstate
    obtain ⟨edges, hedges, htransitions⟩ := hspec.exists_edges hid
    obtain ⟨found, hfound, hmem⟩ := innerTransitions_ok (hlt _ hstate)
    rw [hfound] at htransitions
    have hin := (hmem r.position _).2 ⟨hat, rfl⟩
    rw [Except.ok.inj htransitions] at hin
    obtain ⟨e, he, heq⟩ := List.mem_map.1 hin
    refine ⟨(r.call.source, edges), ?_, List.mem_filterMap.2 ⟨e, he, ?_⟩⟩
    · refine List.mem_iff_getElem?.2 ⟨id, ?_⟩
      rw [List.getElem?_zip_eq_some, Array.getElem?_toList, Array.getElem?_toList]
      exact ⟨hid, hedges⟩
    · dsimp only
      rw [heq]
      exact openReference?_eq_some_iff.2 ⟨rfl, rfl⟩

/-! ## Resolving references -/

/-- The reference has been resolved. -/
def Resolved (d : Draft) (r : OpenReference) : Prop :=
  ∃ f, (r.call.rule, f) ∈ d.fragments ∧
    d.nfa.transitionAt r.call.source r.position = some (.symbol (.predict r.call.rule) f.entry) ∧
    r.call ∈ d.calls

/-- The reference stands open, or it has been resolved. -/
def Known (d : Draft) (r : OpenReference) : Prop :=
  d.nfa.transitionAt r.call.source r.position =
      some (.symbol (.resolve r.call.rule) r.call.target) ∨
    d.Resolved r

theorem Extends.resolved {d' : Draft} {r : OpenReference} (h : d.Extends d') (hr : d.Resolved r) :
    d'.Resolved r := by
  obtain ⟨f, hf, ht, hcall⟩ := hr
  refine ⟨f, h.fragments _ hf, ?_, h.calls _ hcall⟩
  rcases h.transition _ _ _ ht with ht' | ⟨_, _, _, heq, _⟩
  · exact ht'
  · cases heq

theorem Extends.known {d' : Draft} {r : OpenReference} (h : d.Extends d') (hr : d.Known r) :
    d'.Known r := by
  rcases hr with ht | hr
  · rcases h.transition _ _ _ ht with ht' | ⟨rule, q, f, heq, ht', hf, hcall⟩
    · exact .inl ht'
    · cases heq
      exact .inr ⟨f, hf, ht', hcall⟩
  · exact .inr (h.resolved hr)

/-- What resolving some references does to a draft and its pending rules: the draft grows by the
fragments of rules that become pending, and by the calls that the references stand for. -/
structure Resolves (g : Grammar) (d : Draft) (owner : Nat → Nat) (pending : List Nat)
    (found : List OpenReference) (d' : Draft) (owner' : Nat → Nat)
    (pending' : List Nat) : Prop where
  valid : d'.Valid g owner'
  grown : d.Extends d'
  owner_eq : ∀ id < d.nfa.size, owner' id = owner id
  calls : ∀ call ∈ d'.calls, call ∈ d.calls ∨ ∃ r ∈ found, r.call = call
  resolved : ∀ r ∈ found, d'.Resolved r
  pending : ∃ more, pending' = more ++ pending ∧
    d'.fragments.map Prod.fst = d.fragments.map Prod.fst ++ more.reverse

theorem Resolves.trans {d' d'' : Draft} {owner' owner'' : Nat → Nat}
    {pending pending' pending'' : List Nat} {r : OpenReference} {found : List OpenReference}
    (h : Resolves g d owner pending [r] d' owner' pending')
    (k : Resolves g d' owner' pending' found d'' owner'' pending'') :
    Resolves g d owner pending (r :: found) d'' owner'' pending'' := by
  obtain ⟨more, rfl, hmore⟩ := h.pending
  obtain ⟨more', rfl, hmore'⟩ := k.pending
  refine ⟨k.valid, h.grown.trans k.grown, fun id hid => ?_, fun call hcall => ?_, fun r' hr' => ?_,
    more' ++ more, ?_, ?_⟩
  · exact (k.owner_eq id (Nat.lt_of_lt_of_le hid h.grown.size_le)).trans (h.owner_eq id hid)
  · rcases k.calls call hcall with hcall | ⟨r', hr', heq⟩
    · refine (h.calls call hcall).imp id fun hr => ?_
      obtain ⟨r', hr', heq⟩ := hr
      exact ⟨r', List.mem_cons.2 (.inl (List.mem_singleton.1 hr')), heq⟩
    · exact .inr ⟨r', List.mem_cons_of_mem r hr', heq⟩
  · rcases List.mem_cons.1 hr' with rfl | hr'
    · exact k.grown.resolved (h.resolved r' (List.mem_singleton_self r'))
    · exact k.resolved r' hr'
  · rw [List.append_assoc]
  · rw [hmore', hmore, List.reverse_append, List.append_assoc]

/-- In a well-formed grammar the productions of a rule are those listed under it. -/
theorem productions_of_rule (wellFormed : g.WellFormed) {rule : Nat} {r : Rule}
    (h : g.rules[rule]? = some r) (symbols : List Symbol) :
    (∃ p ∈ r.productions, symbols = p.rhs) ↔ ⟨rule, symbols⟩ ∈ g.productions := by
  have hid := wellFormed.rule_id rule r h
  unfold Grammar.productions
  rw [List.mem_flatMap]
  constructor
  · rintro ⟨p, hp, rfl⟩
    have hmem := List.mem_of_getElem? h
    refine ⟨r, hmem, ?_⟩
    have hlhs := wellFormed.lhs r hmem p hp
    rw [hid] at hlhs
    rwa [← hlhs]
  · rintro ⟨r', hr', hp⟩
    have hlhs : rule = r'.id := wellFormed.lhs r' hr' _ hp
    obtain ⟨id', hid'⟩ := List.mem_iff_getElem?.1 hr'
    rw [wellFormed.rule_id id' r' hid'] at hlhs
    subst hlhs
    rw [h] at hid'
    obtain rfl := Option.some.inj hid'
    exact ⟨_, hp, rfl⟩

theorem Known.pending (valid : d.Valid g owner) {r : OpenReference} {callee : Fragment}
    (hcallee : (r.call.rule, callee) ∈ d.fragments) (known : d.Known r) : d.Pending r callee := by
  rcases known with ht | ⟨f, hf, ht, hcall⟩
  · exact .inl ht
  · rw [valid.fragment_unique hf hcallee] at ht
    exact .inr ⟨ht, hcall⟩

/-- Resolving a reference in a draft that has grown, if at all, by fragments that became pending. -/
theorem resolves_join {d' : Draft} {owner' : Nat → Nat} {r : OpenReference} {callee : Fragment}
    {pending more : List Nat} (valid : d'.Valid g owner') (grown : d.Extends d')
    (howner : ∀ id < d.nfa.size, owner' id = owner id) (hcalls : d'.calls = d.calls)
    (hmore : d'.fragments.map Prod.fst = d.fragments.map Prod.fst ++ more.reverse)
    (hcallee : (r.call.rule, callee) ∈ d'.fragments) (known : d.Known r) :
    Resolves g d owner pending [r] (d'.join r callee) owner' (more ++ pending) := by
  have hpending := (grown.known known).pending valid hcallee
  refine ⟨valid.join hpending hcallee, grown.trans (extends_join hpending hcallee), howner,
    fun call hcall => ?_, fun r' hr' => ?_, more, rfl, hmore⟩
  · rw [← hcalls]
    refine (List.mem_append.1 hcall).imp id fun hcall => ?_
    exact ⟨r, List.mem_singleton_self r, (List.mem_singleton.1 hcall).symm⟩
  · rw [List.mem_singleton.1 hr']
    exact ⟨callee, hcallee, transitionAt_join_self hpending,
      List.mem_append_right _ (List.mem_singleton_self _)⟩

/-- Resolving a reference, of a rule that may have to be added first. -/
theorem resolve_ok (wellFormed : g.WellFormed) (valid : d.Valid g owner) {r : OpenReference}
    (known : d.Known r) (hrule : r.call.rule < g.rules.length) (pending : List Nat) :
    ∃ d' owner' pending', resolve g (d, pending) r = .ok (d', pending') ∧
      Resolves g d owner pending [r] d' owner' pending' := by
  unfold resolve
  dsimp only
  cases hlookup : d.fragments.lookup r.call.rule with
  | some callee =>
    have hcallee := (lookup_eq_some_iff_mem valid.nodup).1 hlookup
    have hsame : d.fragments.map Prod.fst = d.fragments.map Prod.fst ++ [].reverse :=
      (List.append_nil _).symm
    exact ⟨_, owner, _, rfl,
      resolves_join valid (.refl d) (fun _ _ => rfl) rfl hsame hcallee known⟩
  | none =>
    have hfresh : ∀ f, (r.call.rule, f) ∉ d.fragments := by
      intro f hf
      rw [(lookup_eq_some_iff_mem valid.nodup).2 hf] at hlookup
      cases hlookup
    have hget := List.getElem?_eq_getElem hrule
    have hadded := valid.added hrule hfresh (productions_of_rule wellFormed hget)
    have hmore : (d.added r.call.rule g.rules[r.call.rule]).fragments.map Prod.fst =
        d.fragments.map Prod.fst ++ [r.call.rule].reverse := List.map_append
    dsimp only
    rw [addFragment_eq hget]
    exact ⟨_, _, _, rfl, resolves_join hadded (extends_added d _ _) (fun id hid => if_pos hid) rfl
      hmore (mem_fragments_added.2 (.inr ⟨rfl, rfl⟩)) known⟩

/-- Resolving references one after the other. -/
theorem foldlM_resolve_ok (wellFormed : g.WellFormed) (valid : d.Valid g owner)
    {found : List OpenReference} (known : ∀ r ∈ found, d.Known r ∧ r.call.rule < g.rules.length)
    (pending : List Nat) : ∃ d' owner' pending', found.foldlM (resolve g) (d, pending) =
      .ok (d', pending') ∧ Resolves g d owner pending found d' owner' pending' := by
  induction found generalizing d owner pending with
  | nil =>
    exact ⟨d, owner, pending, rfl, valid, .refl d, fun _ _ => rfl, fun _ hcall => .inl hcall,
      fun _ hr => (nomatch hr), [], rfl, (List.append_nil _).symm⟩
  | cons r found ih =>
    obtain ⟨hr, hfound⟩ := List.forall_mem_cons.1 known
    obtain ⟨d₁, owner₁, pending₁, heq₁, h₁⟩ := resolve_ok wellFormed valid hr.1 hr.2 pending
    obtain ⟨d₂, owner₂, pending₂, heq₂, h₂⟩ := ih h₁.valid
      (fun r' hr' => ⟨h₁.grown.known (hfound r' hr').1, (hfound r' hr').2⟩) pending₁
    refine ⟨d₂, owner₂, pending₂, ?_, h₁.trans h₂⟩
    rw [List.foldlM_cons, heq₁]
    exact heq₂

/-! ## Pending rules -/

/-- What holds between two rules whose references are resolved: every rule with a fragment is either
done or pending, only rules that are done have calls, and those have no open references. -/
structure Progress (g : Grammar) (d : Draft) (owner : Nat → Nat)
    (done pending : List Nat) : Prop where
  valid : d.Valid g owner
  numbers : (done ++ pending).Perm (d.fragments.map Prod.fst)
  calls : ∀ call ∈ d.calls, owner call.source ∈ done
  closed : ∀ rule f, (rule, f) ∈ d.fragments → rule ∈ done → ∀ symbols p other q,
    Walk d.moves f.entry symbols p → ¬ d.nfa.Leaves p (.symbol (.resolve other) q)

/-- The rules of references are in range, for they stand in productions. -/
theorem Valid.rule_lt (wellFormed : g.WellFormed) (valid : d.Valid g owner) {rule other : Nat}
    {f : Fragment} (hf : (rule, f) ∈ d.fragments) {symbols : List Symbol} {p q : Nat}
    (walk : Walk d.moves f.entry symbols p) (hmove : d.moves p (some (.rule other)) q) :
    other < g.rules.length := by
  obtain ⟨after, hafter⟩ := valid.exits rule f hf symbols p _ q walk hmove
  have hwhole := (valid.walk_iff rule f hf _).1 (walk.append (.symbol hmove hafter))
  exact wellFormed.rule_lt _ hwhole other (by simp)

/-- Rules that are done or pending have numbers below that of all rules, and none of them twice. -/
theorem Progress.length_le {done pending : List Nat} (h : Progress g d owner done pending) :
    done.length + pending.length ≤ g.rules.length := by
  rw [← List.length_append, h.numbers.length_eq]
  have hsub : d.fragments.map Prod.fst ⊆ List.range g.rules.length := by
    intro rule hrule
    obtain ⟨⟨rule, f⟩, hf, rfl⟩ := List.mem_map.1 hrule
    exact List.mem_range.2 (h.valid.fragment_lt rule f hf).1
  have hle := (List.subperm_of_subset h.valid.nodup hsub).length_le
  rwa [List.length_range] at hle

/-- A rule that is pending is not done, so it has no calls. -/
theorem Progress.no_calls {done pending : List Nat} {rule : Nat}
    (h : Progress g d owner done (rule :: pending)) :
    ∀ call ∈ d.calls, owner call.source ≠ rule := by
  rintro call hcall rfl
  have hnodup := h.numbers.nodup_iff.2 h.valid.nodup
  exact (List.nodup_append.1 hnodup).2.2 _ (h.calls call hcall) _ List.mem_cons_self rfl

/-- Fragments of numbers that there were have been there before. -/
theorem Extends.mem_of_number {d' : Draft} {owner' : Nat → Nat} (grown : d.Extends d')
    (valid' : d'.Valid g owner') {rule : Nat} {f : Fragment}
    (hrule : rule ∈ d.fragments.map Prod.fst) (hf : (rule, f) ∈ d'.fragments) :
    (rule, f) ∈ d.fragments := by
  obtain ⟨⟨_, f'⟩, hf', rfl⟩ := List.mem_map.1 hrule
  rwa [valid'.fragment_unique hf (grown.fragments _ hf')]

/-- A reference that stands open behind a walk from a fragment that was there stood open there. -/
theorem Extends.opened_of_walk {d' : Draft} (grown : d.Extends d') (valid : d.Valid g owner)
    {rule : Nat} {f : Fragment} (hf : (rule, f) ∈ d.fragments) {symbols : List Symbol}
    {p position callee q : Nat} (walk : Walk d'.moves f.entry symbols p)
    (ht : d'.nfa.transitionAt p position = some (.symbol (.resolve callee) q)) :
    Walk d.moves f.entry symbols p ∧
      d.nfa.transitionAt p position = some (.symbol (.resolve callee) q) := by
  have walk' := (grown.walk_iff valid.lt_size (valid.fragment_lt rule f hf).2.1).1 walk
  exact ⟨walk', grown.opened p position callee q (valid.walk_inside hf walk').1 ht⟩

/-- When all open references of a pending rule have been resolved, the rule is done. -/
theorem Progress.resolved {done pending : List Nat} {rule : Nat} {f : Fragment}
    (h : Progress g d owner done (rule :: pending)) (hf : (rule, f) ∈ d.fragments)
    {found : List OpenReference}
    (hmem : ∀ r, r ∈ found ↔ (∃ symbols, Walk d.moves f.entry symbols r.call.source) ∧
      d.nfa.transitionAt r.call.source r.position =
        some (.symbol (.resolve r.call.rule) r.call.target))
    {d' : Draft} {owner' : Nat → Nat} {pending' : List Nat}
    (hresolves : Resolves g d owner pending found d' owner' pending') :
    Progress g d' owner' (rule :: done) pending' := by
  have valid := h.valid
  constructor
  case valid => exact hresolves.valid
  case numbers =>
    obtain ⟨more, rfl, hmore⟩ := hresolves.pending
    have hmove : (rule :: done ++ (more ++ pending)).Perm (done ++ rule :: pending ++ more) := by
      refine List.perm_iff_count.2 fun a => ?_
      simp only [List.count_append, List.count_cons]
      omega
    rw [hmore]
    exact hmove.trans (h.numbers.append (List.reverse_perm more).symm)
  case calls =>
    intro call hcall
    rcases hresolves.calls call hcall with hcall | ⟨r, hr, rfl⟩
    · rw [hresolves.owner_eq _ (valid.lt_size _ (some (.rule call.rule)) _ (.inr hcall)).1]
      exact List.mem_cons_of_mem _ (h.calls call hcall)
    · obtain ⟨⟨symbols, walk⟩, -⟩ := (hmem r).1 hr
      obtain ⟨hsource, howner⟩ := valid.walk_inside hf walk
      rw [hresolves.owner_eq _ hsource, howner]
      exact List.mem_cons_self
  case closed =>
    intro other f' hf' hdone symbols p callee q walk hleaves
    obtain ⟨position, ht⟩ := Nfa.leaves_iff_transitionAt.1 hleaves
    have hnumber : other ∈ done ++ rule :: pending := by
      rcases List.mem_cons.1 hdone with rfl | hdone
      · exact List.mem_append_right done List.mem_cons_self
      · exact List.mem_append_left _ hdone
    have hold := hresolves.grown.mem_of_number hresolves.valid (h.numbers.mem_iff.1 hnumber) hf'
    obtain ⟨walk', ht'⟩ := hresolves.grown.opened_of_walk valid hold walk ht
    rcases List.mem_cons.1 hdone with rfl | hdone
    · obtain rfl := valid.fragment_unique hold hf
      have hr : (⟨⟨p, callee, q⟩, position⟩ : OpenReference) ∈ found :=
        (hmem _).2 ⟨⟨symbols, walk'⟩, ht'⟩
      obtain ⟨f'', -, hpredict, -⟩ := hresolves.resolved _ hr
      rw [ht] at hpredict
      cases hpredict
    · exact h.closed other f' hold hdone symbols p callee q walk'
        (Nfa.leaves_iff_transitionAt.2 ⟨position, ht'⟩)

/-- Resolving all references of a pending rule. -/
theorem Progress.next (wellFormed : g.WellFormed) {done pending : List Nat} {rule : Nat}
    (h : Progress g d owner done (rule :: pending)) :
    ∃ f found d' owner' pending', d.fragments.lookup rule = some f ∧
      openReferences d.nfa f = .ok found ∧
      found.foldlM (resolve g) (d, pending) = .ok (d', pending') ∧
      Progress g d' owner' (rule :: done) pending' ∧ ∀ x ∈ d.fragments, x ∈ d'.fragments := by
  have valid := h.valid
  obtain ⟨⟨_, f⟩, hf, rfl⟩ :=
    List.mem_map.1 (h.numbers.mem_iff.1 (List.mem_append_right done List.mem_cons_self))
  dsimp only at h
  obtain ⟨found, hfound, hmem⟩ := openReferences_ok valid hf h.no_calls
  have hknown : ∀ r ∈ found, d.Known r ∧ r.call.rule < g.rules.length := by
    intro r hr
    obtain ⟨⟨symbols, walk⟩, ht⟩ := (hmem r).1 hr
    exact ⟨.inl ht, valid.rule_lt wellFormed hf walk
      (.inl (Nfa.leaves_iff_transitionAt.2 ⟨r.position, ht⟩))⟩
  obtain ⟨d', owner', pending', heq, hresolves⟩ :=
    foldlM_resolve_ok wellFormed valid hknown pending
  exact ⟨f, found, d', owner', pending', (lookup_eq_some_iff_mem valid.nodup).2 hf, hfound, heq,
    h.resolved hf hmem hresolves, hresolves.grown.fragments⟩

/-- Resolving the references of all rules; the limit is never what ends it. -/
theorem resolveAll_ok (wellFormed : g.WellFormed) (limit : Nat) {done pending : List Nat}
    (h : Progress g d owner done pending) (hlimit : g.rules.length < done.length + limit) :
    ∃ d' owner' done', resolveAll g limit (d, pending) = .ok d' ∧ Progress g d' owner' done' [] ∧
      ∀ x ∈ d.fragments, x ∈ d'.fragments := by
  have hle := h.length_le
  induction limit generalizing d owner done pending with
  | zero => omega
  | succ limit ih =>
    cases pending with
    | nil => exact ⟨d, owner, done, rfl, h, fun _ hx => hx⟩
    | cons rule pending =>
      obtain ⟨f, found, d₁, owner₁, pending₁, hlookup, hfound, heq, h₁, hfragments⟩ :=
        h.next wellFormed
      have hlimit₁ : g.rules.length < (rule :: done).length + limit := by
        rw [List.length_cons]
        omega
      obtain ⟨d₂, owner₂, done₂, heq₂, h₂, hfragments₂⟩ := ih h₁ hlimit₁ h₁.length_le
      refine ⟨d₂, owner₂, done₂, ?_, h₂, fun x hx => hfragments₂ x (hfragments x hx)⟩
      rw [resolveAll, hlookup]
      dsimp only
      rw [hfound]
      show (found.foldlM (resolve g) (d, pending) >>= fun state => resolveAll g limit state) = _
      rw [heq]
      exact heq₂

theorem moves_empty (p : Nat) (s : Option Symbol) (q : Nat) : ¬ ({} : Draft).moves p s q := by
  have hleaves : ∀ t, ¬ ({} : Draft).nfa.Leaves p t := fun t h => absurd h.lt (Nat.not_lt_zero p)
  rcases s with _ | ⟨id⟩ | ⟨id⟩
  · exact hleaves _
  · exact hleaves _
  · rintro (h | h)
    · exact hleaves _ h
    · cases h

/-- There is nothing in the draft that everything begins with. -/
theorem valid_empty (g : Grammar) (owner : Nat → Nat) : Valid g {} owner where
  lt_size p s q h := absurd h (moves_empty p s q)
  nodup := List.nodup_nil
  fragment_lt _ _ h := nomatch h
  owner_move p s q h := absurd h (moves_empty p s q)
  owner_fragment _ _ h := nomatch h
  walk_iff _ _ h := nomatch h
  entry_ne _ _ h := nomatch h
  exits _ _ h := nomatch h
  callee _ h := nomatch h
  predict_iff p rule q := by
    constructor
    · exact fun h => absurd h.lt (Nat.not_lt_zero p)
    · rintro ⟨f, t, h, -⟩
      cases h
  final_iff q rule := by
    constructor
    · rintro ⟨s, hs, -⟩
      exact absurd (Nfa.state_eq_ok_iff.1 hs) (by simp [Nfa.empty])
    · rintro ⟨f, h, -⟩
      cases h

end Draft

/-! ## The network of a grammar -/

/-- The network that a draft becomes. -/
def ofDraft (d : Draft) (start : Nat) : RuleNetwork :=
  ⟨d.nfa, d.fragments,
    ((List.range d.nfa.size).map fun id => d.calls.filter fun call => call.source = id).toArray,
    start⟩

theorem mem_callsFrom_ofDraft {d : Draft} {start p : Nat} {call : Call} :
    call ∈ (ofDraft d start).callsFrom p ↔ p < d.nfa.size ∧ call ∈ d.calls ∧ call.source = p := by
  unfold callsFrom ofDraft
  by_cases hp : p < d.nfa.size
  · simp [Array.getD_eq_getD_getElem?, hp]
  · simp [Array.getD_eq_getD_getElem?, hp]

section

variable {g : Grammar} {d : Draft} {owner : Nat → Nat} {start : Nat}

/-- The network has no moves that the draft does not have. -/
theorem moves_of_moves_ofDraft {p : Nat} {s : Option Symbol} {q : Nat}
    (h : (ofDraft d start).moves p s q) : d.moves p s q := by
  rcases s with _ | ⟨id⟩ | ⟨id⟩
  · exact h
  · exact h
  · exact .inr (mem_callsFrom_ofDraft.1 h).2.1

/-- Where no reference is open, the network has the moves of the draft. -/
theorem moves_ofDraft_of_moves (valid : d.Valid g owner) {p : Nat} {s : Option Symbol} {q : Nat}
    (hopen : ∀ other t, ¬ d.nfa.Leaves p (.symbol (.resolve other) t)) (h : d.moves p s q) :
    (ofDraft d start).moves p s q := by
  rcases s with _ | ⟨id⟩ | ⟨id⟩
  · exact h
  · exact h
  · have hcall := h.resolve_left (hopen id q)
    exact mem_callsFrom_ofDraft.2 ⟨(valid.lt_size p _ q h).1, hcall, rfl⟩

/-- Once all rules are done, the walks of the network are those of the draft. -/
theorem walk_ofDraft_iff {done : List Nat} (h : Draft.Progress g d owner done []) {rule : Nat}
    {f : Fragment} (hf : (rule, f) ∈ d.fragments) {before symbols : List Symbol} {p q : Nat}
    (hp : Walk d.moves f.entry before p) :
    Walk (ofDraft d start).moves p symbols q ↔ Walk d.moves p symbols q := by
  have hdone : rule ∈ done := by
    have hmem := h.numbers.mem_iff.2 (List.mem_map.2 ⟨_, hf, rfl⟩)
    rwa [List.append_nil] at hmem
  constructor
  · intro walk
    exact walk.imp (fun _ => True)
      (fun p s q _ hmove => ⟨moves_of_moves_ofDraft hmove, trivial⟩) trivial
  · intro walk
    refine walk.imp (fun p => ∃ before, Walk d.moves f.entry before p) (fun p s q hp hmove => ?_)
      ⟨before, hp⟩
    obtain ⟨before, hp⟩ := hp
    exact ⟨moves_ofDraft_of_moves h.valid (h.closed rule f hf hdone before p · · hp) hmove,
      hp.concat hmove⟩

/-- Once all rules are done, the network represents the grammar. -/
theorem represents_ofDraft {done : List Nat} (h : Draft.Progress g d owner done [])
    (hstart : ∃ f, (g.start, f) ∈ d.fragments) : (ofDraft d g.start).Represents g := by
  have valid := h.valid
  have hfragment : ∀ {rule f}, (ofDraft d g.start).fragmentOf? rule = some f ↔
      (rule, f) ∈ d.fragments := lookup_eq_some_iff_mem valid.nodup
  constructor
  case start_eq => rfl
  case start_fragment => exact hstart.imp fun f hf => hfragment.2 hf
  case source_eq => exact fun p call hcall => (mem_callsFrom_ofDraft.1 hcall).2.2
  case lt_size => exact fun p s q hmove => valid.lt_size p s q (moves_of_moves_ofDraft hmove)
  case fragment_lt => exact fun rule f hf => valid.fragment_lt rule f (hfragment.1 hf)
  case owner =>
    exact ⟨owner, fun p s q hmove => valid.owner_move p s q (moves_of_moves_ofDraft hmove),
      fun rule f hf => valid.owner_fragment rule f (hfragment.1 hf)⟩
  case walk_iff =>
    intro rule f hf symbols
    have hf' := hfragment.1 hf
    exact (walk_ofDraft_iff h hf' (.nil _)).trans (valid.walk_iff rule f hf' symbols)
  case entry_ne =>
    exact fun rule f hf p s hmove =>
      valid.entry_ne rule f (hfragment.1 hf) p s (moves_of_moves_ofDraft hmove)
  case exits =>
    intro rule f hf before p s q walk hmove
    have hf' := hfragment.1 hf
    have walk' := (walk_ofDraft_iff h hf' (.nil _)).1 walk
    have hmove' := moves_of_moves_ofDraft hmove
    obtain ⟨after, hafter⟩ := valid.exits rule f hf' before p s q walk' hmove'
    exact ⟨after, (walk_ofDraft_iff h hf' (walk'.append (.symbol hmove' (.nil q)))).2 hafter⟩
  case callee =>
    intro p rule q hmove
    obtain ⟨f, hf⟩ := valid.callee _ (mem_callsFrom_ofDraft.1 hmove).2.1
    exact ⟨f, hfragment.2 hf⟩
  case predict_iff =>
    intro p rule q
    refine (valid.predict_iff p rule q).trans (exists_congr fun f => exists_congr fun t => ?_)
    refine and_congr hfragment.symm (and_congr_right fun _ => ?_)
    constructor
    · intro hcall
      have hlt := (valid.lt_size p (some (.rule rule)) t (.inr hcall)).1
      exact mem_callsFrom_ofDraft.2 ⟨hlt, hcall, rfl⟩
    · exact fun hmove => (mem_callsFrom_ofDraft.1 hmove).2.1
  case final_iff =>
    exact fun q rule => (valid.final_iff q rule).trans
      (exists_congr fun f => and_congr_left fun _ => hfragment.symm)

end

/-- The draft that the work begins with, in which the start rule is pending. -/
theorem Draft.progress_start {g : Grammar} (wellFormed : g.WellFormed) {r : Rule}
    (h : g.rules[g.start]? = some r) :
    ∃ owner, Draft.Progress g (Draft.added {} g.start r) owner [] [g.start] := by
  have hfresh : ∀ f, (g.start, f) ∉ ({} : Draft).fragments := fun f h => nomatch h
  have valid := (Draft.valid_empty g fun _ => 0).added wellFormed.start_lt hfresh
    (Draft.productions_of_rule wellFormed h)
  exact ⟨_, valid, .refl _, fun _ hcall => (nomatch hcall), fun _ _ _ hdone => nomatch hdone⟩

/-- Resolving all references ends with a draft in which all rules are done. -/
theorem Draft.exists_resolveAll {g : Grammar} (wellFormed : g.WellFormed) {r : Rule}
    (h : g.rules[g.start]? = some r) : ∃ d owner done,
      Draft.resolveAll g (g.rules.length + 1) (Draft.added {} g.start r, [g.start]) = .ok d ∧
      Draft.Progress g d owner done [] ∧ ∃ f, (g.start, f) ∈ d.fragments := by
  obtain ⟨owner, first⟩ := Draft.progress_start wellFormed h
  obtain ⟨d, owner', done, hall, hprogress, hgrown⟩ :=
    Draft.resolveAll_ok wellFormed (g.rules.length + 1) first (by simp)
  exact ⟨d, owner', done, hall, hprogress, _,
    hgrown _ (Draft.mem_fragments_added.2 (.inr ⟨rfl, rfl⟩))⟩

theorem exists_startRule {g : Grammar} (wellFormed : g.WellFormed) :
    ∃ r, g.rules[g.start]? = some r :=
  ⟨_, List.getElem?_eq_getElem wellFormed.start_lt⟩

/-- The network is the draft that resolving all references ends with. -/
theorem ofGrammar_of_resolveAll {g : Grammar} {r : Rule} {d : Draft}
    (h : g.rules[g.start]? = some r)
    (hall : Draft.resolveAll g (g.rules.length + 1) (Draft.added {} g.start r, [g.start]) = .ok d) :
    ofGrammar g = .ok (ofDraft d g.start) := by
  unfold ofGrammar
  rw [Draft.addFragment_eq h]
  show (Draft.resolveAll g (g.rules.length + 1) (Draft.added {} g.start r, [g.start]) >>= _) = _
  rw [hall]
  rfl

/-- The network of a well-formed grammar is a draft in which all rules are done. -/
theorem ofGrammar_eq_ofDraft {g : Grammar} (wellFormed : g.WellFormed) :
    ∃ d owner done, ofGrammar g = .ok (ofDraft d g.start) ∧ Draft.Progress g d owner done [] ∧
      ∃ f, (g.start, f) ∈ d.fragments := by
  obtain ⟨r, hstart⟩ := exists_startRule wellFormed
  obtain ⟨d, owner, done, hall, hprogress⟩ := Draft.exists_resolveAll wellFormed hstart
  exact ⟨d, owner, done, ofGrammar_of_resolveAll hstart hall, hprogress⟩

/-- A well-formed grammar has a network, which represents it. -/
theorem ofGrammar_ok {g : Grammar} (wellFormed : g.WellFormed) :
    ∃ net, ofGrammar g = .ok net ∧ net.Represents g := by
  obtain ⟨d, owner, done, hnet, hprogress, hstart⟩ := ofGrammar_eq_ofDraft wellFormed
  exact ⟨ofDraft d g.start, hnet, represents_ofDraft hprogress hstart⟩

end LexChart.RuleNetwork
