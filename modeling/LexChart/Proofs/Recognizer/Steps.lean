import LexChart.Proofs.Recognizer.Network
import Mathlib.Data.List.Sigma
set_option autoImplicit false

/-!
# Drafts in the making

A network is put together in small steps: a rule is added that an open reference refers to, or an
open reference is joined to the fragment of its rule.  `Grown` holds of the drafts on the way, so
what every step keeps holds of every network.

The references of a rule are listed before the first of them is resolved.  They are still open when
their turn comes, for resolving one of them leaves the others alone, and none is listed twice.

The limit on the number of rules only serves the recursion: every larger one gives the same network.
-/

namespace LexChart.RuleNetwork

namespace Draft

variable {g : Grammar} {d d' : Draft} {ref ref' : OpenReference}

/-- The reference stands open. -/
def Open (d : Draft) (ref : OpenReference) : Prop :=
  d.nfa.transitionAt ref.call.source ref.position =
    some (.symbol (.resolve ref.call.rule) ref.call.target)

/-- The drafts that a grammar leads to, by adding the rules of open references and joining open
references to the fragments of their rules. -/
inductive Grown (g : Grammar) : Draft → Prop where
  | start {r : Rule} : g.rules[g.start]? = some r → Grown g (added {} g.start r)
  | added {d : Draft} {ref : OpenReference} {r : Rule} : Grown g d → d.Open ref →
      (∀ f, (ref.call.rule, f) ∉ d.fragments) → g.rules[ref.call.rule]? = some r →
      Grown g (d.added ref.call.rule r)
  | joined {d : Draft} {ref : OpenReference} {callee : Fragment} : Grown g d → d.Open ref →
      (ref.call.rule, callee) ∈ d.fragments → Grown g (d.join ref callee)

/-! ## References that stay open -/

/-- There is one open reference at a position of a state. -/
theorem Open.unique (h : d.Open ref) (h' : d.Open ref')
    (hsource : ref.call.source = ref'.call.source) (hposition : ref.position = ref'.position) :
    ref = ref' := by
  obtain ⟨⟨source, rule, target⟩, position⟩ := ref
  obtain ⟨⟨source', rule', target'⟩, position'⟩ := ref'
  dsimp only at hsource hposition
  subst hsource hposition
  cases Option.some.inj (h.symm.trans h')
  rfl

theorem Open.pending (h : d.Open ref) (callee : Fragment) : d.Pending ref callee := .inl h

/-- Adding a rule leaves references open. -/
theorem Open.added (h : d.Open ref) (rule : Nat) (r : Rule) : (d.added rule r).Open ref :=
  (transitionAt_added_of_lt (Nfa.lt_of_transitionAt h) _).trans h

/-- Joining a reference leaves the other ones open. -/
theorem Open.join (h : d.Open ref) (h' : d.Open ref') (hne : ref ≠ ref') (callee : Fragment) :
    (d.join ref' callee).Open ref := by
  refine (transitionAt_join (h'.pending callee) h).trans ?_
  rw [if_neg fun hat => hne (h.unique h' hat.1 hat.2)]

/-! ## The references of a rule -/

theorem nodup_of_innerTransitions {nfa : Nfa NetworkLabel} {id : Nat}
    {found : List (Nat × Transition NetworkLabel)} (h : innerTransitions nfa id = .ok found) :
    found.Nodup := by
  obtain ⟨s, -, heq⟩ := bind_eq_ok_iff.1 h
  cases heq
  refine List.Nodup.filterMap (fun (t, position) (u, other) found ht hu => ?_)
    (List.Nodup.of_map Prod.snd (List.nodup_zipIdx_map_snd s.transitions))
  dsimp only at ht hu
  split at ht
  · cases ht
  · split at hu
    · cases hu
    · cases ht
      cases hu
      rfl

theorem transitionAt_of_innerTransitions {nfa : Nfa NetworkLabel} {id : Nat}
    {found : List (Nat × Transition NetworkLabel)} (h : innerTransitions nfa id = .ok found)
    {position : Nat} {t : Transition NetworkLabel} (ht : (position, t) ∈ found) :
    nfa.transitionAt id position = some t := by
  have hlt : id < nfa.size := by
    obtain ⟨s, hs, -⟩ := bind_eq_ok_iff.1 h
    exact (Array.getElem?_eq_some_iff.1 (Nfa.state_eq_ok_iff.1 hs)).1
  obtain ⟨found', hfound', hmem⟩ := innerTransitions_ok hlt
  rw [h] at hfound'
  cases hfound'
  exact ((hmem position t).1 ht).1

/-- The references that are listed for a fragment stand open, and none is listed twice. -/
theorem open_of_openReferences {f : Fragment} {found : List OpenReference}
    (h : openReferences d.nfa f = .ok found) : found.Nodup ∧ ∀ ref ∈ found, d.Open ref := by
  obtain ⟨walked, hwalked, heq⟩ := bind_eq_ok_iff.1 h
  cases heq
  obtain ⟨register, hstates, frontier⟩ :=
    Numbering.frontier_of_expand Numbering.frontier_root hwalked
  have hedges : ∀ source edges, (source, edges) ∈ walked.states.toList.zip walked.edges.toList →
      innerTransitions d.nfa source = .ok (edges.map Prod.fst) := by
    intro source edges hmem
    obtain ⟨id, hid⟩ := List.mem_iff_getElem?.1 hmem
    rw [List.getElem?_zip_eq_some, Array.getElem?_toList, Array.getElem?_toList, ← hstates] at hid
    exact frontier.found id source edges hid.1 hid.2
  have hsources : (walked.states.toList.zip walked.edges.toList).Pairwise (fun x y => x.1 ≠ y.1) := by
    refine List.pairwise_iff_getElem.2 fun i j hi hj hlt => ?_
    rw [List.getElem_zip, List.getElem_zip]
    exact List.pairwise_iff_getElem.1 (hstates ▸ frontier.nodup) i j _ _ hlt
  constructor
  · refine List.nodup_flatMap.2 ⟨fun (source, edges) hmem => ?_, hsources.imp fun hne => ?_⟩
    · -- The references that leave one state stand at different positions of it.
      have hinner := nodup_of_innerTransitions (hedges source edges hmem)
      have hmap : (edges.filterMap fun e => openReference? source e.1) =
          (edges.map Prod.fst).filterMap (openReference? source) := by
        rw [List.filterMap_map]
        rfl
      dsimp only
      rw [hmap]
      refine hinner.filterMap fun t u ref ht hu => ?_
      rw [(openReference?_eq_some_iff.1 ht).2, (openReference?_eq_some_iff.1 hu).2]
    · intro ref hx hy
      obtain ⟨t, -, ht⟩ := List.mem_filterMap.1 hx
      obtain ⟨u, -, hu⟩ := List.mem_filterMap.1 hy
      exact hne ((openReference?_eq_some_iff.1 ht).1.symm.trans (openReference?_eq_some_iff.1 hu).1)
  · intro ref href
    obtain ⟨⟨source, edges⟩, hmem, hr⟩ := List.mem_flatMap.1 href
    obtain ⟨⟨t, target⟩, ht, heq⟩ := List.mem_filterMap.1 hr
    obtain ⟨rfl, rfl⟩ := openReference?_eq_some_iff.1 heq
    exact transitionAt_of_innerTransitions (hedges _ edges hmem) (List.mem_map.2 ⟨_, ht, rfl⟩)

/-! ## Every draft on the way -/

theorem Grown.resolve {pending pending' : List Nat} (h : Grown g d) (hopen : d.Open ref)
    (hresolve : Draft.resolve g (d, pending) ref = .ok (d', pending')) :
    Grown g d' ∧ ∀ other, d.Open other → other ≠ ref → d'.Open other := by
  unfold Draft.resolve at hresolve
  dsimp only at hresolve
  split at hresolve
  · rename_i callee hlookup
    cases hresolve
    exact ⟨h.joined hopen (mem_of_lookup_eq_some hlookup),
      fun other hother hne => hother.join hopen hne callee⟩
  · rename_i hlookup
    obtain ⟨⟨d₁, callee⟩, hadd, heq⟩ := bind_eq_ok_iff.1 hresolve
    cases heq
    obtain ⟨r, hr⟩ := exists_rule_of_addFragment hadd
    rw [addFragment_eq hr] at hadd
    cases hadd
    have hfresh : ∀ f, (ref.call.rule, f) ∉ d.fragments := by
      intro f hf
      have hne := List.lookup_eq_none_iff.1 hlookup _ hf
      simp at hne
    have hadded := h.added hopen hfresh hr
    have hopen' := hopen.added ref.call.rule r
    exact ⟨hadded.joined hopen' (mem_fragments_added.2 (.inr ⟨rfl, rfl⟩)),
      fun other hother hne => (hother.added ref.call.rule r).join hopen' hne _⟩

theorem Grown.foldlM {found : List OpenReference} {pending pending' : List Nat} (h : Grown g d)
    (hnodup : found.Nodup) (hopen : ∀ ref ∈ found, d.Open ref)
    (hfold : found.foldlM (Draft.resolve g) (d, pending) = .ok (d', pending')) : Grown g d' := by
  induction found generalizing d pending with
  | nil =>
    cases hfold
    exact h
  | cons ref found ih =>
    rw [List.foldlM_cons] at hfold
    obtain ⟨⟨d₁, pending₁⟩, hresolve, hrest⟩ := bind_eq_ok_iff.1 hfold
    obtain ⟨hne, hnodup⟩ := List.nodup_cons.1 hnodup
    obtain ⟨hfirst, hopen⟩ := List.forall_mem_cons.1 hopen
    obtain ⟨hgrown, hstay⟩ := h.resolve hfirst hresolve
    refine ih hgrown hnodup (fun other hother => ?_) hrest
    exact hstay other (hopen other hother) fun heq => hne (heq ▸ hother)

theorem Grown.resolveAll (limit : Nat) {pending : List Nat} (h : Grown g d)
    (hall : Draft.resolveAll g limit (d, pending) = .ok d') : Grown g d' := by
  induction limit generalizing d pending with
  | zero =>
    cases hall
    exact h
  | succ limit ih =>
    cases pending with
    | nil =>
      cases hall
      exact h
    | cons rule pending =>
      rw [Draft.resolveAll] at hall
      split at hall
      · cases hall
      · obtain ⟨found, hfound, hrest⟩ := bind_eq_ok_iff.1 hall
        obtain ⟨⟨d₁, pending₁⟩, hfold, hrest⟩ := bind_eq_ok_iff.1 hrest
        obtain ⟨hnodup, hopen⟩ := open_of_openReferences hfound
        exact ih (h.foldlM hnodup hopen hfold) hrest

/-! ## The limit -/

/-- Once the limit exceeds the number of rules that are left, it makes no difference. -/
theorem resolveAll_eq (wellFormed : g.WellFormed) (limit limit' : Nat) {owner : Nat → Nat}
    {done pending : List Nat} (h : Progress g d owner done pending)
    (hlimit : g.rules.length < done.length + limit)
    (hlimit' : g.rules.length < done.length + limit') :
    resolveAll g limit (d, pending) = resolveAll g limit' (d, pending) := by
  have hle := h.length_le
  induction limit generalizing limit' d owner done pending with
  | zero => omega
  | succ limit ih =>
    cases limit' with
    | zero => omega
    | succ limit' =>
      cases pending with
      | nil => rfl
      | cons rule pending =>
        obtain ⟨f, found, d₁, owner₁, pending₁, hlookup, hfound, heq, h₁, -⟩ := h.next wellFormed
        have hrest := ih limit' h₁ (by rw [List.length_cons]; omega)
          (by rw [List.length_cons]; omega) h₁.length_le
        rw [resolveAll, resolveAll, hlookup]
        dsimp only
        rw [hfound]
        show (found.foldlM (resolve g) (d, pending) >>= fun state => resolveAll g limit state) =
          found.foldlM (resolve g) (d, pending) >>= fun state => resolveAll g limit' state
        rw [heq]
        exact hrest

end Draft

/-- The network of a grammar, with its own limit on how many rules are taken up. -/
def ofGrammarWithin (g : Grammar) (limit : Nat) : Except Fault RuleNetwork := do
  let (d, _) ← Draft.addFragment g {} g.start
  let d ← Draft.resolveAll g limit (d, [g.start])
  pure (ofDraft d g.start)

/-- The limit on how many rules are taken up is never what ends the work. -/
theorem ofGrammarWithin_eq {g : Grammar} (wellFormed : g.WellFormed) {limit : Nat}
    (hlimit : g.rules.length < limit) : ofGrammarWithin g limit = ofGrammar g := by
  obtain ⟨r, hstart⟩ := exists_startRule wellFormed
  obtain ⟨owner, first⟩ := Draft.progress_start wellFormed hstart
  have heq := Draft.resolveAll_eq wellFormed limit (g.rules.length + 1) first (by simpa) (by simp)
  unfold ofGrammarWithin ofGrammar
  rw [Draft.addFragment_eq hstart]
  show (Draft.resolveAll g limit (Draft.added {} g.start r, [g.start]) >>= _) =
    (Draft.resolveAll g (g.rules.length + 1) (Draft.added {} g.start r, [g.start]) >>= _)
  rw [heq]
  rfl

/-- The network of a well-formed grammar is a draft that the small steps lead to, and in which all
rules are done. -/
theorem exists_grown {g : Grammar} (wellFormed : g.WellFormed) :
    ∃ d owner done, ofGrammar g = .ok (ofDraft d g.start) ∧ Draft.Progress g d owner done [] ∧
      (∃ f, (g.start, f) ∈ d.fragments) ∧ Draft.Grown g d := by
  obtain ⟨r, hstart⟩ := exists_startRule wellFormed
  obtain ⟨d, owner, done, hall, hprogress, hfragment⟩ := Draft.exists_resolveAll wellFormed hstart
  exact ⟨d, owner, done, ofGrammar_of_resolveAll hstart hall, hprogress, hfragment,
    (Draft.Grown.start hstart).resolveAll _ hall⟩

end LexChart.RuleNetwork
