import LexChart.Proofs.Recognizer.Machine
import LexChart.Proofs.Recognizer.Network
import Mathlib.Algebra.GroupWithZero.Nat
import Mathlib.Algebra.Order.BigOperators.Group.List
import Mathlib.Algebra.Order.Group.Nat
set_option autoImplicit false

/-!
# The size of a network

The fragment of a rule has a fixed number of states, and resolving references adds none.  So a
network has no more states than the fragments of all rules together, and a grammar whose rules are
small enough for that has a machine.
-/

namespace LexChart

/-- The number of states of the fragment of a rule: two for each item, one for each production, and
the two ends of the choice. -/
def Rule.stateCount (r : Rule) : Nat :=
  2 + (r.productions.map fun p => 1 + (p.rhs.map fun _ => 2).sum).sum

/-- The number of states of the fragments of all rules. -/
def Grammar.stateCount (g : Grammar) : Nat := (g.rules.map Rule.stateCount).sum

namespace Building

variable {L : Type}

/-- The builder adds as many states. -/
def Adds {α : Type} (builder : Building L α) (count : Nat) : Prop :=
  ∀ nfa, (builder nfa).2.size = nfa.size + count

theorem Adds.bind {α β : Type} {builder : Building L α} {next : α → Building L β} {first rest : Nat}
    (h : Adds builder first) (k : ∀ a, Adds (next a) rest) :
    Adds (builder >>= next) (first + rest) := by
  intro nfa
  show (next (builder nfa).1 (builder nfa).2).2.size = _
  rw [k, h, Nat.add_assoc]

theorem adds_pure {α : Type} (a : α) : Adds (pure a : Building L α) 0 := fun _ => rfl

theorem adds_newState : Adds (newState : Building L Nat) 1 := fun nfa => Nfa.size_addState nfa

theorem adds_connect (source : Nat) (t : Transition L) : Adds (connect source t) 0 :=
  fun nfa => Nfa.size_modifyState nfa source _

theorem adds_connectAll (source target : Nat) (labels : List L) :
    Adds (connectAll source target labels) 0 := by
  induction labels with
  | nil => exact adds_pure ()
  | cons label rest ih => exact (adds_connect source (.symbol label target)).bind fun _ => ih

theorem adds_symbols (labels : List L) : Adds (symbols labels) 2 :=
  adds_newState.bind fun entry => adds_newState.bind fun exit =>
    (adds_connectAll entry exit labels).bind fun _ => adds_pure _

section

variable {β : Type} {builder : β → Building L Fragment} {count : β → Nat} {xs : List β}

theorem adds_branches (entry exit : Nat) (h : ∀ x ∈ xs, Adds (builder x) (count x)) :
    Adds (branches entry exit (xs.map builder)) (xs.map count).sum := by
  induction xs with
  | nil => exact adds_pure ()
  | cons x xs ih =>
    obtain ⟨hx, hxs⟩ := List.forall_mem_cons.1 h
    have hrest := fun branch : Fragment => (adds_connect entry (.null branch.entry)).bind fun _ =>
      (adds_connect branch.exit (.null exit)).bind fun _ => ih hxs
    simp only [Nat.zero_add] at hrest
    exact hx.bind hrest

theorem adds_choice (h : ∀ x ∈ xs, Adds (builder x) (count x)) :
    Adds (choice (xs.map builder)) (2 + (xs.map count).sum) := by
  have hall := adds_newState.bind fun entry : Nat => adds_newState.bind fun exit : Nat =>
    (adds_branches entry exit h).bind fun _ => adds_pure (Fragment.mk entry exit)
  rw [Nat.add_zero, ← Nat.add_assoc] at hall
  exact hall

theorem adds_chain (last : Nat) (h : ∀ x ∈ xs, Adds (builder x) (count x)) :
    Adds (chain last (xs.map builder)) (xs.map count).sum := by
  induction xs generalizing last with
  | nil => exact adds_pure last
  | cons x xs ih =>
    obtain ⟨hx, hxs⟩ := List.forall_mem_cons.1 h
    have hrest := fun item : Fragment => (adds_connect last (.null item.entry)).bind fun _ =>
      ih item.exit hxs
    simp only [Nat.zero_add] at hrest
    exact hx.bind hrest

theorem adds_sequence (h : ∀ x ∈ xs, Adds (builder x) (count x)) :
    Adds (sequence (xs.map builder)) (1 + (xs.map count).sum) :=
  adds_newState.bind fun entry => (adds_chain entry h).bind fun _ => adds_pure _

end

end Building

namespace RuleNetwork

open Building

theorem adds_ruleBuilder (r : Rule) : Adds (ruleBuilder r) r.stateCount := by
  rw [ruleBuilder_eq]
  exact adds_choice fun p _ => adds_sequence fun s _ => adds_symbols _

namespace Draft

variable {g : Grammar} {d d' : Draft}

/-- The number of states of the fragment of a rule, by its number. -/
def statesOf (g : Grammar) (rule : Nat) : Nat := (g.rules[rule]?).elim 0 Rule.stateCount

/-- The states of the draft are those of its fragments. -/
def Sized (g : Grammar) (d : Draft) : Prop :=
  d.nfa.size = ((d.fragments.map Prod.fst).map (statesOf g)).sum

theorem Sized.addFragment {rule : Nat} {f : Fragment} (h : d.Sized g)
    (hadd : d.addFragment g rule = .ok (d', f)) : d'.Sized g := by
  obtain ⟨r, hget⟩ := exists_rule_of_addFragment hadd
  rw [addFragment_eq hget] at hadd
  cases hadd
  have hsize : (d.added rule r).nfa.size = d.nfa.size + r.stateCount :=
    size_added.trans (adds_ruleBuilder r d.nfa)
  unfold Sized at *
  rw [hsize, h]
  simp [added, statesOf, hget]

theorem Sized.resolve {r : OpenReference} {pending pending' : List Nat} (h : d.Sized g)
    (hresolve : Draft.resolve g (d, pending) r = .ok (d', pending')) : d'.Sized g := by
  unfold Draft.resolve at hresolve
  dsimp only at hresolve
  split at hresolve
  · cases hresolve
    exact size_join.trans h
  · obtain ⟨⟨d₁, callee⟩, hadd, heq⟩ := bind_eq_ok_iff.1 hresolve
    cases heq
    exact size_join.trans (h.addFragment hadd)

theorem Sized.foldlM {found : List OpenReference} {pending pending' : List Nat} (h : d.Sized g)
    (hfold : found.foldlM (Draft.resolve g) (d, pending) = .ok (d', pending')) : d'.Sized g := by
  induction found generalizing d pending with
  | nil =>
    cases hfold
    exact h
  | cons r found ih =>
    rw [List.foldlM_cons] at hfold
    obtain ⟨⟨d₁, pending₁⟩, hresolve, hrest⟩ := bind_eq_ok_iff.1 hfold
    exact ih (h.resolve hresolve) hrest

theorem Sized.resolveAll (limit : Nat) {pending : List Nat} (h : d.Sized g)
    (hall : Draft.resolveAll g limit (d, pending) = .ok d') : d'.Sized g := by
  induction limit generalizing d pending with
  | zero =>
    cases hall
    exact h
  | succ limit ih =>
    cases pending with
    | nil =>
      cases hall
      exact h
    | cons rule pending =>
      rw [Draft.resolveAll] at hall
      split at hall
      · cases hall
      · obtain ⟨found, -, hrest⟩ := bind_eq_ok_iff.1 hall
        obtain ⟨⟨d₁, pending₁⟩, hfold, hrest⟩ := bind_eq_ok_iff.1 hrest
        exact ih (h.foldlM hfold) hrest

/-- No fragment is counted twice. -/
theorem Sized.le {owner : Nat → Nat} (h : d.Sized g) (valid : d.Valid g owner) :
    d.nfa.size ≤ g.stateCount := by
  have hsub : d.fragments.map Prod.fst ⊆ List.range g.rules.length := by
    intro rule hrule
    obtain ⟨⟨rule, f⟩, hf, rfl⟩ := List.mem_map.1 hrule
    exact List.mem_range.2 (valid.fragment_lt rule f hf).1
  have hall : (List.range g.rules.length).map (statesOf g) = g.rules.map Rule.stateCount := by
    refine List.ext_getElem (by simp) fun id _ hid => ?_
    rw [List.length_map] at hid
    rw [List.getElem_map, List.getElem_map, List.getElem_range, statesOf,
      List.getElem?_eq_getElem hid]
    rfl
  obtain ⟨chosen, hperm, hsublist⟩ := List.subperm_of_subset valid.nodup hsub
  unfold Sized at h
  rw [h, ← (hperm.map (statesOf g)).sum_eq]
  unfold Grammar.stateCount
  rw [← hall]
  exact (hsublist.map (statesOf g)).sum_le_sum fun _ _ => Nat.zero_le _

end Draft

/-- A network has no more states than the fragments of all rules. -/
theorem size_le_stateCount {g : Grammar} (wellFormed : g.WellFormed) {net : RuleNetwork}
    (h : ofGrammar g = .ok net) : net.nfa.size ≤ g.stateCount := by
  obtain ⟨d, owner, done, hdraft, hprogress, -⟩ := ofGrammar_eq_ofDraft wellFormed
  obtain ⟨⟨d₀, f⟩, hadd, hrest⟩ := bind_eq_ok_iff.1 h
  obtain ⟨d₁, hall, heq⟩ := bind_eq_ok_iff.1 hrest
  have hempty : Draft.Sized g {} := rfl
  have hsized := (hempty.addFragment hadd).resolveAll _ hall
  rw [h] at hdraft
  have hnet := Except.ok.inj (heq.trans hdraft)
  have hnfa : d₁.nfa = d.nfa := congrArg RuleNetwork.nfa hnet
  have hfragments : d₁.fragments = d.fragments := congrArg RuleNetwork.fragments hnet
  unfold Draft.Sized at hsized
  rw [hnfa, hfragments] at hsized
  rw [Except.ok.inj hdraft]
  exact Draft.Sized.le hsized hprogress.valid

end RuleNetwork

/-- A grammar whose rules have few enough states has a machine. -/
theorem Machine.ofGrammar_ok {g : Grammar} (wellFormed : g.WellFormed) (nullable : g.NullableExact)
    (hsize : g.stateCount < sizeLimit) : ∃ m, Machine.ofGrammar g = .ok m := by
  obtain ⟨net, hnet, represents⟩ := RuleNetwork.ofGrammar_ok wellFormed
  have hlimit := Nat.lt_of_le_of_lt (RuleNetwork.size_le_stateCount wellFormed hnet) hsize
  obtain ⟨m, hm, -⟩ := Machine.ofNetwork_ok represents nullable hlimit
  exact ⟨m, bind_eq_ok_iff.2 ⟨net, hnet, hm⟩⟩

end LexChart
