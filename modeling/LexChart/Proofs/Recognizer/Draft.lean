import LexChart.Proofs.Recognizer.RuleFragment
set_option autoImplicit false

/-!
# Networks that are still being put together

In a draft a rule is read over an open reference as well as over a call.  `Draft.Valid` says what
holds of a draft at any time, `Draft.Extends` what is kept when it grows: the states that there were
keep their moves, and a transition changes only if it is an open reference that is resolved.

There are two ways to grow.  `addFragment` adds the fragment of a rule behind all states, and `join`
resolves a reference, which neither adds nor takes away a move.
-/

namespace LexChart

namespace Nfa

variable {L : Type}

/-- The transition of a state at a position. -/
def transitionAt (nfa : Nfa L) (id position : Nat) : Option (Transition L) :=
  nfa.states[id]?.bind fun s => s.transitions[position]?

theorem leaves_iff_transitionAt {nfa : Nfa L} {id : Nat} {t : Transition L} :
    nfa.Leaves id t ↔ ∃ position, nfa.transitionAt id position = some t := by
  rw [leaves_iff]
  unfold transitionAt
  constructor
  · rintro ⟨s, hs, ht⟩
    obtain ⟨position, hposition⟩ := List.mem_iff_getElem?.1 ht
    refine ⟨position, ?_⟩
    rw [hs]
    exact hposition
  · rintro ⟨position, hposition⟩
    obtain ⟨s, hs, ht⟩ := Option.bind_eq_some_iff.1 hposition
    exact ⟨s, hs, List.mem_of_getElem? ht⟩

theorem lt_of_transitionAt {nfa : Nfa L} {id position : Nat} {t : Transition L}
    (h : nfa.transitionAt id position = some t) : id < nfa.size :=
  (leaves_iff_transitionAt.2 ⟨position, h⟩).lt

/-- The automaton with another transition at a position of a state. -/
def replaced (nfa : Nfa L) (source position : Nat) (t : Transition L) : Nfa L :=
  nfa.modifyState source fun s => { s with transitions := s.transitions.set position t }

theorem transitionAt_replaced {nfa : Nfa L} {source position : Nat} {old t : Transition L}
    (h : nfa.transitionAt source position = some old) (id at_ : Nat) :
    (nfa.replaced source position t).transitionAt id at_ =
      if id = source ∧ at_ = position then some t else nfa.transitionAt id at_ := by
  unfold transitionAt replaced
  rw [getElem?_modifyState]
  by_cases hid : source = id
  · subst hid
    rw [if_pos rfl]
    obtain ⟨s, hs, hold⟩ := Option.bind_eq_some_iff.1 h
    have hlt := (List.getElem?_eq_some_iff.1 hold).1
    rw [hs]
    show (s.transitions.set position t)[at_]? = if _ then _ else s.transitions[at_]?
    rw [List.getElem?_set, if_pos hlt]
    by_cases hat : position = at_
    · rw [if_pos hat, if_pos ⟨rfl, hat.symm⟩]
    · rw [if_neg hat, if_neg fun h => hat h.2.symm]
  · rw [if_neg hid, if_neg fun h => hid h.1.symm]

/-- One more transition stands behind those of its state. -/
theorem transitionAt_addTransition {nfa : Nfa L} (source : Nat)
    (t : Transition L) {id position : Nat} :
    (∀ u, nfa.transitionAt id position = some u →
      (nfa.modifyState source fun s => s.addTransition t).transitionAt id position = some u) ∧
    ∀ u, (nfa.modifyState source fun s => s.addTransition t).transitionAt id position = some u →
      nfa.transitionAt id position = some u ∨ u = t := by
  unfold transitionAt
  rw [getElem?_modifyState]
  split
  · cases nfa.states[id]? with
    | none => exact ⟨fun _ h => h, fun _ h => .inl h⟩
    | some s =>
      refine ⟨fun u hu => ?_, fun u hu => ?_⟩
      · exact getElem?_concat_eq_some_iff.2 (.inl hu)
      · rcases getElem?_concat_eq_some_iff.1 hu with hu | ⟨-, rfl⟩
        · exact .inl hu
        · exact .inr rfl
  · exact ⟨fun _ h => h, fun _ h => .inl h⟩

/-- Changing the transitions of a state changes none of the rules that it is final for. -/
theorem isFinal_modifyState {nfa : Nfa L} (source : Nat) (f : NfaState L → NfaState L)
    (hf : ∀ s, (f s).accept = s.accept) {id rule : Nat} :
    (nfa.modifyState source f).IsFinal id rule ↔ nfa.IsFinal id rule := by
  unfold IsFinal
  simp only [state_eq_ok_iff, getElem?_modifyState]
  split
  · constructor
    · rintro ⟨s, hs, haccept⟩
      obtain ⟨s', hs', rfl⟩ := Option.map_eq_some_iff.1 hs
      exact ⟨s', hs', (hf s').symm.trans haccept⟩
    · rintro ⟨s, hs, haccept⟩
      exact ⟨f s, by rw [hs]; rfl, (hf s).trans haccept⟩
  · exact Iff.rfl

end Nfa

namespace RuleNetwork

namespace Draft

open NetworkLabel Building

/-- The moves of a draft: rules are read over open references and over calls. -/
def moves (d : Draft) : Moves
  | p, none, q => d.nfa.Leaves p (.null q)
  | p, some (.lex id), q => d.nfa.Leaves p (.symbol (.scan id) q)
  | p, some (.rule id), q => d.nfa.Leaves p (.symbol (.resolve id) q) ∨ ⟨p, id, q⟩ ∈ d.calls

/-- What holds of a draft at any time, given the rule that each state belongs to. -/
structure Valid (g : Grammar) (d : Draft) (owner : Nat → Nat) : Prop where
  lt_size : ∀ p s q, d.moves p s q → p < d.nfa.size ∧ q < d.nfa.size
  nodup : (d.fragments.map Prod.fst).Nodup
  fragment_lt : ∀ rule f, (rule, f) ∈ d.fragments →
    rule < g.rules.length ∧ f.entry < d.nfa.size ∧ f.exit < d.nfa.size
  owner_move : ∀ p s q, d.moves p s q → owner q = owner p
  owner_fragment : ∀ rule f, (rule, f) ∈ d.fragments → owner f.entry = rule ∧ owner f.exit = rule
  walk_iff : ∀ rule f, (rule, f) ∈ d.fragments → ∀ symbols,
    Walk d.moves f.entry symbols f.exit ↔ ⟨rule, symbols⟩ ∈ g.productions
  entry_ne : ∀ rule f, (rule, f) ∈ d.fragments → ∀ p s, ¬ d.moves p s f.entry
  exits : ∀ rule f, (rule, f) ∈ d.fragments → ∀ before p s q, Walk d.moves f.entry before p →
    d.moves p (some s) q → ∃ after, Walk d.moves q after f.exit
  callee : ∀ call ∈ d.calls, ∃ f, (call.rule, f) ∈ d.fragments
  predict_iff : ∀ p rule q, d.nfa.Leaves p (.symbol (.predict rule) q) ↔
    ∃ f t, (rule, f) ∈ d.fragments ∧ f.entry = q ∧ ⟨p, rule, t⟩ ∈ d.calls
  final_iff : ∀ q rule, d.nfa.IsFinal q rule ↔ ∃ f, (rule, f) ∈ d.fragments ∧ f.exit = q

section

variable {g : Grammar} {d : Draft} {owner : Nat → Nat} {rule : Nat} {f : Fragment}

theorem Valid.fragment_unique (valid : d.Valid g owner) {f' : Fragment}
    (hf : (rule, f) ∈ d.fragments) (hf' : (rule, f') ∈ d.fragments) : f = f' :=
  congrArg Prod.snd (List.inj_on_of_nodup_map valid.nodup hf hf' rfl)

/-- Walks from the entry of a rule stay among the states that belong to it. -/
theorem Valid.walk_inside (valid : d.Valid g owner) (hf : (rule, f) ∈ d.fragments)
    {symbols : List Symbol} {p : Nat} (walk : Walk d.moves f.entry symbols p) :
    p < d.nfa.size ∧ owner p = rule := by
  refine walk.keeps (fun p => p < d.nfa.size ∧ owner p = rule) (fun p s q hp hmove => ?_)
    ⟨(valid.fragment_lt rule f hf).2.1, (valid.owner_fragment rule f hf).1⟩
  exact ⟨(valid.lt_size p s q hmove).2, (valid.owner_move p s q hmove).trans hp.2⟩

end

/-- A draft has grown: the states that there were keep their moves, and of their transitions only
open references change, by being resolved. -/
structure Extends (d d' : Draft) : Prop where
  size_le : d.nfa.size ≤ d'.nfa.size
  fragments : ∀ x ∈ d.fragments, x ∈ d'.fragments
  calls : ∀ call ∈ d.calls, call ∈ d'.calls
  moves_iff : ∀ p < d.nfa.size, ∀ s q, d'.moves p s q ↔ d.moves p s q
  transition : ∀ p position t, d.nfa.transitionAt p position = some t →
    d'.nfa.transitionAt p position = some t ∨ ∃ rule q f, t = .symbol (.resolve rule) q ∧
      d'.nfa.transitionAt p position = some (.symbol (.predict rule) f.entry) ∧
      (rule, f) ∈ d'.fragments ∧ ⟨p, rule, q⟩ ∈ d'.calls
  opened : ∀ p position rule q, p < d.nfa.size →
    d'.nfa.transitionAt p position = some (.symbol (.resolve rule) q) →
    d.nfa.transitionAt p position = some (.symbol (.resolve rule) q)

theorem Extends.refl (d : Draft) : d.Extends d :=
  ⟨Nat.le_refl _, fun _ h => h, fun _ h => h, fun _ _ _ _ => Iff.rfl, fun _ _ _ h => .inl h,
    fun _ _ _ _ _ h => h⟩

theorem Extends.trans {d d' d'' : Draft} (h : d.Extends d') (k : d'.Extends d'') :
    d.Extends d'' := by
  refine ⟨Nat.le_trans h.size_le k.size_le, fun x hx => k.fragments x (h.fragments x hx),
    fun call hcall => k.calls call (h.calls call hcall), fun p hp s q => ?_,
    fun p position t ht => ?_, fun p position rule q hp ht => ?_⟩
  · exact (k.moves_iff p (Nat.lt_of_lt_of_le hp h.size_le) s q).trans (h.moves_iff p hp s q)
  · rcases h.transition p position t ht with ht | ⟨rule, q, f, rfl, ht, hf, hcall⟩
    · exact k.transition p position t ht
    · refine .inr ⟨rule, q, f, rfl, ?_, k.fragments _ hf, k.calls _ hcall⟩
      rcases k.transition p position _ ht with ht | ⟨_, _, _, heq, _⟩
      · exact ht
      · cases heq
  · exact h.opened p position rule q hp
      (k.opened p position rule q (Nat.lt_of_lt_of_le hp h.size_le) ht)

/-- States that there were walk as before. -/
theorem Extends.walk_iff {d d' : Draft} (h : d.Extends d')
    (hlt : ∀ p s q, d.moves p s q → p < d.nfa.size ∧ q < d.nfa.size) {p q : Nat}
    {symbols : List Symbol}
    (hp : p < d.nfa.size) : Walk d'.moves p symbols q ↔ Walk d.moves p symbols q := by
  constructor
  · intro walk
    refine walk.imp (fun p => p < d.nfa.size) (fun p s q hp hmove => ?_) hp
    have hmove' := (h.moves_iff p hp s q).1 hmove
    exact ⟨hmove', (hlt p s q hmove').2⟩
  · intro walk
    exact walk.imp (fun p => p < d.nfa.size)
      (fun p s q hp hmove => ⟨(h.moves_iff p hp s q).2 hmove, (hlt p s q hmove).2⟩) hp

/-! ## Resolving a reference -/

/-- The reference stands open in the draft, or it is resolved already. -/
def Pending (d : Draft) (r : OpenReference) (callee : Fragment) : Prop :=
  d.nfa.transitionAt r.call.source r.position =
      some (.symbol (.resolve r.call.rule) r.call.target) ∨
    (d.nfa.transitionAt r.call.source r.position =
      some (.symbol (.predict r.call.rule) callee.entry) ∧ r.call ∈ d.calls)

section

variable {d : Draft} {r : OpenReference} {callee : Fragment}

theorem Pending.exists_transition (h : d.Pending r callee) :
    ∃ t, d.nfa.transitionAt r.call.source r.position = some t := by
  rcases h with ht | ⟨ht, -⟩
  · exact ⟨_, ht⟩
  · exact ⟨_, ht⟩

theorem nfa_join : (d.join r callee).nfa =
    (d.nfa.replaced r.call.source r.position
      (.symbol (.predict r.call.rule) callee.entry)).modifyState
      callee.exit fun s => s.addTransition (.symbol (.complete r.call.rule) r.call.target) := rfl

theorem size_join : (d.join r callee).nfa.size = d.nfa.size := by
  rw [nfa_join, Nfa.size_modifyState]
  exact Nfa.size_modifyState ..

/-- What becomes of a transition: it stays, or it is the reference, which predicts now. -/
theorem transitionAt_join (h : d.Pending r callee) {p position : Nat} {t : Transition NetworkLabel}
    (ht : d.nfa.transitionAt p position = some t) :
    (d.join r callee).nfa.transitionAt p position =
      some (if p = r.call.source ∧ position = r.position then
        .symbol (.predict r.call.rule) callee.entry else t) := by
  rw [nfa_join]
  apply (Nfa.transitionAt_addTransition _ _).1 _
  obtain ⟨old, hold⟩ := h.exists_transition
  rw [Nfa.transitionAt_replaced hold, ht]
  split <;> rfl

theorem transitionAt_join_self (h : d.Pending r callee) :
    (d.join r callee).nfa.transitionAt r.call.source r.position =
      some (.symbol (.predict r.call.rule) callee.entry) := by
  obtain ⟨t, ht⟩ := h.exists_transition
  rw [transitionAt_join h ht, if_pos ⟨rfl, rfl⟩]

/-- Where a transition comes from: it was there, it predicts what the reference refers to, or it
completes it. -/
theorem transitionAt_of_join (h : d.Pending r callee) {p position : Nat}
    {t : Transition NetworkLabel}
    (ht : (d.join r callee).nfa.transitionAt p position = some t) :
    d.nfa.transitionAt p position = some t ∨
      (p = r.call.source ∧ position = r.position ∧
        t = .symbol (.predict r.call.rule) callee.entry) ∨
      t = .symbol (.complete r.call.rule) r.call.target := by
  rw [nfa_join] at ht
  rcases (Nfa.transitionAt_addTransition _ _).2 _ ht with ht | rfl
  · have hold : ∃ old, d.nfa.transitionAt r.call.source r.position = some old := by
      rcases h with h | h
      · exact ⟨_, h⟩
      · exact ⟨_, h.1⟩
    obtain ⟨old, hold⟩ := hold
    rw [Nfa.transitionAt_replaced hold] at ht
    split at ht
    · rename_i hat
      exact .inr (.inl ⟨hat.1, hat.2, (Option.some.inj ht).symm⟩)
    · exact .inl ht
  · exact .inr (.inr rfl)

/-- Transitions other than those that resolving a reference is about are the same ones. -/
theorem leaves_join_iff (h : d.Pending r callee) {p : Nat} {t : Transition NetworkLabel}
    (hcrosses : ∀ label, t.label? = some label → label.Inner)
    (hne : ∀ rule q, t ≠ .symbol (.resolve rule) q) :
    (d.join r callee).nfa.Leaves p t ↔ d.nfa.Leaves p t := by
  rw [Nfa.leaves_iff_transitionAt, Nfa.leaves_iff_transitionAt]
  constructor
  · rintro ⟨position, ht⟩
    rcases transitionAt_of_join h ht with ht | ⟨-, -, rfl⟩ | rfl
    · exact ⟨position, ht⟩
    · exact nomatch hcrosses _ rfl
    · exact nomatch hcrosses _ rfl
  · rintro ⟨position, ht⟩
    refine ⟨position, ?_⟩
    rw [transitionAt_join h ht]
    split
    · rename_i hat
      obtain ⟨rfl, rfl⟩ := hat
      rcases h with h | ⟨h, -⟩
      · rw [ht] at h
        exact absurd (Option.some.inj h) (hne _ _)
      · rw [h] at ht
        rw [Option.some.inj ht]
    · rfl

/-- Resolving a reference neither adds nor takes away a move. -/
theorem moves_join_iff (h : d.Pending r callee) {p : Nat} {s : Option Symbol} {q : Nat} :
    (d.join r callee).moves p s q ↔ d.moves p s q := by
  rcases s with _ | ⟨id⟩ | ⟨rule⟩
  · exact leaves_join_iff h (fun _ hlabel => nomatch hlabel) (fun _ _ hne => nomatch hne)
  · refine leaves_join_iff h (fun label hlabel => ?_) (fun _ _ hne => nomatch hne)
    obtain rfl := Option.some.inj hlabel
    rfl
  · show _ ∨ _ ∈ d.calls ++ [r.call] ↔ _ ∨ _
    rw [List.mem_append, List.mem_singleton, Nfa.leaves_iff_transitionAt,
      Nfa.leaves_iff_transitionAt]
    constructor
    · rintro (⟨position, ht⟩ | hcall | hcall)
      · rcases transitionAt_of_join h ht with ht | ⟨-, -, heq⟩ | heq
        · exact .inl ⟨position, ht⟩
        · cases heq
        · cases heq
      · exact .inr hcall
      · rcases h with h | ⟨-, h⟩
        · rw [← hcall] at h
          exact .inl ⟨r.position, h⟩
        · rw [← hcall] at h
          exact .inr h
    · rintro (⟨position, ht⟩ | hcall)
      · by_cases hat : p = r.call.source ∧ position = r.position
        · obtain ⟨rfl, rfl⟩ := hat
          rcases h with h | ⟨h, -⟩
          · rw [h] at ht
            cases ht
            exact .inr (.inr rfl)
          · rw [h] at ht
            cases ht
        · refine .inl ⟨position, ?_⟩
          rw [transitionAt_join h ht, if_neg hat]
      · exact .inr (.inl hcall)

theorem extends_join (h : d.Pending r callee) (hcallee : (r.call.rule, callee) ∈ d.fragments) :
    d.Extends (d.join r callee) := by
  refine ⟨Nat.le_of_eq size_join.symm, fun _ hx => hx,
    fun call hcall => List.mem_append_left _ hcall,
    fun p _ s q => moves_join_iff h, fun p position t ht => ?_, fun p position rule q _ ht => ?_⟩
  · rw [transitionAt_join h ht]
    split
    · rename_i hat
      obtain ⟨rfl, rfl⟩ := hat
      rcases h with h | ⟨h, -⟩
      · rw [h] at ht
        cases ht
        exact .inr ⟨r.call.rule, r.call.target, callee, rfl, rfl, hcallee,
          List.mem_append_right _ (List.mem_singleton_self _)⟩
      · rw [h] at ht
        cases ht
        exact .inl rfl
    · exact .inl rfl
  · rcases transitionAt_of_join h ht with ht | ⟨-, -, heq⟩ | heq
    · exact ht
    · cases heq
    · cases heq

/-- The reference predicts its callee, and otherwise everything predicts what it did. -/
theorem leaves_predict_join_iff (h : d.Pending r callee) {p rule q : Nat} :
    (d.join r callee).nfa.Leaves p (.symbol (.predict rule) q) ↔
      d.nfa.Leaves p (.symbol (.predict rule) q) ∨
        (p = r.call.source ∧ rule = r.call.rule ∧ q = callee.entry) := by
  simp only [Nfa.leaves_iff_transitionAt]
  constructor
  · rintro ⟨position, ht⟩
    rcases transitionAt_of_join h ht with ht | ⟨rfl, rfl, heq⟩ | heq
    · exact .inl ⟨position, ht⟩
    · cases heq
      exact .inr ⟨rfl, rfl, rfl⟩
    · cases heq
  · rintro (⟨position, ht⟩ | ⟨rfl, rfl, rfl⟩)
    · refine ⟨position, ?_⟩
      rw [transitionAt_join h ht]
      split
      · rename_i hat
        obtain ⟨rfl, rfl⟩ := hat
        rcases h with h | ⟨h, -⟩
        · rw [h] at ht
          cases ht
        · rwa [h] at ht
      · rfl
    · exact ⟨r.position, transitionAt_join_self h⟩

theorem Valid.join {g : Grammar} {owner : Nat → Nat} (valid : d.Valid g owner)
    (h : d.Pending r callee)
    (hcallee : (r.call.rule, callee) ∈ d.fragments) : (d.join r callee).Valid g owner := by
  have hsize : (d.join r callee).nfa.size = d.nfa.size := size_join
  have hmoves : (d.join r callee).moves = d.moves := by
    funext p s q
    exact propext (moves_join_iff h)
  constructor
  case lt_size =>
    rw [hmoves, hsize]
    exact valid.lt_size
  case nodup => exact valid.nodup
  case fragment_lt =>
    rw [hsize]
    exact valid.fragment_lt
  case owner_move =>
    rw [hmoves]
    exact valid.owner_move
  case owner_fragment => exact valid.owner_fragment
  case walk_iff =>
    rw [hmoves]
    exact valid.walk_iff
  case entry_ne =>
    rw [hmoves]
    exact valid.entry_ne
  case exits =>
    rw [hmoves]
    exact valid.exits
  case callee =>
    intro call hcall
    rcases List.mem_append.1 hcall with hcall | hcall
    · exact valid.callee call hcall
    · rw [List.mem_singleton.1 hcall]
      exact ⟨callee, hcallee⟩
  case predict_iff =>
    intro p rule q
    rw [leaves_predict_join_iff h, valid.predict_iff]
    constructor
    · rintro (⟨f, t, hf, hentry, hcall⟩ | ⟨rfl, rfl, rfl⟩)
      · exact ⟨f, t, hf, hentry, List.mem_append_left _ hcall⟩
      · exact ⟨callee, r.call.target, hcallee, rfl,
          List.mem_append_right _ (List.mem_singleton_self _)⟩
    · rintro ⟨f, t, hf, rfl, hcall⟩
      rcases List.mem_append.1 hcall with hcall | hcall
      · exact .inl ⟨f, t, hf, rfl, hcall⟩
      · have hcall' := List.mem_singleton.1 hcall
        have hsource : p = r.call.source := congrArg Call.source hcall'
        have hrule : rule = r.call.rule := congrArg Call.rule hcall'
        subst hsource hrule
        rw [valid.fragment_unique hf hcallee]
        exact .inr ⟨rfl, rfl, rfl⟩
  case final_iff =>
    intro q rule
    have hadd : ∀ (nfa : Nfa NetworkLabel) (t : Transition NetworkLabel),
        (nfa.modifyState callee.exit fun s => s.addTransition t).IsFinal q rule ↔
          nfa.IsFinal q rule :=
      fun _ t => Nfa.isFinal_modifyState _ (fun s => s.addTransition t) fun _ => rfl
    have hreplace : ∀ t : Transition NetworkLabel,
        (d.nfa.replaced r.call.source r.position t).IsFinal q rule ↔ d.nfa.IsFinal q rule :=
      fun t => Nfa.isFinal_modifyState _
        (fun s => { s with transitions := s.transitions.set r.position t }) fun _ => rfl
    exact ((hadd _ _).trans (hreplace _)).trans (valid.final_iff q rule)

end

/-! ## Adding the fragment of a rule -/

/-- The fragment of a rule behind the states of a draft. -/
def fragmentOf (d : Draft) (r : Rule) : Fragment := (ruleBuilder r d.nfa).1

/-- The draft with the fragment of a rule. -/
def added (d : Draft) (rule : Nat) (r : Rule) : Draft where
  nfa := (ruleBuilder r d.nfa).2.modifyState (d.fragmentOf r).exit fun s =>
    { s with accept := some rule }
  fragments := d.fragments ++ [(rule, d.fragmentOf r)]
  calls := d.calls

theorem addFragment_eq {g : Grammar} {rule : Nat} {r : Rule} (h : g.rules[rule]? = some r)
    (d : Draft) :
    addFragment g d rule = .ok (d.added rule r, d.fragmentOf r) := by
  unfold addFragment Grammar.rule
  rw [h]
  rfl

/-- Only rules that there are can be added. -/
theorem exists_rule_of_addFragment {g : Grammar} {d d' : Draft} {rule : Nat} {f : Fragment}
    (h : d.addFragment g rule = .ok (d', f)) : ∃ r, g.rules[rule]? = some r := by
  obtain ⟨r, hr, -⟩ := bind_eq_ok_iff.1 h
  unfold Grammar.rule at hr
  split at hr
  · exact ⟨_, ‹_›⟩
  · cases hr

section

variable {d : Draft} {rule : Nat} {r : Rule}

theorem size_added : (d.added rule r).nfa.size = (ruleBuilder r d.nfa).2.size :=
  Nfa.size_modifyState ..

theorem transitionAt_added (p position : Nat) :
    (d.added rule r).nfa.transitionAt p position =
      (ruleBuilder r d.nfa).2.transitionAt p position := by
  show (Nfa.modifyState _ _ _).transitionAt p position = _
  unfold Nfa.transitionAt
  rw [Nfa.getElem?_modifyState]
  split
  · cases (ruleBuilder r d.nfa).2.states[p]? <;> rfl
  · rfl

theorem leaves_added_iff {p : Nat} {t : Transition NetworkLabel} :
    (d.added rule r).nfa.Leaves p t ↔ (ruleBuilder r d.nfa).2.Leaves p t := by
  simp only [Nfa.leaves_iff_transitionAt, transitionAt_added]

theorem transitionAt_added_of_lt {p : Nat} (h : p < d.nfa.size) (position : Nat) :
    (d.added rule r).nfa.transitionAt p position = d.nfa.transitionAt p position := by
  rw [transitionAt_added]
  unfold Nfa.transitionAt
  rw [((framed_ruleBuilder r).grows d.nfa).kept p h]

theorem moves_added_iff_of_lt {p : Nat} (h : p < d.nfa.size) {s : Option Symbol} {q : Nat} :
    (d.added rule r).moves p s q ↔ d.moves p s q := by
  have hleaves : ∀ t, (d.added rule r).nfa.Leaves p t ↔ d.nfa.Leaves p t := by
    intro t
    simp only [Nfa.leaves_iff_transitionAt, transitionAt_added_of_lt h]
  rcases s with _ | ⟨id⟩ | ⟨id⟩
  · exact hleaves _
  · exact hleaves _
  · exact or_congr (hleaves _) Iff.rfl

/-- The label of a move, or none for a null transition. -/
def transitionOf : Option Symbol → Nat → Transition NetworkLabel
  | none, q => .null q
  | some s, q => .symbol (NetworkLabel.ofSymbol s) q

theorem target_transitionOf (s : Option Symbol) (q : Nat) : (transitionOf s q).target = q := by
  cases s <;> rfl

/-- The moves of the new states are their transitions. -/
theorem moves_added_iff_of_le {g : Grammar} {owner : Nat → Nat} (valid : d.Valid g owner) {p : Nat}
    (h : d.nfa.size ≤ p) {s : Option Symbol} {q : Nat} :
    (d.added rule r).moves p s q ↔ (ruleBuilder r d.nfa).2.Leaves p (transitionOf s q) := by
  rcases s with _ | ⟨id⟩ | ⟨id⟩
  · exact leaves_added_iff
  · exact leaves_added_iff
  · constructor
    · rintro (hleaves | hcall)
      · exact leaves_added_iff.1 hleaves
      · exact absurd (valid.lt_size p (some (.rule id)) q (.inr hcall)).1 (Nat.not_lt.2 h)
    · exact fun hleaves => .inl (leaves_added_iff.2 hleaves)

/-- Moves of the new states stay among them, and do not lead to the entry. -/
theorem inside_of_moves_added {g : Grammar} {owner : Nat → Nat} (valid : d.Valid g owner) {p : Nat}
    (h : d.nfa.size ≤ p) {s : Option Symbol} {q : Nat} (hmove : (d.added rule r).moves p s q) :
    d.nfa.size ≤ q ∧ q < (d.added rule r).nfa.size ∧ q ≠ (d.fragmentOf r).entry := by
  have hinside := ((framed_ruleBuilder r).region d.nfa).inside p _ h
    ((moves_added_iff_of_le valid h).1 hmove)
  rw [target_transitionOf] at hinside
  rw [size_added]
  exact hinside

/-- A walk through the new states is a path of their transitions. -/
theorem walk_added_iff {g : Grammar} {owner : Nat → Nat} (valid : d.Valid g owner) {p q : Nat}
    (h : d.nfa.size ≤ p) {symbols : List Symbol} :
    Walk (d.added rule r).moves p symbols q ↔ (ruleBuilder r d.nfa).2.Path Reads p symbols q := by
  constructor
  · intro walk
    induction walk with
    | nil p => exact .nil p
    | silent hmove _ ih =>
      exact .null ((moves_added_iff_of_le valid h).1 hmove)
        (ih (inside_of_moves_added valid h hmove).1)
    | symbol hmove _ ih =>
      exact .symbol ((moves_added_iff_of_le valid h).1 hmove) rfl
        (ih (inside_of_moves_added valid h hmove).1)
  · intro path
    induction path with
    | nil p => exact .nil p
    | @null p q _ _ hleaves _ ih =>
      have hmove : (d.added rule r).moves p none q := (moves_added_iff_of_le valid h).2 hleaves
      exact .silent hmove (ih (inside_of_moves_added valid h hmove).1)
    | @symbol p q _ label s _ hleaves hreads _ ih =>
      have hmove : (d.added rule r).moves p (some s) q := by
        apply (moves_added_iff_of_le valid h).2
        rw [hreads] at hleaves
        exact hleaves
      exact .symbol hmove (ih (inside_of_moves_added valid h hmove).1)

theorem extends_added (d : Draft) (rule : Nat) (r : Rule) : d.Extends (d.added rule r) := by
  refine ⟨?_, fun x hx => List.mem_append_left _ hx, fun _ hcall => hcall,
    fun p hp s q => moves_added_iff_of_lt hp, fun p position t ht => .inl ?_,
    fun p position other q hp ht => ?_⟩
  · rw [size_added]
    exact ((framed_ruleBuilder r).grows d.nfa).size_le
  · rwa [transitionAt_added_of_lt (Nfa.lt_of_transitionAt ht)]
  · rwa [transitionAt_added_of_lt hp] at ht

/-- The owner of each state after a rule has been added. -/
def ownerAfter (d : Draft) (owner : Nat → Nat) (rule : Nat) : Nat → Nat :=
  fun id => if id < d.nfa.size then owner id else rule

theorem ownerAfter_of_lt {owner : Nat → Nat} {id : Nat} (h : id < d.nfa.size) :
    d.ownerAfter owner rule id = owner id := if_pos h

theorem ownerAfter_of_le {owner : Nat → Nat} {id : Nat} (h : d.nfa.size ≤ id) :
    d.ownerAfter owner rule id = rule := if_neg (Nat.not_lt.2 h)

theorem isFinal_added_iff {q other : Nat} : (d.added rule r).nfa.IsFinal q other ↔
    d.nfa.IsFinal q other ∨ (q = (d.fragmentOf r).exit ∧ other = rule) := by
  have region := (framed_ruleBuilder r).region d.nfa
  have hexit_le := (framed_ruleBuilder r).le_exit d.nfa
  have hexit_lt := (framed_ruleBuilder r).exit_lt d.nfa
  have hold : ∀ id < d.nfa.size, (ruleBuilder r d.nfa).2.states[id]? = d.nfa.states[id]? :=
    ((framed_ruleBuilder r).grows d.nfa).kept
  unfold Nfa.IsFinal
  simp only [Nfa.state_eq_ok_iff]
  show (∃ s, (Nfa.modifyState _ _ _).states[q]? = some s ∧ _) ↔ _
  rw [Nfa.getElem?_modifyState]
  split
  · rename_i hq
    have hnone : d.nfa.states[q]? = none := Array.getElem?_eq_none (hq ▸ hexit_le)
    have hsome :=
      Array.getElem?_eq_getElem (hq ▸ hexit_lt : q < (ruleBuilder r d.nfa).2.states.size)
    rw [hnone, hsome]
    constructor
    · rintro ⟨s, hs, haccept⟩
      cases hs
      exact .inr ⟨hq.symm, (Option.some.inj haccept).symm⟩
    · rintro (⟨_, hs, _⟩ | ⟨-, rfl⟩)
      · cases hs
      · exact ⟨_, rfl, rfl⟩
  · rename_i hq
    by_cases hlt : q < d.nfa.size
    · rw [hold q hlt]
      exact ⟨.inl, fun h => h.resolve_right fun h => hq h.1.symm⟩
    · have hnone : d.nfa.states[q]? = none := Array.getElem?_eq_none (Nat.not_lt.1 hlt)
      rw [hnone]
      constructor
      · rintro ⟨s, hs, haccept⟩
        rw [region.accept q s (Nat.not_lt.1 hlt) hs] at haccept
        cases haccept
      · rintro (⟨_, hs, _⟩ | ⟨rfl, -⟩)
        · cases hs
        · exact absurd rfl hq

theorem mem_fragments_added {other : Nat} {f : Fragment} :
    (other, f) ∈ (d.added rule r).fragments ↔
      (other, f) ∈ d.fragments ∨ (other = rule ∧ f = d.fragmentOf r) := by
  show (other, f) ∈ d.fragments ++ [(rule, d.fragmentOf r)] ↔ _
  rw [List.mem_append, List.mem_singleton, Prod.mk.injEq]

/-- The fragment of the rule lies among the new states. -/
theorem inside_fragmentOf (d : Draft) (rule : Nat) (r : Rule) :
    d.nfa.size ≤ (d.fragmentOf r).entry ∧
      (d.fragmentOf r).entry < (d.added rule r).nfa.size ∧
      d.nfa.size ≤ (d.fragmentOf r).exit ∧ (d.fragmentOf r).exit < (d.added rule r).nfa.size := by
  have region := (framed_ruleBuilder r).region d.nfa
  rw [size_added]
  exact ⟨region.base_le, region.entry_lt, (framed_ruleBuilder r).le_exit d.nfa,
    (framed_ruleBuilder r).exit_lt d.nfa⟩

section

variable {g : Grammar} {owner : Nat → Nat} (valid : d.Valid g owner)

include valid

/-- A move is one that there was, or it leads from a new state to a new one, which is not the entry. -/
theorem cases_of_moves_added {p q : Nat} {s : Option Symbol}
    (hmove : (d.added rule r).moves p s q) :
    (p < d.nfa.size ∧ q < d.nfa.size ∧ d.moves p s q) ∨
      (d.nfa.size ≤ p ∧ p < (d.added rule r).nfa.size ∧ d.nfa.size ≤ q ∧
        q < (d.added rule r).nfa.size ∧ q ≠ (d.fragmentOf r).entry) := by
  rcases Nat.lt_or_ge p d.nfa.size with hp | hp
  · have hold := (moves_added_iff_of_lt hp).1 hmove
    exact .inl ⟨hp, (valid.lt_size p s q hold).2, hold⟩
  · have hlt := ((moves_added_iff_of_le valid hp).1 hmove).lt
    rw [← size_added] at hlt
    exact .inr ⟨hp, hlt, inside_of_moves_added valid hp hmove⟩

/-- Every walk from the entry of a fragment that was there before is one that there was. -/
theorem walk_added_iff_of_mem {other : Nat} {f : Fragment} (hf : (other, f) ∈ d.fragments)
    {symbols : List Symbol} {q : Nat} :
    Walk (d.added rule r).moves f.entry symbols q ↔ Walk d.moves f.entry symbols q :=
  (extends_added d rule r).walk_iff valid.lt_size (valid.fragment_lt other f hf).2.1

/-- The exit of a fragment can be reached from wherever a symbol of the rule leads. -/
theorem exits_added {other : Nat} {f : Fragment} (hf : (other, f) ∈ (d.added rule r).fragments)
    {before : List Symbol} {p q : Nat} {s : Symbol}
    (hwalk : Walk (d.added rule r).moves f.entry before p)
    (hmove : (d.added rule r).moves p (some s) q) :
    ∃ after, Walk (d.added rule r).moves q after f.exit := by
  rcases mem_fragments_added.1 hf with hf | ⟨rfl, rfl⟩
  · have hwalk' := (walk_added_iff_of_mem valid hf).1 hwalk
    have hp := (valid.walk_inside hf hwalk').1
    have hmove' := (moves_added_iff_of_lt hp).1 hmove
    obtain ⟨after, hafter⟩ := valid.exits other f hf before p s q hwalk' hmove'
    exact ⟨after, ((extends_added d rule r).walk_iff valid.lt_size
      (valid.lt_size p _ q hmove').2).2 hafter⟩
  · have hp : d.nfa.size ≤ p := hwalk.keeps (fun p => d.nfa.size ≤ p)
      (fun p s q hp hmove => (inside_of_moves_added valid hp hmove).1)
      (inside_fragmentOf d other r).1
    obtain ⟨hq, hq_lt, hq_ne⟩ := inside_of_moves_added valid hp hmove
    rw [size_added] at hq_lt
    obtain ⟨after, hafter⟩ := (liveBehind_ruleBuilder r).leads d.nfa q hq hq_lt hq_ne
    exact ⟨after, (walk_added_iff valid hq).2 hafter⟩

end

/-- The new states predict nothing: all their references are open. -/
theorem leaves_predict_added_iff {p other q : Nat} :
    (d.added rule r).nfa.Leaves p (.symbol (.predict other) q) ↔
      d.nfa.Leaves p (.symbol (.predict other) q) := by
  rcases Nat.lt_or_ge p d.nfa.size with hp | hp
  · simp only [Nfa.leaves_iff_transitionAt, transitionAt_added_of_lt hp]
  · rw [leaves_added_iff]
    refine iff_of_false (fun hleaves => ?_) (fun hleaves => ?_)
    · exact nomatch ((framed_ruleBuilder r).region d.nfa).label p _ _ hp hleaves
    · exact absurd hleaves.lt (Nat.not_lt.2 hp)

/-- A draft is still valid after a rule has been added to it that it does not have. -/
theorem Valid.added {g : Grammar} {owner : Nat → Nat} (valid : d.Valid g owner)
    (hrule : rule < g.rules.length) (hfresh : ∀ f, (rule, f) ∉ d.fragments)
    (hproductions : ∀ symbols, (∃ p ∈ r.productions, symbols = p.rhs) ↔
      ⟨rule, symbols⟩ ∈ g.productions) :
    (d.added rule r).Valid g (d.ownerAfter owner rule) := by
  have hsize := (extends_added d rule r).size_le
  obtain ⟨hentry_le, hentry_lt, hexit_le, hexit_lt⟩ := inside_fragmentOf d rule r
  constructor
  case lt_size =>
    intro p s q hmove
    rcases cases_of_moves_added valid hmove with ⟨hp, hq, -⟩ | ⟨-, hp, -, hq, -⟩
    · omega
    · exact ⟨hp, hq⟩
  case nodup =>
    show ((d.fragments ++ [(rule, d.fragmentOf r)]).map Prod.fst).Nodup
    rw [List.map_append]
    refine List.nodup_append.2 ⟨valid.nodup, List.nodup_singleton _, fun a ha b hb heq => ?_⟩
    obtain ⟨⟨other, f⟩, hf, rfl⟩ := List.mem_map.1 ha
    rw [List.mem_singleton.1 hb] at heq
    dsimp only at heq
    exact hfresh f (heq ▸ hf)
  case fragment_lt =>
    intro other f hf
    rcases mem_fragments_added.1 hf with hf | ⟨rfl, rfl⟩
    · have hlt := valid.fragment_lt other f hf
      omega
    · exact ⟨hrule, hentry_lt, hexit_lt⟩
  case owner_move =>
    intro p s q hmove
    rcases cases_of_moves_added valid hmove with ⟨hp, hq, hold⟩ | ⟨hp, -, hq, -⟩
    · rw [ownerAfter_of_lt hp, ownerAfter_of_lt hq]
      exact valid.owner_move p s q hold
    · rw [ownerAfter_of_le hp, ownerAfter_of_le hq]
  case owner_fragment =>
    intro other f hf
    rcases mem_fragments_added.1 hf with hf | ⟨rfl, rfl⟩
    · have hlt := valid.fragment_lt other f hf
      rw [ownerAfter_of_lt hlt.2.1, ownerAfter_of_lt hlt.2.2]
      exact valid.owner_fragment other f hf
    · exact ⟨ownerAfter_of_le hentry_le, ownerAfter_of_le hexit_le⟩
  case walk_iff =>
    intro other f hf symbols
    rcases mem_fragments_added.1 hf with hf | ⟨rfl, rfl⟩
    · rw [walk_added_iff_of_mem valid hf]
      exact valid.walk_iff other f hf symbols
    · rw [walk_added_iff valid hentry_le, ← hproductions]
      exact path_ruleBuilder_iff r d.nfa symbols
  case entry_ne =>
    intro other f hf p s hmove
    rcases mem_fragments_added.1 hf with hf | ⟨rfl, rfl⟩
    · have hentry := (valid.fragment_lt other f hf).2.1
      rcases cases_of_moves_added valid hmove with ⟨-, -, hold⟩ | ⟨-, -, hle, -⟩
      · exact valid.entry_ne other f hf p s hold
      · exact absurd hentry (Nat.not_lt.2 hle)
    · rcases cases_of_moves_added valid hmove with ⟨-, hlt, -⟩ | ⟨-, -, -, -, hne⟩
      · exact absurd hlt (Nat.not_lt.2 hentry_le)
      · exact hne rfl
  case exits =>
    intro other f hf before p s q hwalk hmove
    exact exits_added valid hf hwalk hmove
  case callee =>
    intro call hcall
    obtain ⟨f, hf⟩ := valid.callee call hcall
    exact ⟨f, List.mem_append_left _ hf⟩
  case predict_iff =>
    intro p other q
    rw [leaves_predict_added_iff, valid.predict_iff]
    constructor
    · rintro ⟨f, t, hf, hentry, hcall⟩
      exact ⟨f, t, List.mem_append_left _ hf, hentry, hcall⟩
    · rintro ⟨f, t, hf, hentry, hcall⟩
      rcases mem_fragments_added.1 hf with hf | ⟨rfl, rfl⟩
      · exact ⟨f, t, hf, hentry, hcall⟩
      · obtain ⟨f', hf'⟩ := valid.callee _ hcall
        exact absurd hf' (hfresh f')
  case final_iff =>
    intro q other
    rw [isFinal_added_iff, valid.final_iff]
    constructor
    · rintro (⟨f, hf, hexit⟩ | ⟨rfl, rfl⟩)
      · exact ⟨f, List.mem_append_left _ hf, hexit⟩
      · exact ⟨_, List.mem_append_right _ (List.mem_singleton_self _), rfl⟩
    · rintro ⟨f, hf, hexit⟩
      rcases mem_fragments_added.1 hf with hf | ⟨rfl, rfl⟩
      · exact .inl ⟨f, hf, hexit⟩
      · exact .inr ⟨hexit.symm, rfl⟩

end

end Draft

end RuleNetwork

end LexChart
