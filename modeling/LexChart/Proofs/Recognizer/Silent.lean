import LexChart.Proofs.Recognizer.Walks
import LexChart.Recognizer.Machine
set_option autoImplicit false

/-!
# Silent steps

A closure holds what its first states lead to silently: through null transitions, over calls of
rules that derive nothing and, in a prediction, into the rules that are called.
-/

namespace LexChart

open Relation (ReflTransGen)

namespace RuleNetwork

/-- One step without a token, into called rules only if `predict` is set. -/
inductive SilentStep (net : RuleNetwork) (g : Grammar) (predict : Bool) : Nat → Nat → Prop where
  | null {p q : Nat} : net.moves p none q → SilentStep net g predict p q
  | skip {p q rule : Nat} : net.moves p (some (.rule rule)) q → g.Generates rule [] →
      SilentStep net g predict p q
  | enter {p q rule : Nat} {f : Fragment} : predict = true → net.moves p (some (.rule rule)) q →
      net.fragmentOf? rule = some f → SilentStep net g predict p f.entry

/-- Steps without a token. -/
def Silent (net : RuleNetwork) (g : Grammar) (predict : Bool) : Nat → Nat → Prop :=
  ReflTransGen (net.SilentStep g predict)

end RuleNetwork

/-- The rules marked as nullable are those that derive nothing. -/
def Grammar.NullableExact (g : Grammar) : Prop :=
  ∀ id r, g.rules[id]? = some r → (r.nullable = true ↔ g.Generates id [])

namespace RuleNetwork

variable {net : RuleNetwork} {g : Grammar}

theorem SilentStep.lt (represents : net.Represents g) {predict : Bool} {p q : Nat}
    (h : net.SilentStep g predict p q) : q < net.nfa.size := by
  cases h with
  | null hmove => exact (represents.lt_size p none q hmove).2
  | skip hmove _ => exact (represents.lt_size p _ q hmove).2
  | enter _ hmove hf => exact (represents.fragment_lt _ _ hf).2.1

theorem Silent.lt (represents : net.Represents g) {predict : Bool} {p q : Nat}
    (h : net.Silent g predict p q) (hp : p < net.nfa.size) : q < net.nfa.size := by
  induction h with
  | refl => exact hp
  | tail _ hstep _ => exact hstep.lt represents

/-- A call is stepped over if its rule derives nothing. -/
theorem skip_ok (represents : net.Represents g) (nullable : g.NullableExact)
    {id : Nat} {call : Call}
    (hcall : call ∈ net.callsFrom id) :
    ∃ found : Option Nat, ((NullableTable.ofGrammar g).holds call.rule).map
        (fun nullable => if nullable then some call.target else none) = .ok found ∧
      ∀ target, found = some target ↔ call.target = target ∧ g.Generates call.rule [] := by
  obtain ⟨f, hf⟩ := represents.callee id _ _ (represents.moves_of_mem_callsFrom hcall)
  have hr := List.getElem?_eq_getElem (represents.fragment_lt _ f hf).1
  rw [NullableTable.holds_ofGrammar]
  unfold Grammar.isNullable Grammar.rule
  rw [hr]
  refine ⟨_, rfl, fun target => ?_⟩
  rw [← nullable _ _ hr]
  simp [and_comm]

/-- What is silent without predictions is silent with them. -/
theorem SilentStep.mono {predict : Bool} {p q : Nat} (h : net.SilentStep g false p q) :
    net.SilentStep g predict p q := by
  cases h with
  | null hmove => exact .null hmove
  | skip hmove hgenerates => exact .skip hmove hgenerates
  | enter hpredict _ _ => cases hpredict

/-- The steps that a sweep takes are the silent ones. -/
theorem silentTargets_ok (represents : net.Represents g) (nullable : g.NullableExact)
    (predict : Bool)
    {id : Nat} (hid : id < net.nfa.size) :
    ∃ ids, net.silentTargets (NullableTable.ofGrammar g) predict id = .ok ids ∧
      ∀ other, other ∈ ids ↔ net.SilentStep g predict id other := by
  obtain ⟨skips, hskips⟩ := exists_mapM_eq_ok
    fun (call : Call) (hcall : call ∈ net.callsFrom id) =>
      (skip_ok represents nullable hcall).imp fun _ h => h.1
  have hall := mapM_eq_ok_iff.1 hskips
  refine ⟨_, bind_eq_ok_iff.2 ⟨_, Nfa.state_of_lt hid, bind_eq_ok_iff.2 ⟨_, hskips, rfl⟩⟩,
    fun other => ?_⟩
  have hleaves : ∀ t, t ∈ net.nfa.states[id].transitions ↔ net.nfa.Leaves id t :=
    fun t => (Nfa.leaves_iff_of_state (Nfa.state_of_lt hid)).symm
  rw [List.mem_append, List.mem_filterMap, List.mem_filterMap]
  constructor
  · rintro (⟨t, ht, heq⟩ | ⟨target, htarget, rfl⟩)
    · rw [hleaves] at ht
      split at heq
      · cases heq
        exact .null ht
      · rename_i rule target
        split at heq
        · rename_i hpredict
          cases heq
          obtain ⟨f, q, hf, rfl, hmove⟩ := (represents.predict_iff id rule _).1 ht
          exact .enter hpredict hmove hf
        · cases heq
      · cases heq
    · obtain ⟨call, hcall, heq⟩ := forall₂_mem_right hall htarget
      obtain ⟨found, hfound, hskip⟩ := skip_ok represents nullable hcall
      rw [heq] at hfound
      obtain ⟨rfl, hgenerates⟩ := (hskip other).1 (Except.ok.inj hfound).symm
      exact .skip (represents.moves_of_mem_callsFrom hcall) hgenerates
  · intro h
    cases h with
    | null hmove => exact .inl ⟨_, (hleaves _).2 hmove, rfl⟩
    | @skip _ rule hmove hgenerates =>
      obtain ⟨skip, hmem, heq⟩ := forall₂_mem_left hall hmove
      obtain ⟨found, hfound, hskip⟩ := skip_ok represents nullable hmove
      rw [heq] at hfound
      rw [(hskip other).2 ⟨rfl, hgenerates⟩] at hfound
      exact .inr ⟨_, hmem, Except.ok.inj hfound⟩
    | @enter _ rule f hpredict hmove hf =>
      have ht := (represents.predict_iff id rule f.entry).2 ⟨f, _, hf, rfl, hmove⟩
      refine .inl ⟨_, (hleaves _).2 ht, ?_⟩
      dsimp only
      rw [if_pos hpredict]

theorem confined_silentTargets (represents : net.Represents g) (nullable : g.NullableExact)
    (predict : Bool) : Sweep.Confined net.nfa.size
      (net.silentTargets (NullableTable.ofGrammar g) predict) := by
  intro id hid
  obtain ⟨ids, hids, hmem⟩ := silentTargets_ok represents nullable predict hid
  exact ⟨ids, hids, fun other hother => ((hmem other).1 hother).lt represents⟩

/-- A silent closure holds what its frontier leads to silently. -/
theorem silentClosure_ok (represents : net.Represents g) (nullable : g.NullableExact)
    (hlimit : net.nfa.size < sizeLimit) (predict : Bool) {frontier : List Nat}
    (hfrontier : ∀ id ∈ frontier, id < net.nfa.size) :
    ∃ c, net.silentClosure (NullableTable.ofGrammar g) predict frontier = .ok c ∧
      c.Within net.nfa.size ∧ ∀ id, id ∈ c ↔ ∃ p ∈ frontier, net.Silent g predict p id := by
  have hconfined := confined_silentTargets represents nullable predict
  obtain ⟨c, hc, hmem⟩ := Sweep.fresh_collect_ok hlimit hconfined hfrontier
  have hleads : ∀ p < net.nfa.size, ∀ q,
      Sweep.Leads (net.silentTargets (NullableTable.ofGrammar g) predict) p q ↔
        net.SilentStep g predict p q := by
    intro p hp q
    obtain ⟨ids, hids, hstep⟩ := silentTargets_ok represents nullable predict hp
    rw [← hstep]
    constructor
    · rintro ⟨ids', hids', hq⟩
      rw [hids] at hids'
      exact Except.ok.inj hids' ▸ hq
    · exact fun hq => ⟨ids, hids, hq⟩
  have hreach : ∀ p < net.nfa.size, ∀ q,
      ReflTransGen (Sweep.Leads (net.silentTargets (NullableTable.ofGrammar g) predict)) p q ↔
        net.Silent g predict p q := by
    intro p hp q
    constructor
    · intro h
      have hboth : net.Silent g predict p q ∧ q < net.nfa.size := by
        induction h with
        | refl => exact ⟨.refl, hp⟩
        | tail _ hstep ih =>
          have hstep := (hleads _ ih.2 _).1 hstep
          exact ⟨ih.1.tail hstep, hstep.lt represents⟩
      exact hboth.1
    · intro h
      induction h with
      | refl => exact .refl
      | tail hbefore hstep ih =>
        exact ih.tail ((hleads _ (Silent.lt represents hbefore hp) _).2 hstep)
  refine ⟨c, hc, fun id hid => ((hmem id).1 hid).lt hconfined hfrontier,
    fun id => (hmem id).trans ?_⟩
  exact exists_congr fun p => and_congr_right fun hp => hreach p (hfrontier p hp) id

end RuleNetwork

end LexChart
