import LexChart.Proofs.Automaton.Subset
import LexChart.Proofs.Grammar.Interpretation
import LexChart.Recognizer.Network
set_option autoImplicit false

/-!
# Walks through a network

A walk reads symbols: a lex rule where a transition scans it, and a rule where it is called.  The
call leads behind the reference at once, so a walk stays inside the fragment that it begins in.

`Represents` says when a network stands for a grammar: the walks through the fragment of a rule are
its productions, every state on the way goes on to the exit, and each call comes with a transition
into the fragment of the rule it calls.
-/

namespace LexChart

/-- Moves from state to state, each reading a symbol or nothing. -/
abbrev Moves : Type := Nat → Option Symbol → Nat → Prop

/-- A sequence of symbols can be read between two states. -/
inductive Walk (moves : Moves) : Nat → List Symbol → Nat → Prop where
  | nil (p : Nat) : Walk moves p [] p
  | silent {p q r : Nat} {symbols : List Symbol} : moves p none q → Walk moves q symbols r →
      Walk moves p symbols r
  | symbol {p q r : Nat} {s : Symbol} {symbols : List Symbol} : moves p (some s) q →
      Walk moves q symbols r → Walk moves p (s :: symbols) r

namespace Walk

variable {moves moves' : Moves} {p q r : Nat} {u v : List Symbol}

theorem append (h : Walk moves p u q) (k : Walk moves q v r) : Walk moves p (u ++ v) r := by
  induction h with
  | nil => exact k
  | silent first _ ih => exact .silent first (ih k)
  | symbol first _ ih => exact .symbol first (ih k)

/-- A walk through a concatenation passes through a state in between. -/
theorem split (h : Walk moves p (u ++ v) r) : ∃ q, Walk moves p u q ∧ Walk moves q v r := by
  generalize hw : u ++ v = w at h
  induction h generalizing u with
  | nil p =>
    obtain ⟨rfl, rfl⟩ := List.append_eq_nil_iff.1 hw
    exact ⟨p, .nil p, .nil p⟩
  | silent first _ ih =>
    obtain ⟨q, hu, hv⟩ := ih hw
    exact ⟨q, .silent first hu, hv⟩
  | @symbol p _ _ s symbols first rest ih =>
    cases u with
    | nil =>
      subst hw
      exact ⟨p, .nil p, .symbol first rest⟩
    | cons s' u =>
      obtain ⟨rfl, hrest⟩ := List.cons.inj hw
      obtain ⟨q, hu, hv⟩ := ih hrest
      exact ⟨q, .symbol first hu, hv⟩

/-- A walk reads its first symbol somewhere. -/
theorem cons_iff {s : Symbol} : Walk moves p (s :: u) r ↔
    ∃ q t, Walk moves p [] q ∧ moves q (some s) t ∧ Walk moves t u r := by
  constructor
  · intro h
    generalize hw : s :: u = w at h
    induction h with
    | nil => cases hw
    | silent first _ ih =>
      obtain ⟨q, t, hq, ht, hrest⟩ := ih hw
      exact ⟨q, t, .silent first hq, ht, hrest⟩
    | symbol first rest =>
      cases hw
      exact ⟨_, _, .nil _, first, rest⟩
  · rintro ⟨q, t, hq, ht, hrest⟩
    exact hq.append (.symbol ht hrest)

/-- One move more is a longer walk. -/
theorem concat {s : Option Symbol} (h : Walk moves p u q) (hmove : moves q s r) :
    ∃ more, Walk moves p more r := by
  cases s with
  | none => exact ⟨_, h.append (.silent hmove (.nil r))⟩
  | some s => exact ⟨_, h.append (.symbol hmove (.nil r))⟩

/-- Moves that a state set has in common lead through the same walks. -/
theorem imp (inside : Nat → Prop)
    (hmoves : ∀ p s q, inside p → moves p s q → moves' p s q ∧ inside q)
    (h : Walk moves p u q) (hp : inside p) : Walk moves' p u q := by
  induction h with
  | nil p => exact .nil p
  | silent first _ ih =>
    obtain ⟨hfirst, hnext⟩ := hmoves _ _ _ hp first
    exact .silent hfirst (ih hnext)
  | symbol first _ ih =>
    obtain ⟨hfirst, hnext⟩ := hmoves _ _ _ hp first
    exact .symbol hfirst (ih hnext)

/-- What moves keep holds at the end of a walk. -/
theorem keeps (inside : Nat → Prop)
    (hmoves : ∀ p s q, inside p → moves p s q → inside q) (h : Walk moves p u q) (hp : inside p) :
    inside q := by
  induction h with
  | nil => exact hp
  | silent first _ ih => exact ih (hmoves _ _ _ hp first)
  | symbol first _ ih => exact ih (hmoves _ _ _ hp first)

end Walk

namespace RuleNetwork

/-- The moves of a network: null transitions, scans and calls. -/
def moves (net : RuleNetwork) : Moves
  | p, none, q => net.nfa.Leaves p (.null q)
  | p, some (.lex id), q => net.nfa.Leaves p (.symbol (.scan id) q)
  | p, some (.rule id), q => ⟨p, id, q⟩ ∈ net.callsFrom p

/-- The network stands for a grammar. -/
structure Represents (net : RuleNetwork) (g : Grammar) : Prop where
  start_eq : net.start = g.start
  start_fragment : ∃ f, net.fragmentOf? net.start = some f
  source_eq : ∀ p, ∀ call ∈ net.callsFrom p, call.source = p
  lt_size : ∀ p s q, net.moves p s q → p < net.nfa.size ∧ q < net.nfa.size
  fragment_lt : ∀ rule f, net.fragmentOf? rule = some f →
    rule < g.rules.length ∧ f.entry < net.nfa.size ∧ f.exit < net.nfa.size
  /-- A state belongs to one rule only. -/
  owner : ∃ owner : Nat → Nat, (∀ p s q, net.moves p s q → owner q = owner p) ∧
    ∀ rule f, net.fragmentOf? rule = some f → owner f.entry = rule ∧ owner f.exit = rule
  walk_iff : ∀ rule f, net.fragmentOf? rule = some f → ∀ symbols,
    Walk net.moves f.entry symbols f.exit ↔ ⟨rule, symbols⟩ ∈ g.productions
  /-- No move leads back to an entry. -/
  entry_ne : ∀ rule f, net.fragmentOf? rule = some f → ∀ p s, ¬ net.moves p s f.entry
  /-- Behind every symbol there is a way to the exit. -/
  exits : ∀ rule f, net.fragmentOf? rule = some f → ∀ before p s q,
    Walk net.moves f.entry before p → net.moves p (some s) q →
      ∃ after, Walk net.moves q after f.exit
  callee : ∀ p rule q, net.moves p (some (.rule rule)) q → ∃ f, net.fragmentOf? rule = some f
  predict_iff : ∀ p rule q, net.nfa.Leaves p (.symbol (.predict rule) q) ↔
    ∃ f t, net.fragmentOf? rule = some f ∧ f.entry = q ∧ net.moves p (some (.rule rule)) t
  final_iff : ∀ q rule, net.nfa.IsFinal q rule ↔ ∃ f, net.fragmentOf? rule = some f ∧ f.exit = q

namespace Represents

variable {net : RuleNetwork} {g : Grammar}

/-- A call is the move that reads its rule. -/
theorem moves_of_mem_callsFrom (h : net.Represents g) {p : Nat} {call : Call}
    (hcall : call ∈ net.callsFrom p) : net.moves p (some (.rule call.rule)) call.target := by
  obtain rfl := h.source_eq p call hcall
  exact hcall

/-- A walk from the entry of one rule to the exit of another stays with one rule. -/
theorem rule_eq_of_walk (h : net.Represents g) {rule other : Nat} {f f' : Fragment}
    (hf : net.fragmentOf? rule = some f) (hf' : net.fragmentOf? other = some f')
    {symbols : List Symbol} (walk : Walk net.moves f.entry symbols f'.exit) : rule = other := by
  obtain ⟨owner, hmoves, hfragments⟩ := h.owner
  have hkeeps := walk.keeps (fun q => owner q = rule)
    (fun p s q hp hq => (hmoves p s q hq).trans hp) (hfragments rule f hf).1
  exact hkeeps.symm.trans (hfragments other f' hf').2

end Represents

end RuleNetwork

end LexChart
