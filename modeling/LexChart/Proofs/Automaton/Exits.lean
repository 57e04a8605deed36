import LexChart.Proofs.Automaton.Region
set_option autoImplicit false

/-!
# Ways to the exit

A fragment without dead ends has a path to its exit from each of its states.  Terminals have none
if some symbol is read, and sequences have none if their parts have none.  A choice may have no
branches, so only the states behind its entry are known to lead to the exit.
-/

namespace LexChart.Building

open Nfa

variable {L σ : Type} {reads : L → σ → Prop} {allowed : L → Prop}

/-- Some word leads from one state to another. -/
def Leads (reads : L → σ → Prop) (nfa : Nfa L) (p q : Nat) : Prop := ∃ w, nfa.Path reads p w q

theorem Leads.refl (nfa : Nfa L) (p : Nat) : Leads reads nfa p p := ⟨[], .nil p⟩

theorem Leads.trans {nfa : Nfa L} {p q r : Nat} (h : Leads reads nfa p q)
    (k : Leads reads nfa q r) :
    Leads reads nfa p r := by
  obtain ⟨u, hu⟩ := h
  obtain ⟨v, hv⟩ := k
  exact ⟨u ++ v, hu.append hv⟩

theorem Leads.grows {base : Nat} {nfa nfa' : Nfa L} (hgrows : Grows base nfa nfa') {p q : Nat}
    (h : Leads reads nfa p q) : Leads reads nfa' p q := by
  obtain ⟨w, hw⟩ := h
  exact ⟨w, hgrows.path hw⟩

theorem leads_linked (reads : L → σ → Prop) (nfa : Nfa L) {source : Nat} (target : Nat)
    (h : source < nfa.size) :
    Leads reads (nfa.linked source target) source target :=
  ⟨[], .null (leaves_linked nfa target h) (.nil target)⟩

/-- The fragment that a builder adds has no dead ends. -/
structure Live (reads : L → σ → Prop) (allowed : L → Prop)
    (builder : Building L Fragment) : Prop where
  framed : Framed allowed builder
  leads : ∀ (nfa : Nfa L) (id : Nat), nfa.size ≤ id → id < (builder nfa).2.size →
    Leads reads (builder nfa).2 id (builder nfa).1.exit

/-- Behind the entry the fragment that a builder adds has no dead ends. -/
structure LiveBehind (reads : L → σ → Prop) (allowed : L → Prop) (builder : Building L Fragment) :
    Prop where
  framed : Framed allowed builder
  leads : ∀ (nfa : Nfa L) (id : Nat), nfa.size ≤ id → id < (builder nfa).2.size →
    id ≠ (builder nfa).1.entry → Leads reads (builder nfa).2 id (builder nfa).1.exit

theorem live_symbol {label : L} (hlabel : allowed label) {c : σ} (hreads : reads label c) :
    Live reads allowed (symbols [label]) := by
  refine ⟨framed_symbols fun l hl => List.mem_singleton.1 hl ▸ hlabel, fun nfa id hid hlt => ?_⟩
  have hnew : nfa.addState.1.addState.1.size = nfa.size + 2 := by
    rw [size_addState, size_addState]
  have hsize : (symbols [label] nfa).2.size = nfa.size + 2 :=
    (size_modifyState nfa.addState.1.addState.1 nfa.size _).trans hnew
  have hexit : (symbols [label] nfa).1.exit = nfa.size + 1 := size_addState nfa
  have hentry : (symbols [label] nfa).2.Leaves nfa.size
      (.symbol label (symbols [label] nfa).1.exit) := by
    have hlt_new : nfa.size < nfa.addState.1.addState.1.size := by omega
    exact leaves_addTransition.2 (.inr ⟨rfl, hlt_new, rfl⟩)
  by_cases hfirst : id = nfa.size
  · subst hfirst
    exact ⟨[c], .symbol hentry hreads (.nil _)⟩
  · have hlast : id = (symbols [label] nfa).1.exit := by omega
    rw [hlast]
    exact .refl _ _

/-- From the state behind which a chain is built, and from all its states, there is a way to its
end. -/
theorem chain_leads {base entry : Nat} {builders : List (Building L Fragment)}
    (h : ∀ b ∈ builders, Live reads allowed b) {nfa : Nfa L}
    (region : Region allowed base entry nfa)
    (last : Nat) (hbase : base ≤ last) (hlt : last < nfa.size) {id : Nat}
    (hid : id = last ∨ (nfa.size ≤ id ∧ id < (chain last builders nfa).2.size)) :
    Leads reads (chain last builders nfa).2 id (chain last builders nfa).1 := by
  induction builders generalizing nfa last id with
  | nil =>
    rcases hid with rfl | ⟨hle, hid⟩
    · exact .refl _ _
    · exact absurd (Nat.lt_of_lt_of_le hid hle) (Nat.lt_irrefl _)
  | cons b rest ih =>
    obtain ⟨hb, hrest⟩ := List.forall_mem_cons.1 h
    have hitem := attached_steps hb.framed region hbase
    have hentry := (hb.framed.region nfa).base_le
    have hentry_lt := (hb.framed.region nfa).entry_lt
    have hsize := size_attached b last nfa
    have hchain := chain_steps (fun b hb => (hrest b hb).framed) hitem.region _ hitem.le_last
      hitem.last_lt
    have hgrows := hchain.grows
    have hend := ih hrest hitem.region (b nfa).1.exit hitem.le_last hitem.last_lt (.inl rfl)
    have hinside : ∀ id, nfa.size ≤ id → id < (b nfa).2.size →
        Leads reads (attached b last nfa) id (b nfa).1.exit := fun id hle hid =>
      (hb.leads nfa id hle hid).grows (grows_addTransition 0 _ _ (Nat.zero_le last))
    have hsize_le := (hb.framed.grows nfa).size_le
    rcases hid with rfl | ⟨hle, hid⟩
    · have hlink := leads_linked reads (b nfa).2 (b nfa).1.entry (Nat.lt_of_lt_of_le hlt hsize_le)
      exact ((hlink.trans (hinside _ hentry hentry_lt)).grows hgrows).trans hend
    · by_cases hold : id < (b nfa).2.size
      · exact ((hinside id hle hold).grows hgrows).trans hend
      · exact ih hrest hitem.region (b nfa).1.exit hitem.le_last hitem.last_lt
          (.inr ⟨by omega, hid⟩)

theorem live_sequence {builders : List (Building L Fragment)}
    (h : ∀ b ∈ builders, Live reads allowed b) : Live reads allowed (sequence builders) := by
  refine ⟨framed_sequence fun b hb => (h b hb).framed, fun nfa id hid hlt => ?_⟩
  have hsize := size_addState nfa
  apply chain_leads h (Region.ofAddState allowed nfa) nfa.size (Nat.le_refl _) (size_lt_addState nfa)
  by_cases hfirst : id = nfa.size
  · exact .inl hfirst
  · exact .inr ⟨by omega, hlt⟩

/-- From all states of the branches there is a way to their common exit. -/
theorem branches_leads {base entry : Nat} {builders : List (Building L Fragment)}
    (h : ∀ b ∈ builders, Live reads allowed b) {nfa : Nfa L}
    (region : Region allowed base entry nfa)
    (exit : Nat) (hbase : base ≤ exit) (hlt : exit < nfa.size) (hne : exit ≠ entry) {id : Nat}
    (hle : nfa.size ≤ id) (hid : id < (branches entry exit builders nfa).2.size) :
    Leads reads (branches entry exit builders nfa).2 id exit := by
  induction builders generalizing nfa with
  | nil => exact absurd (Nat.lt_of_lt_of_le hid hle) (Nat.lt_irrefl _)
  | cons b rest ih =>
    obtain ⟨hb, hrest⟩ := List.forall_mem_cons.1 h
    have hbranch := bridged_steps hb.framed region hbase hlt hne
    have hin := attached_steps hb.framed region region.base_le
    have hsize := size_bridged b entry exit nfa
    by_cases hold : id < (b nfa).2.size
    · have hinside := (hb.leads nfa id hle hold).grows
        ((grows_addTransition 0 (b nfa).2 (.null (b nfa).1.entry) (Nat.zero_le entry)).trans
          (grows_addTransition 0 (attached b entry nfa) (.null exit) (Nat.zero_le (b nfa).1.exit)))
      have hlink := leads_linked reads (attached b entry nfa) exit hin.last_lt
      exact (hinside.trans hlink).grows (branches_steps (fun b hb => (hrest b hb).framed)
        hbranch.region exit hbase hbranch.last_lt hne).grows
    · have hle_out : (bridged b entry exit nfa).size ≤ id := by omega
      exact ih hrest hbranch.region hbranch.last_lt hle_out hid

theorem liveBehind_choice {builders : List (Building L Fragment)}
    (h : ∀ b ∈ builders, Live reads allowed b) : LiveBehind reads allowed (choice builders) := by
  refine ⟨framed_choice fun b hb => (h b hb).framed, fun nfa id hid hlt hne => ?_⟩
  have hexit : nfa.addState.1.addState.2 = nfa.size + 1 := size_addState nfa
  have hsize : nfa.addState.1.addState.1.size = nfa.size + 2 := by
    rw [size_addState, size_addState]
  have hentry := Region.ofAddState allowed nfa
  have hexit' := StepsTo.addState hentry
  change id ≠ nfa.size at hne
  by_cases hlast : id = nfa.addState.1.addState.2
  · rw [hlast]
    exact .refl _ _
  · exact branches_leads h hexit'.region nfa.addState.1.size hexit'.le_last hexit'.last_lt
      (Nat.ne_of_gt hentry.entry_lt) (by omega) hlt

end LexChart.Building
