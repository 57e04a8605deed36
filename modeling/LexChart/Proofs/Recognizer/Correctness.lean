import LexChart.Proofs.Recognizer.Advance
import LexChart.Proofs.Recognizer.Items
import LexChart.Proofs.Recognizer.Network
set_option autoImplicit false

/-!
# Charts hold the active states

The items of a set stand for the active states at its location: every state in the closure of an
item is active with the origin of the item, and every active state is in the closure of such an
item.  The first is kept by every way to insert an item.  The second follows, one way to become
active after the other, from a chart that is closed under all ways to insert items.
-/

namespace LexChart

variable {net : RuleNetwork} {g : Grammar} {m : Machine} {tokens : List Nat}

/-! ## Silent steps between active states -/

theorem Active.silentStep {location origin p q : Nat} (h : Active net g tokens location origin p)
    (hstep : net.SilentStep g false p q) : Active net g tokens location origin q := by
  cases hstep with
  | null hmove => exact h.silent hmove
  | skip hmove hgenerates => exact h.skip hmove hgenerates
  | enter hpredict _ _ => cases hpredict

theorem Active.silently {location origin p q : Nat} (h : Active net g tokens location origin p)
    (hsilent : net.Silent g false p q) : Active net g tokens location origin q := by
  induction hsilent with
  | refl => exact h
  | tail _ hstep ih => exact ih.silentStep hstep

/-- What is predicted begins where it is predicted. -/
theorem Active.predicted {location origin p q : Nat} (h : Active net g tokens location origin p)
    (hpredicted : net.Predicted g p q) : Active net g tokens location location q := by
  obtain ⟨entry, ⟨rule, target, f, hmove, hf, rfl⟩, hsilent⟩ := hpredicted
  induction hsilent with
  | refl => exact h.predict hmove hf
  | tail _ hstep ih =>
    cases hstep with
    | null hmove => exact ih.silent hmove
    | skip hmove hgenerates => exact ih.skip hmove hgenerates
    | enter _ hmove hf => exact ih.predict hmove hf

/-- No move leads to the entry of a rule, so it is only active where the rule begins. -/
theorem Active.origin_eq_of_entry (represents : net.Represents g) {location origin rule : Nat}
    {f : Fragment} (hf : net.fragmentOf? rule = some f)
    (h : Active net g tokens location origin f.entry) : origin = location := by
  generalize hq : f.entry = q at h
  cases h with
  | start _ => rfl
  | silent _ hmove => exact absurd hmove (hq ▸ represents.entry_ne rule f hf _ _)
  | skip _ hmove _ => exact absurd hmove (hq ▸ represents.entry_ne rule f hf _ _)
  | predict _ _ _ => rfl
  | scan _ hmove _ => exact absurd hmove (hq ▸ represents.entry_ne rule f hf _ _)
  | complete _ _ _ _ hmove => exact absurd hmove (hq ▸ represents.entry_ne rule f hf _ _)

/-! ## Items stand for active states -/

/-- All states in the closure of an item are active. -/
def ItemActive (net : RuleNetwork) (g : Grammar) (m : Machine) (tokens : List Nat) (location : Nat)
    (i : ChartItem) : Prop :=
  ∀ s, m.state i.state = .ok s → ∀ q ∈ s.closure, Active net g tokens location i.origin q

section

variable (simulates : m.Simulates net g)
include simulates

theorem itemActive_start : ItemActive net g m tokens 0 ⟨Machine.start, 0⟩ := by
  intro s hs q hq
  obtain ⟨s', hs', hmem⟩ := simulates.first
  rw [hs] at hs'
  cases hs'
  obtain ⟨f, hf, hsilent⟩ := (hmem q).1 hq
  exact (Active.start hf).silently hsilent

theorem ItemActive.predict {location : Nat} {i j : ChartItem}
    (h : ItemActive net g m tokens location i) (hpredicts : m.Predicts location i j) :
    ItemActive net g m tokens location j := by
  obtain ⟨s, prediction, hs, hprediction, rfl⟩ := hpredicts
  intro t ht q hq
  obtain ⟨t', ht', hmem⟩ := simulates.predicts _ s hs prediction hprediction
  rw [ht] at ht'
  cases ht'
  obtain ⟨p, hp, hpredicted⟩ := (hmem q).1 hq
  exact (h s hs p hp).predicted hpredicted

theorem ItemActive.scan {location token : Nat} {i : ChartItem}
    (h : ItemActive net g m tokens location i) (htoken : tokens[location]? = some token)
    {s : MachineState} (hs : m.state i.state = .ok s) {target : Nat}
    (hscan : s.scan token = some target) :
    ItemActive net g m tokens (location + 1) ⟨target, i.origin⟩ := by
  intro t ht q hq
  obtain ⟨t', ht', hmem⟩ := simulates.next _ s hs (.lex token) target hscan
  rw [ht] at ht'
  cases ht'
  obtain ⟨p, hp, r, hmove, hsilent⟩ := (hmem q).1 hq
  exact ((h s hs p hp).scan hmove htoken).silently hsilent

theorem ItemActive.complete {location : Nat} {i w : ChartItem}
    (h : ItemActive net g m tokens location i) (horigin : i.origin < location)
    (hw : ItemActive net g m tokens i.origin w) {s t : MachineState} (hs : m.state i.state = .ok s)
    {rule target : Nat} (hcompletes : s.completes rule = true) (ht : m.state w.state = .ok t)
    (hgoto : t.goto rule = some target) :
    ItemActive net g m tokens location ⟨target, w.origin⟩ := by
  intro u hu q hq
  obtain ⟨u', hu', hmem⟩ := simulates.next _ t ht (.rule rule) target hgoto
  rw [hu] at hu'
  cases hu'
  obtain ⟨p, hp, r, hmove, hsilent⟩ := (hmem q).1 hq
  obtain ⟨f, hf, hexit⟩ := (simulates.completes_iff _ s hs rule).1 hcompletes
  exact (Active.complete hf (h s hs f.exit hexit) horigin (hw t ht p hp) hmove).silently hsilent

end

/-! ## Active states are in items -/

/-- A chart is closed under all ways to insert items. -/
structure Chart.Saturated (c : Chart) (m : Machine) (tokens : List Nat) : Prop where
  known : ∀ location i, c.Holds location i → ∃ s, m.state i.state = .ok s
  start : c.Holds 0 ⟨Machine.start, 0⟩
  predict : ∀ location i j, c.Holds location i → m.Predicts location i j → c.Holds location j
  scan : ∀ location token i s target, location + 1 < c.size → tokens[location]? = some token →
    c.Holds location i → m.state i.state = .ok s → s.scan token = some target →
    c.Holds (location + 1) ⟨target, i.origin⟩
  complete : ∀ location i j, c.Holds location i → m.Resumes c location i j → c.Holds location j

/-- Some item of the set at a location has the origin, and the state in its closure. -/
def Chart.Covers (c : Chart) (m : Machine) (location origin q : Nat) : Prop :=
  ∃ i s, c.Holds location i ∧ i.origin = origin ∧ m.state i.state = .ok s ∧ q ∈ s.closure

/-- A saturated chart covers all active states; an item whose closure holds what it predicts begins
where it is. -/
theorem Active.covered (represents : net.Represents g) (simulates : m.Simulates net g) {c : Chart}
    (saturated : c.Saturated m tokens)
    (sound : ∀ location i, c.Holds location i → ItemActive net g m tokens location i)
    {location origin q : Nat} (h : Active net g tokens location origin q)
    (hlt : location < c.size) :
    c.Covers m location origin q := by
  induction h with
  | @start f hf =>
    obtain ⟨s, hs, hmem⟩ := simulates.first
    exact ⟨_, s, saturated.start, rfl, hs, (hmem _).2 ⟨f, hf, .refl⟩⟩
  | silent _ hmove ih =>
    obtain ⟨i, s, hi, horigin, hs, hp⟩ := ih hlt
    exact ⟨i, s, hi, horigin, hs, simulates.closed _ s hs _ hp _ (.null hmove)⟩
  | skip _ hmove hgenerates ih =>
    obtain ⟨i, s, hi, horigin, hs, hp⟩ := ih hlt
    exact ⟨i, s, hi, horigin, hs, simulates.closed _ s hs _ hp _ (.skip hmove hgenerates)⟩
  | @predict location origin p q rule f _ hmove hf ih =>
    obtain ⟨i, s, hi, horigin, hs, hp⟩ := ih hlt
    have hpredicted : net.Predicted g p f.entry := ⟨_, ⟨rule, q, f, hmove, hf, rfl⟩, .refl⟩
    cases hprediction : s.prediction with
    | some prediction =>
      obtain ⟨t, ht, hmem⟩ := simulates.predicts _ s hs prediction hprediction
      exact ⟨_, t, saturated.predict _ i _ hi ⟨s, prediction, hs, hprediction, rfl⟩, rfl, ht,
        (hmem _).2 ⟨p, hp, hpredicted⟩⟩
    | none =>
      have hentry := simulates.keeps _ s hs hprediction p hp _ hpredicted
      have hsame := (sound _ i hi s hs _ hentry).origin_eq_of_entry represents hf
      exact ⟨i, s, hi, hsame, hs, hentry⟩
  | @scan location origin p q token _ hmove htoken ih =>
    obtain ⟨i, s, hi, horigin, hs, hp⟩ := ih (Nat.lt_of_succ_lt hlt)
    obtain ⟨target, hscan⟩ := (simulates.reads _ s hs (.lex token)).2 ⟨p, hp, q, hmove⟩
    obtain ⟨t, ht, hmem⟩ := simulates.next _ s hs (.lex token) target hscan
    exact ⟨_, t, saturated.scan _ token i s target hlt htoken hi hs hscan, horigin, ht,
      (hmem _).2 ⟨p, hp, q, hmove, .refl⟩⟩
  | @complete location origin before p q rule f hf _ horigin_lt _ hmove ihcallee ihcaller =>
    obtain ⟨i, s, hi, rfl, hs, hexit⟩ := ihcallee hlt
    obtain ⟨w, t, hw, hbefore, ht, hp⟩ := ihcaller (Nat.lt_trans horigin_lt hlt)
    have hcompletes := (simulates.completes_iff _ s hs rule).2 ⟨f, hf, hexit⟩
    obtain ⟨target, hgoto⟩ := (simulates.reads _ t ht (.rule rule)).2 ⟨p, hp, q, hmove⟩
    obtain ⟨u, hu, hmem⟩ := simulates.next _ t ht (.rule rule) target hgoto
    exact ⟨_, u, saturated.complete _ i _ hi
      ⟨horigin_lt, s, rule, w, t, target, hs, hcompletes, hw, ht, hgoto, rfl⟩, hbefore, hu,
      (hmem _).2 ⟨p, hp, q, hmove, .refl⟩⟩

/-- The machine of a grammar simulates the network of the grammar, which represents it. -/
theorem Machine.simulates_network (wellFormed : g.WellFormed) (nullable : g.NullableExact)
    (hnet : RuleNetwork.ofGrammar g = .ok net) (h : Machine.ofGrammar g = .ok m) :
    net.Represents g ∧ m.Simulates net g := by
  obtain ⟨found, hfound, represents⟩ := RuleNetwork.ofGrammar_ok wellFormed
  rw [hnet] at hfound
  cases hfound
  obtain ⟨found, hfound, hnetwork⟩ := bind_eq_ok_iff.1 h
  rw [hnet] at hfound
  cases hfound
  obtain ⟨m', hm', simulates⟩ :=
    Machine.ofNetwork_ok represents nullable (Machine.lt_sizeLimit_of_ofNetwork hnetwork)
  rw [hnetwork] at hm'
  cases hm'
  exact ⟨represents, simulates⟩

/-- The machine of a grammar simulates a network that represents the grammar. -/
theorem Machine.simulates_of_ofGrammar (wellFormed : g.WellFormed) (nullable : g.NullableExact)
    (h : Machine.ofGrammar g = .ok m) :
    ∃ net : RuleNetwork, net.Represents g ∧ m.Simulates net g := by
  obtain ⟨net, hnet, -⟩ := RuleNetwork.ofGrammar_ok wellFormed
  exact ⟨net, Machine.simulates_network wellFormed nullable hnet h⟩

namespace Recognizer

variable {r : Recognizer}

/-! ## Runs -/

/-- What holds of a recognizer between two tokens. -/
structure Agrees (net : RuleNetwork) (g : Grammar) (tokens : List Nat) (r : Recognizer) : Prop where
  represents : net.Represents g
  simulates : r.machine.Simulates net g
  valid : r.Valid
  location_le : r.location ≤ tokens.length
  sound : ∀ location i, r.chart.Holds location i → ItemActive net g r.machine tokens location i
  saturated : r.chart.Saturated r.machine tokens

theorem Valid.known (valid : r.Valid) (location : Nat) (i : ChartItem)
    (h : r.chart.Holds location i) :
    ∃ s, r.machine.state i.state = .ok s :=
  Machine.exists_state_of_lt (valid.state_of_holds h).1

theorem Valid.predicts (valid : r.Valid) (location : Nat) (i j : ChartItem)
    (h : r.chart.Holds location i) (hpredicts : r.machine.Predicts location i j) :
    r.chart.Holds location j := by
  obtain ⟨set, hset, hi⟩ := h
  obtain ⟨hlocation, -, hpredictions⟩ := valid.sets location set hset
  exact ⟨set, hset, hpredictions i hi j (by rwa [hlocation])⟩

theorem agrees_ofMachine (represents : net.Represents g) (simulates : m.Simulates net g) :
    ∃ r, ofMachine m = .ok r ∧ r.location = 0 ∧ Agrees net g tokens r := by
  obtain ⟨r, hr, rfl, valid, hlocation, hstart, hall⟩ := ofMachine_ok simulates.closed_states
  have hsize : r.chart.size = 1 := by
    rw [← valid.location_succ, hlocation]
  have hfirst : ∀ location i, r.chart.Holds location i → location = 0 := by
    rintro location i ⟨set, hset, -⟩
    have hlt := Chart.lt_of_set hset
    omega
  refine ⟨r, hr, hlocation, represents, simulates, valid, by omega, fun location i hi => ?_,
    valid.known, hstart, valid.predicts, fun location _ _ _ _ hlt => ?_,
    fun location i j hi hj => ?_⟩
  · obtain rfl := hfirst location i hi
    have hpredicted := hall i hi
    clear hi
    induction hpredicted with
    | refl => exact itemActive_start simulates
    | tail _ hpredicts ih => exact ih.predict simulates hpredicts
  · omega
  · obtain rfl := hfirst location i hi
    exact absurd hj.1 (Nat.not_lt_zero _)

/-- A set of the chart before the next one stays. -/
theorem holds_push_iff (valid : r.Valid) {next : ChartSet} (location : Nat)
    (i : ChartItem) : (r.push next).chart.Holds location i ↔
      if location = r.location + 1 then i ∈ next.items else r.chart.Holds location i := by
  unfold Chart.Holds
  rw [set_push valid]
  split
  · simp
  · rfl

theorem holds_push_new_iff (valid : r.Valid) {next : ChartSet} {i : ChartItem} :
    (r.push next).chart.Holds (r.location + 1) i ↔ i ∈ next.items := by
  rw [holds_push_iff valid, if_pos rfl]

theorem holds_push_old_iff (valid : r.Valid) {next : ChartSet} {location : Nat} {i : ChartItem}
    (hle : location ≤ r.location) :
    (r.push next).chart.Holds location i ↔ r.chart.Holds location i := by
  rw [holds_push_iff valid, if_neg (by omega)]

theorem location_of_holds_push (valid : r.Valid) {next : ChartSet} {location : Nat}
    {i : ChartItem} (h : (r.push next).chart.Holds location i) :
    location = r.location + 1 ∨ location ≤ r.location := by
  obtain ⟨set, hset, -⟩ := h
  have hbound := Chart.lt_of_set hset
  rw [size_push, ← valid.location_succ] at hbound
  omega

/-- The items of the next set are active, as they follow from active ones. -/
theorem Agrees.nextItem_active (h : Agrees net g tokens r) {token : Nat}
    (htoken : tokens[r.location]? = some token) {i : ChartItem}
    (hi : NextItem r.machine r.chart r.location token i) :
    ItemActive net g r.machine tokens (r.location + 1) i := by
  induction hi with
  | scan hi hs hscan => exact (h.sound _ _ hi).scan h.simulates htoken hs hscan
  | predict _ hs hprediction ih => exact ih.predict h.simulates ⟨_, _, hs, hprediction, rfl⟩
  | complete _ horigin hs hcompletes hw ht hgoto ih =>
    exact ih.complete h.simulates (Nat.lt_succ_of_le horigin) (h.sound _ _ hw) hs hcompletes
      ht hgoto

/-- A chart stays saturated when the next set is pushed. -/
theorem Agrees.saturated_push (h : Agrees net g tokens r) {token : Nat}
    (htoken : tokens[r.location]? = some token) {next : ChartSet} (hnext : r.NextSet token next) :
    (r.push next).chart.Saturated r.machine tokens := by
  have hvalid := h.valid.push hnext
  have hold {location : Nat} {i : ChartItem} (hle : location ≤ r.location) :=
    (holds_push_old_iff h.valid hle : (r.push next).chart.Holds location i ↔ _)
  refine ⟨hvalid.known, (hold (Nat.zero_le _)).2 h.saturated.start, hvalid.predicts, ?_, ?_⟩
  · intro location other i s target hbound hother hi hs hscan
    rw [size_push, ← h.valid.location_succ] at hbound
    have hle : location ≤ r.location := by omega
    have hi := (hold hle).1 hi
    rcases Nat.lt_or_eq_of_le hle with hlt | rfl
    · rw [hold hlt]
      refine h.saturated.scan location other i s target ?_ hother hi hs hscan
      rw [← h.valid.location_succ]
      omega
    · obtain rfl := Option.some.inj (htoken.symm.trans hother)
      exact (holds_push_new_iff h.valid).2 ((hnext.mem_iff _).2 (.scan hi hs hscan))
  · rintro location i _ hi ⟨horigin, s, rule, w, t, target, hs, hcompletes, hw, ht, hgoto, rfl⟩
    rcases location_of_holds_push h.valid hi with rfl | hle
    · have hw := (hold (Nat.le_of_lt_succ horigin)).1 hw
      have hi := (hnext.mem_iff i).1 ((holds_push_new_iff h.valid).1 hi)
      exact (holds_push_new_iff h.valid).2 ((hnext.mem_iff _).2
        (.complete hi (Nat.le_of_lt_succ horigin) hs hcompletes hw ht hgoto))
    · have hw := (hold (by omega)).1 hw
      rw [hold hle] at hi ⊢
      exact h.saturated.complete location i _ hi
        ⟨horigin, s, rule, w, t, target, hs, hcompletes, hw, ht, hgoto, rfl⟩

/-- Reading a token keeps what holds between two tokens. -/
theorem Agrees.push (h : Agrees net g tokens r) {token : Nat}
    (htoken : tokens[r.location]? = some token) {next : ChartSet} (hnext : r.NextSet token next) :
    Agrees net g tokens (r.push next) := by
  refine ⟨h.represents, h.simulates, h.valid.push hnext, ?_, fun location i hi => ?_,
    h.saturated_push htoken hnext⟩
  · rw [location_push h.valid]
    exact (List.getElem?_eq_some_iff.1 htoken).1
  · rcases location_of_holds_push h.valid hi with rfl | hle
    · exact h.nextItem_active htoken ((hnext.mem_iff i).1 ((holds_push_new_iff h.valid).1 hi))
    · exact h.sound location i ((holds_push_old_iff h.valid hle).1 hi)

/-- A token that is accepted is scanned. -/
theorem scans_of_advance (valid : r.Valid) {token : Nat} {s : Recognizer}
    (h : r.advance r.location token = .ok (.ok s)) : r.Scans token := by
  by_contra hscans
  obtain ⟨expected, hexpected, -⟩ := expected_ok valid
  rw [advance_of_not_scans valid hscans hexpected] at h
  cases h

/-- A run that reads the tokens from the location on keeps what holds between two tokens. -/
theorem Reads.agrees {s : Recognizer} {read : List Nat} (h : Reads r read s)
    (agrees : Agrees net g tokens r) (hread : read <+: tokens.drop r.location) :
    Agrees net g tokens s ∧ s.location = r.location + read.length := by
  induction h with
  | nil r => exact ⟨agrees, rfl⟩
  | @cons r s t token read hadvance _ ih =>
    obtain ⟨rest, hrest⟩ := hread
    have htoken : tokens[r.location]? = some token := by
      have hget : (tokens.drop r.location)[0]? = some token := by
        rw [← hrest]
        rfl
      simpa using hget
    obtain ⟨next, hnext, hspec⟩ :=
      advance_of_scans agrees.valid (scans_of_advance agrees.valid hadvance)
    rw [hadvance] at hnext
    obtain rfl : s = r.push next := by
      cases hnext
      rfl
    have hlocation : (r.push next).location = r.location + 1 := location_push agrees.valid
    have hread' : read <+: tokens.drop (r.push next).location := by
      refine ⟨rest, ?_⟩
      rw [hlocation, ← List.drop_drop, ← hrest]
      rfl
    obtain ⟨hagrees, hend⟩ := ih (agrees.push htoken hspec) hread'
    refine ⟨hagrees, ?_⟩
    rw [hend, hlocation, List.length_cons]
    omega

/-- A recognizer of a well-formed grammar whose nullable rules are marked agrees with the grammar on
the tokens it has read. -/
theorem ReachedBy.agrees_network (wellFormed : g.WellFormed) (nullable : g.NullableExact)
    (hnet : RuleNetwork.ofGrammar g = .ok net) (h : ReachedBy g tokens r) :
    Agrees net g tokens r ∧ r.location = tokens.length := by
  obtain ⟨m, start, hm, hstart, hreads⟩ := h
  obtain ⟨represents, simulates⟩ := Machine.simulates_network wellFormed nullable hnet hm
  obtain ⟨start', hstart', hlocation, agrees⟩ := agrees_ofMachine represents simulates
  rw [hstart] at hstart'
  cases hstart'
  obtain ⟨hagrees, hend⟩ := hreads.agrees agrees (by rw [hlocation, List.drop_zero])
  refine ⟨hagrees, ?_⟩
  rw [hend, hlocation, Nat.zero_add]

theorem ReachedBy.agrees (wellFormed : g.WellFormed) (nullable : g.NullableExact)
    (h : ReachedBy g tokens r) :
    ∃ net, Agrees net g tokens r ∧ r.location = tokens.length := by
  obtain ⟨net, hnet, -⟩ := RuleNetwork.ofGrammar_ok wellFormed
  exact ⟨net, h.agrees_network wellFormed nullable hnet⟩

end Recognizer

end LexChart
