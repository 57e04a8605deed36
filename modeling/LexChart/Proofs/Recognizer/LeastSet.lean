import LexChart.Proofs.Checked.Recognizer
import LexChart.Proofs.Recognizer.Exactness
set_option autoImplicit false

/-!
# The least set behind a token

Reading a token computes a least fixed point.  Of all collections of items that hold what the token
scans and are closed under prediction and completion, the set behind the token is the smallest, and
so it depends on the earlier sets only as sets: if their items stand in another order, so may those
of the next set, but they are the same.

The set is computed in place, by a loop that goes over the items by position while more of them are
put behind.  Items of a set are different, so any limit above the number of states times the number
of locations lets the loop end.
-/

namespace LexChart

/-- Items that are closed under all ways to insert an item behind a token, which is read at the
location. -/
structure ClosedBehind (m : Machine) (c : Chart) (location token : Nat)
    (items : ChartItem → Prop) : Prop where
  scan : ∀ i s target, c.Holds location i → m.state i.state = .ok s →
    s.scan token = some target → items ⟨target, i.origin⟩
  predict : ∀ i s prediction, items i → m.state i.state = .ok s →
    s.prediction = some prediction → items ⟨prediction, location + 1⟩
  complete : ∀ i waiting s t rule target, items i → i.origin ≤ location →
    m.state i.state = .ok s → s.completes rule = true → c.Holds i.origin waiting →
    m.state waiting.state = .ok t → t.goto rule = some target → items ⟨target, waiting.origin⟩

/-- The smallest of them. -/
structure LeastBehind (m : Machine) (c : Chart) (location token : Nat)
    (items : ChartItem → Prop) : Prop where
  closed : ClosedBehind m c location token items
  least : ∀ other, ClosedBehind m c location token other → ∀ i, items i → other i

/-- The charts have the same sets, whose items may stand in another order. -/
structure Chart.Rearranges (c c' : Chart) : Prop where
  size_eq : c'.size = c.size
  sets : ∀ location set set', c.set location = .ok set → c'.set location = .ok set' →
    set'.location = set.location ∧ set'.items.Perm set.items

theorem Chart.Rearranges.holds_iff {c c' : Chart} (h : c.Rearranges c') {location : Nat}
    {i : ChartItem} : c'.Holds location i ↔ c.Holds location i := by
  constructor
  · rintro ⟨set', hset', hi⟩
    obtain ⟨set, hset⟩ := Chart.exists_set_of_lt (h.size_eq ▸ Chart.lt_of_set hset')
    exact ⟨set, hset, (h.sets location set set' hset hset').2.mem_iff.1 hi⟩
  · rintro ⟨set, hset, hi⟩
    obtain ⟨set', hset'⟩ := Chart.exists_set_of_lt (h.size_eq.symm ▸ Chart.lt_of_set hset)
    exact ⟨set', hset', (h.sets location set set' hset hset').2.mem_iff.2 hi⟩

namespace Recognizer

/-! ## The least set -/

section

variable {m : Machine} {c c' : Chart} {location token : Nat}

theorem leastBehind_nextItem (m : Machine) (c : Chart) (location token : Nat) :
    LeastBehind m c location token (NextItem m c location token) := by
  refine ⟨⟨fun i s target => .scan, fun i s prediction => .predict,
    fun i waiting s t rule target => .complete⟩, fun other closed i hi => ?_⟩
  induction hi with
  | scan hi hs hscan => exact closed.scan _ _ _ hi hs hscan
  | predict _ hs hprediction ih => exact closed.predict _ _ _ ih hs hprediction
  | complete _ horigin hs hcompletes hw ht hgoto ih =>
    exact closed.complete _ _ _ _ _ _ ih horigin hs hcompletes hw ht hgoto

/-- The items behind a token depend on which items the sets hold. -/
theorem nextItem_congr (h : ∀ location i, c'.Holds location i ↔ c.Holds location i)
    {i : ChartItem} : NextItem m c' location token i ↔ NextItem m c location token i := by
  have hclosed : ∀ items, ClosedBehind m c' location token items ↔
      ClosedBehind m c location token items := by
    intro items
    constructor
    · rintro ⟨hscan, hpredict, hcomplete⟩
      simp only [h] at hscan hcomplete
      exact ⟨hscan, hpredict, hcomplete⟩
    · rintro ⟨hscan, hpredict, hcomplete⟩
      simp only [← h] at hscan hcomplete
      exact ⟨hscan, hpredict, hcomplete⟩
  have hleast := leastBehind_nextItem m c location token
  have hleast' := leastBehind_nextItem m c' location token
  exact ⟨hleast'.least _ ((hclosed _).2 hleast.closed) i,
    hleast.least _ ((hclosed _).1 hleast'.closed) i⟩

end

variable {r r' : Recognizer} {token : Nat}

theorem NextSet.leastBehind {next : ChartSet} (h : r.NextSet token next) :
    LeastBehind r.machine r.chart r.location token fun i => i ∈ next.items := by
  have hsame : (fun i => i ∈ next.items) = NextItem r.machine r.chart r.location token :=
    funext fun i => propext (h.mem_iff i)
  rw [hsame]
  exact leastBehind_nextItem r.machine r.chart r.location token

/-! ## The order of the items -/

/-- The recognizers have the same machine, and sets that differ in the order of their items. -/
structure Rearranges (r r' : Recognizer) : Prop where
  machine_eq : r'.machine = r.machine
  chart : r.chart.Rearranges r'.chart

section

variable (h : r.Rearranges r')
include h

theorem Rearranges.location_eq : r'.location = r.location := by
  unfold location
  rw [h.chart.size_eq]

theorem Rearranges.valid (valid : r.Valid) : r'.Valid := by
  refine ⟨h.machine_eq ▸ valid.closed, h.chart.size_eq ▸ valid.nonempty,
    fun location set' hset' => ?_⟩
  obtain ⟨set, hset⟩ := Chart.exists_set_of_lt (h.chart.size_eq ▸ Chart.lt_of_set hset')
  obtain ⟨hlocation, hperm⟩ := h.chart.sets location set set' hset hset'
  obtain ⟨hat, fits, predictions⟩ := valid.sets location set hset
  rw [h.machine_eq]
  refine ⟨hlocation.trans hat, ⟨hperm.toList.nodup_iff.2 fits.nodup, fun i hi => ?_,
    fun i hi => ?_⟩, fun i hi j hj => ?_⟩
  · exact fits.state_lt i (hperm.mem_iff.1 hi)
  · rw [hlocation]
    exact fits.origin_le i (hperm.mem_iff.1 hi)
  · rw [hlocation] at hj
    exact hperm.mem_iff.2 (predictions i (hperm.mem_iff.1 hi) j hj)

theorem Rearranges.scans_iff : r'.Scans token ↔ r.Scans token := by
  unfold Scans
  rw [h.machine_eq, h.location_eq]
  simp only [h.chart.holds_iff]

/-- The sets behind a token have the same items, each once. -/
theorem Rearranges.push (valid : r.Valid) {next next' : ChartSet} (hnext : r.NextSet token next)
    (hnext' : r'.NextSet token next') : (r.push next).Rearranges (r'.push next') := by
  have hmem : ∀ i, i ∈ next'.items.toList ↔ i ∈ next.items.toList := by
    intro i
    rw [Array.mem_toList_iff, Array.mem_toList_iff, hnext.mem_iff, hnext'.mem_iff, h.machine_eq,
      h.location_eq]
    exact nextItem_congr fun location i => h.chart.holds_iff
  have hlocation : next'.location = next.location := by
    rw [hnext.location_eq, hnext'.location_eq, h.chart.size_eq]
  refine ⟨h.machine_eq, by rw [size_push, size_push, h.chart.size_eq], ?_⟩
  intro location set set' hset hset'
  rw [set_push valid] at hset
  rw [set_push (h.valid valid), h.location_eq] at hset'
  split at hset
  · rename_i heq
    rw [if_pos heq] at hset'
    cases hset
    cases hset'
    have hperm := (List.perm_ext_iff_of_nodup hnext'.fits.nodup hnext.fits.nodup).2 hmem
    exact ⟨hlocation, .of_toList_perm hperm⟩
  · rename_i hne
    rw [if_neg hne] at hset'
    exact h.chart.sets location set set' hset hset'

/-- A token that is accepted is accepted whatever the order of the items, and the recognizers behind
it differ in that order again. -/
theorem Rearranges.advance (valid : r.Valid) {s : Recognizer}
    (accepted : r.advance r.location token = .ok (.ok s)) :
    ∃ s', r'.advance r'.location token = .ok (.ok s') ∧ s.Valid ∧ s.Rearranges s' := by
  have hscans := scans_of_advance valid accepted
  obtain ⟨next, hadvance, hnext⟩ := advance_of_scans valid hscans
  rw [accepted] at hadvance
  cases hadvance
  obtain ⟨next', hadvance', hnext'⟩ := advance_of_scans (h.valid valid) (h.scans_iff.2 hscans)
  exact ⟨_, hadvance', valid.push hnext, h.push valid hnext hnext'⟩

end

/-- The order of the items makes no difference to a run. -/
theorem Reads.rearranges {s : Recognizer} {tokens : List Nat} (hreads : Reads r tokens s)
    (valid : r.Valid) (h : r.Rearranges r') : ∃ s', Reads r' tokens s' ∧ s.Rearranges s' := by
  induction hreads generalizing r' with
  | nil r => exact ⟨r', .nil r', h⟩
  | cons accepted _ ih =>
    obtain ⟨s', accepted', valid', h'⟩ := h.advance valid accepted
    obtain ⟨t', hreads', hlast⟩ := ih valid' h'
    exact ⟨t', .cons accepted' hreads', hlast⟩

end Recognizer

/-! ## The loop -/

/-- A loop that ends before a limit ends before every larger one. -/
theorem Checked.completeFrom_mono {m : Machine} {location limit more position : Nat}
    {chart chart' : Chart}
    (h : completeFrom m location limit position chart = some chart') (hle : limit ≤ more) :
    completeFrom m location more position chart = some chart' := by
  induction limit generalizing more position chart with
  | zero => cases h
  | succ limit ih =>
    obtain ⟨more, rfl⟩ : ∃ k, more = k + 1 := ⟨more - 1, by omega⟩
    unfold completeFrom at h ⊢
    obtain ⟨set, hset, h⟩ := Option.bind_eq_some_iff.1 h
    refine Option.bind_eq_some_iff.2 ⟨set, hset, ?_⟩
    cases hget : set.get? position with
    | none =>
      rw [hget] at h
      exact h
    | some i =>
      rw [hget] at h
      obtain ⟨between, hitem, h⟩ := Option.bind_eq_some_iff.1 h
      exact Option.bind_eq_some_iff.2 ⟨between, hitem, ih h (by omega)⟩

namespace Recognizer

variable {r : Recognizer} {token : Nat}

/-- The set behind an accepted token is opened with what the token scans, and the loop that
completes its items ends within any limit that is large enough. -/
theorem grown_in_place (valid : r.Valid) {s : Recognizer}
    (accepted : r.advance r.location token = .ok (.ok s)) : ∃ set items opened,
      r.chart.set r.location = .ok set ∧ scanned r.machine set token = .ok items ∧
      items.foldlM (Checked.add r.machine (r.location + 1)) (Checked.pushSet r.chart) =
        some opened ∧
      ∀ limit, r.machine.size * (r.location + 2) < limit →
        Checked.completeFrom r.machine (r.location + 1) limit 0 opened = some s.chart := by
  unfold advance at accepted
  rw [if_neg fun hne => hne rfl] at accepted
  obtain ⟨set, hset, accepted⟩ := bind_eq_ok_iff.1 accepted
  obtain ⟨items, hitems, accepted⟩ := bind_eq_ok_iff.1 accepted
  split at accepted
  · obtain ⟨expected, -, accepted⟩ := bind_eq_ok_iff.1 accepted
    cases accepted
  · obtain ⟨start, hstart, accepted⟩ := bind_eq_ok_iff.1 accepted
    obtain ⟨next, hnext, accepted⟩ := bind_eq_ok_iff.1 accepted
    cases accepted
    obtain ⟨hopened, hcompleted⟩ := Checked.nextChart_eq valid hset hitems hstart hnext
    exact ⟨set, items, _, hset, hitems, hopened,
      fun limit hlimit => Checked.completeFrom_mono hcompleted hlimit⟩

/-- The set behind an accepted token is the least one: it stands at the next location, holds each
item once, and as a set it is the smallest that has what the token scans and is closed under
prediction and completion.  The loop that computes it ends.  The order of the items in the earlier
sets makes no difference, to this set or to those of a run that goes on from it. -/
theorem next_set_least {d : Declarations} {g : Grammar} {tokens : List Nat} {s : Recognizer}
    (declared : Declarations.Declared d) (built : d.build = .ok (.ok g))
    (reached : ReachedBy g tokens r) (accepted : r.advance r.location token = .ok (.ok s)) :
    (∃ next, s = r.push next ∧ next.location = r.location + 1 ∧ next.items.toList.Nodup ∧
      LeastBehind r.machine r.chart r.location token fun i => i ∈ next.items) ∧
    (∃ set items opened, r.chart.set r.location = .ok set ∧
      scanned r.machine set token = .ok items ∧
      items.foldlM (Checked.add r.machine (r.location + 1)) (Checked.pushSet r.chart) =
        some opened ∧
      ∀ limit, r.machine.size * (r.location + 2) < limit →
        Checked.completeFrom r.machine (r.location + 1) limit 0 opened = some s.chart) ∧
    ∀ r', r.Rearranges r' →
      ∃ s', r'.advance r'.location token = .ok (.ok s') ∧ s.Rearranges s' ∧
        ∀ more t, Reads s more t → ∃ t', Reads s' more t' ∧ t.Rearranges t' := by
  obtain ⟨net, agrees, -⟩ := reached.agrees (Declarations.wellFormed_of_build declared built)
    (nullableExact_of_build declared built)
  have valid := agrees.valid
  refine ⟨?_, grown_in_place valid accepted, fun r' h => ?_⟩
  · obtain ⟨next, hadvance, hnext⟩ := advance_of_scans valid (scans_of_advance valid accepted)
    rw [accepted] at hadvance
    cases hadvance
    refine ⟨next, rfl, ?_, hnext.fits.nodup, hnext.leastBehind⟩
    rw [hnext.location_eq, valid.location_succ]
  · obtain ⟨s', hadvance', valid', h'⟩ := h.advance valid accepted
    exact ⟨s', hadvance', h', fun more t hreads => hreads.rearranges valid' h'⟩

/-- The set behind a parenthesis that is closed is the least one. -/
theorem next_set_least_balanced : ∃ g r next, Declarations.balanced.build = .ok (.ok g) ∧
    ReachedBy g [0] r ∧ r.advance 1 1 = .ok (.ok (r.push next)) ∧ next.location = 2 ∧
    LeastBehind r.machine r.chart 1 1 fun i => i ∈ next.items := by
  obtain ⟨g, built, wellFormed, nullable, hsize, -, hpair⟩ := generates_balanced
  have hcontinues : g.Continues [0] 1 := ⟨[], hpair⟩
  have hbegins : ∃ rest, g.Derives [.rule g.start] ([0].map .lex ++ rest) := ⟨[.lex 1], hpair⟩
  obtain ⟨r, reached⟩ := exists_reachedBy wellFormed nullable hsize hbegins
  obtain ⟨net, agrees, hend⟩ := reached.agrees wellFormed nullable
  obtain ⟨next, accepted, -⟩ :=
    advance_of_scans agrees.valid ((agrees.scans_iff_continues hend 1).2 hcontinues)
  obtain ⟨⟨next', hsame, hlocation, -, hleast⟩, -⟩ :=
    next_set_least Declarations.declared_balanced built reached accepted
  rw [show r.location = 1 from hend] at accepted hlocation hleast
  exact ⟨g, r, next', built, reached, hsame ▸ accepted, hlocation, hleast⟩

end Recognizer

end LexChart
