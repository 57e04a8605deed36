import LexChart.Pattern.Language
import LexChart.Proofs.Charset.Cover
set_option autoImplicit false

/-!
# Classes of characters

The bounds of a list of intervals are the ordinals at which membership in one of them may change.
Between two neighbouring bounds it does not, so all characters of a class lie in the same intervals
of the list, those whose positions come with the class.

A character class of a pattern stands for characters by its notation; its intervals cover these
characters and no others.
-/

namespace LexChart

/-! ## Neighbours in an ascending list -/

/-- No number of an ascending list lies between two neighbours. -/
theorem neighbours_of_ascending {cuts : List Nat} (h : cuts.Pairwise (· < ·)) {lo next : Nat}
    (hmem : (lo, next) ∈ cuts.zip cuts.tail) :
    lo < next ∧ next ∈ cuts ∧ ∀ x ∈ cuts, x ≤ lo ∨ next ≤ x := by
  induction cuts with
  | nil => exact nomatch hmem
  | cons first rest ih =>
    obtain ⟨hfirst, hrest⟩ := List.pairwise_cons.1 h
    cases rest with
    | nil => exact nomatch hmem
    | cons second rest =>
      rcases List.mem_cons.1 hmem with heq | hmem
      · cases heq
        refine ⟨hfirst _ List.mem_cons_self, by simp, fun x hx => ?_⟩
        rcases List.mem_cons.1 hx with rfl | hx
        · exact .inl (Nat.le_refl _)
        rcases List.mem_cons.1 hx with rfl | hx
        · exact .inr (Nat.le_refl _)
        · exact .inr (Nat.le_of_lt ((List.pairwise_cons.1 hrest).1 x hx))
      · have hzip : (lo, next) ∈ (second :: rest).zip (second :: rest).tail := hmem
        obtain ⟨hlt, hnext, hgap⟩ := ih hrest hzip
        refine ⟨hlt, List.mem_cons_of_mem first hnext, fun x hx => ?_⟩
        rcases List.mem_cons.1 hx with rfl | hx
        · have hlo : lo ∈ second :: rest := (List.of_mem_zip hzip).1
          exact .inl (Nat.le_of_lt (hfirst lo hlo))
        · exact hgap x hx

/-- The pairs of neighbours of an ascending list follow each other without overlap. -/
theorem pairwise_neighbours {cuts : List Nat} (h : cuts.Pairwise (· < ·)) :
    (cuts.zip cuts.tail).Pairwise fun a b => a.1 < a.2 ∧ a.2 ≤ b.1 := by
  induction cuts with
  | nil => exact .nil
  | cons first rest ih =>
    obtain ⟨hfirst, hrest⟩ := List.pairwise_cons.1 h
    cases rest with
    | nil => exact .nil
    | cons second rest =>
      refine List.pairwise_cons.2 ⟨fun cut hcut => ?_, ih hrest⟩
      refine ⟨hfirst second List.mem_cons_self, ?_⟩
      have hmem : cut.1 ∈ second :: rest := (List.of_mem_zip hcut).1
      rcases List.mem_cons.1 hmem with heq | hmem
      · exact Nat.le_of_eq heq.symm
      · exact Nat.le_of_lt ((List.pairwise_cons.1 hrest).1 _ hmem)

/-- A number between two of a list lies between two neighbours. -/
theorem exists_neighbours {cuts : List Nat} {x lo hi : Nat} (hlo : lo ∈ cuts) (hlo_le : lo ≤ x)
    (hhi : hi ∈ cuts) (hhi_lt : x < hi) (h : cuts.Pairwise (· < ·)) :
    ∃ cut ∈ cuts.zip cuts.tail, cut.1 ≤ x ∧ x < cut.2 := by
  induction cuts generalizing lo with
  | nil => exact nomatch hlo
  | cons first rest ih =>
    obtain ⟨hfirst, hrest⟩ := List.pairwise_cons.1 h
    have hfirst_le : first ≤ x := by
      rcases List.mem_cons.1 hlo with rfl | hlo
      · exact hlo_le
      · exact Nat.le_trans (Nat.le_of_lt (hfirst lo hlo)) hlo_le
    have hhi_rest : hi ∈ rest := (List.mem_cons.1 hhi).resolve_left (by omega)
    cases rest with
    | nil => exact nomatch hhi_rest
    | cons second rest =>
      by_cases hsecond : x < second
      · exact ⟨(first, second), List.mem_cons_self, hfirst_le, hsecond⟩
      · obtain ⟨cut, hcut, hbetween⟩ := ih List.mem_cons_self (Nat.le_of_not_lt hsecond) hhi_rest
          hrest
        exact ⟨cut, List.mem_cons_of_mem _ hcut, hbetween⟩

namespace Interval

/-! ## Partition -/

theorem mem_bounds {xs : List Interval} {x : Nat} :
    x ∈ bounds xs ↔ ∃ i ∈ xs, x = i.first ∨ x = i.last + 1 := by
  unfold bounds
  rw [mem_ascending, List.mem_flatMap]
  simp only [List.mem_cons, List.not_mem_nil, or_false]

theorem mem_positions {xs : List Interval} {c : Char} {k : Nat} :
    k ∈ positions xs.zipIdx c ↔ ∃ i, xs[k]? = some i ∧ c ∈ i := by
  simp only [positions, List.mem_filterMap, Prod.exists, List.mem_zipIdx_iff_getElem?]
  constructor
  · rintro ⟨i, position, hi, hk⟩
    split at hk
    · obtain rfl := Option.some.inj hk
      exact ⟨i, hi, ‹_›⟩
    · cases hk
  · rintro ⟨i, hi, hc⟩
    exact ⟨i, k, hi, if_pos hc⟩

/-- Characters that lie in the same intervals have the same positions. -/
theorem positions_congr {xs : List Interval} {c d : Char} (h : ∀ i ∈ xs, c ∈ i ↔ d ∈ i) :
    positions xs.zipIdx c = positions xs.zipIdx d := by
  refine List.filterMap_congr fun entry hentry => ?_
  obtain ⟨i, position⟩ := entry
  have hi : i ∈ xs := List.mem_of_getElem? (List.mem_zipIdx_iff_getElem?.1 hentry)
  dsimp only
  simp only [h i hi]

/-- Between two neighbouring bounds all characters lie in the same intervals. -/
theorem mem_congr_of_neighbours {xs : List Interval} {lo next : Nat}
    (hmem : (lo, next) ∈ (bounds xs).zip (bounds xs).tail) {c d : Char}
    (hc : lo ≤ c.ordinal.val ∧ c.ordinal.val < next)
    (hd : lo ≤ d.ordinal.val ∧ d.ordinal.val < next) : ∀ i ∈ xs, c ∈ i ↔ d ∈ i := by
  intro i hi
  obtain ⟨_, _, hgap⟩ := neighbours_of_ascending (pairwise_ascending _) hmem
  have hfirst := hgap i.first (mem_bounds.2 ⟨i, hi, .inl rfl⟩)
  have hlast := hgap (i.last + 1) (mem_bounds.2 ⟨i, hi, .inr rfl⟩)
  rw [mem_iff, mem_iff]
  omega

/-- A class lists the positions of the intervals that its characters lie in, and there are some. -/
def IsClass (xs : List Interval) (cls : Interval × List Nat) : Prop :=
  cls.2 ≠ [] ∧ ∀ c ∈ cls.1, positions xs.zipIdx c = cls.2

/-- The pieces between neighbouring bounds that lie in some interval. -/
def pieces (xs : List Interval) : List (Interval × List Nat) :=
  ((bounds xs).zip (bounds xs).tail).filterMap fun (lo, next) => do
    let piece ← ofOrdinals? lo (next - 1)
    let members := positions xs.zipIdx piece.lo
    if members.isEmpty then none else some (piece, members)

theorem partition_eq (xs : List Interval) :
    partition xs = coalesce joinClasses? (pieces xs) := rfl

theorem isClass_of_mem_pieces {xs : List Interval} {cls : Interval × List Nat}
    (h : cls ∈ pieces xs) : IsClass xs cls := by
  obtain ⟨⟨lo, next⟩, hcut, hcls⟩ := List.mem_filterMap.1 h
  obtain ⟨piece, hpiece, hcls⟩ := Option.bind_eq_some_iff.1 hcls
  dsimp only at hcls
  split at hcls
  · cases hcls
  · rename_i hmembers
    obtain rfl := Option.some.inj hcls
    refine ⟨fun hnil => hmembers (List.isEmpty_iff.2 hnil), fun c hc => ?_⟩
    obtain ⟨hlt, -, -⟩ := neighbours_of_ascending (pairwise_ascending _) hcut
    obtain ⟨hfirst, hlast⟩ := first_ofOrdinals hpiece
    have hle := piece.first_le_last
    have hc := (mem_iff c piece).1 hc
    have hlo : piece.lo.ordinal.val = piece.first := rfl
    exact positions_congr (mem_congr_of_neighbours hcut (by omega) (by omega))

theorem exists_mem_pieces {xs : List Interval} {c : Char} (h : Covers xs c) :
    ∃ cls ∈ pieces xs, c ∈ cls.1 := by
  obtain ⟨i, hi, hc⟩ := h
  have hci := (mem_iff c i).1 hc
  obtain ⟨⟨lo, next⟩, hcut, hlo, hnext⟩ := exists_neighbours
    (mem_bounds.2 ⟨i, hi, .inl rfl⟩) hci.1 (mem_bounds.2 ⟨i, hi, .inr rfl⟩) (by omega)
    (pairwise_ascending _)
  dsimp only at hlo hnext
  obtain ⟨hlt, hmem, -⟩ := neighbours_of_ascending (pairwise_ascending _) hcut
  have hcodes : next - 1 < Char.numCodePoints := by
    obtain ⟨j, _, hj⟩ := mem_bounds.1 hmem
    have := j.last_lt
    have := j.first_le_last
    omega
  obtain ⟨piece, hpiece, hcp⟩ := (mem_ofOrdinals? lo (next - 1) hcodes c).2 (by omega)
  obtain ⟨hfirst, hlast⟩ := first_ofOrdinals hpiece
  have hle := piece.first_le_last
  have hlo_eq : piece.lo.ordinal.val = piece.first := rfl
  have hpositions := positions_congr
    (mem_congr_of_neighbours hcut (c := c) (d := piece.lo) (by omega) (by omega))
  obtain ⟨k, hk⟩ := List.mem_iff_getElem?.1 hi
  have hmember : k ∈ positions xs.zipIdx piece.lo := hpositions ▸ mem_positions.2 ⟨i, hk, hc⟩
  refine ⟨(piece, positions xs.zipIdx piece.lo), ?_, hcp⟩
  refine List.mem_filterMap.2 ⟨(lo, next), hcut, ?_⟩
  show (ofOrdinals? lo (next - 1)).bind _ = _
  rw [hpiece, Option.bind_some, if_neg]
  intro hempty
  rw [List.isEmpty_iff.1 hempty] at hmember
  exact nomatch hmember

/-- The first class ends before the second begins. -/
def Precedes (a b : Interval × List Nat) : Prop := a.1.last < b.1.first

theorem pairwise_pieces (xs : List Interval) : (pieces xs).Pairwise Precedes := by
  refine (List.pairwise_filterMap ..).2 ?_
  refine (pairwise_neighbours (pairwise_ascending _)).imp ?_
  rintro ⟨lo, next⟩ ⟨lo', next'⟩ ⟨hlt, hle⟩ a ha b hb
  obtain ⟨piece, hpiece, ha⟩ := Option.bind_eq_some_iff.1 ha
  obtain ⟨piece', hpiece', hb⟩ := Option.bind_eq_some_iff.1 hb
  dsimp only at hlt hle ha hb
  split at ha
  · cases ha
  split at hb
  · cases hb
  obtain rfl := Option.some.inj ha
  obtain rfl := Option.some.inj hb
  have hlast : piece.last = next - 1 := (first_ofOrdinals hpiece).2
  have hfirst : piece'.first = lo' := (first_ofOrdinals hpiece').1
  show piece.last < piece'.first
  omega

theorem mem_of_joinClasses? {a b joined : Interval × List Nat}
    (h : joinClasses? a b = some joined) :
    (∀ c, c ∈ joined.1 ↔ c ∈ a.1 ∨ c ∈ b.1) ∧ joined.2 = a.2 ∧ joined.2 = b.2 := by
  unfold joinClasses? at h
  split at h
  · rename_i hsame
    obtain rfl := Option.some.inj h
    exact ⟨fun c => mem_hull (.inr hsame.2), rfl, hsame.1⟩
  · cases h

theorem ends_of_joinClasses? {a b joined : Interval × List Nat}
    (h : joinClasses? a b = some joined) :
    joined.1.first = min a.1.first b.1.first ∧ joined.1.last = max a.1.last b.1.last := by
  unfold joinClasses? at h
  split at h
  · obtain rfl := Option.some.inj h
    exact ⟨first_hull a.1 b.1, last_hull a.1 b.1⟩
  · cases h

/-- The first class ends before the second begins, and there are characters between them if both
come with the same positions. -/
def Separate (a b : Interval × List Nat) : Prop := Precedes a b ∧ (a.2 = b.2 → Apart a.1 b.1)

/-- Classes come in ascending order, and those that touch lie in different intervals. -/
theorem pairwise_separate_partition (xs : List Interval) : (partition xs).Pairwise Separate := by
  have hpieces := pairwise_pieces xs
  rw [partition_eq]
  generalize pieces xs = found at hpieces
  cases found with
  | nil => exact .nil
  | cons first rest =>
    obtain ⟨hfirst, hrest⟩ := List.pairwise_cons.1 hpieces
    refine pairwise_coalesceFrom ?_ ?_ ?_ ?_ hfirst hrest
    · intro a b joined x hjoined hax hbx
      obtain ⟨-, hlast⟩ := ends_of_joinClasses? hjoined
      unfold Precedes at hax hbx ⊢
      omega
    · rintro a b joined x hjoined ⟨hxa, hxa_apart⟩ ⟨hxb, hxb_apart⟩
      obtain ⟨hfirst, -⟩ := ends_of_joinClasses? hjoined
      obtain ⟨-, hleft, hright⟩ := mem_of_joinClasses? hjoined
      unfold Precedes at hxa hxb
      refine ⟨?_, fun hsame => ?_⟩
      · unfold Precedes
        omega
      · have hleft_apart := hxa_apart (hsame.trans hleft)
        have hright_apart := hxb_apart (hsame.trans hright)
        unfold Apart at hleft_apart hright_apart ⊢
        omega
    · intro a b hab hnone
      unfold joinClasses? at hnone
      split at hnone
      · cases hnone
      · rename_i hdifferent
        refine ⟨hab, fun hsame => ?_⟩
        have hadjacent : ¬ a.1.isAdjacent b.1 = true := fun h => hdifferent ⟨hsame, h⟩
        rw [isAdjacent, decide_eq_true_eq] at hadjacent
        unfold Precedes at hab
        unfold Apart
        omega
    · rintro a b x ⟨hab, -⟩ hbx
      have hle := b.1.first_le_last
      unfold Precedes at hab hbx
      have hapart : Apart a.1 x.1 := by
        unfold Apart
        omega
      exact ⟨Nat.lt_of_succ_lt hapart, fun _ => hapart⟩

/-- Classes come in ascending order and do not overlap. -/
theorem pairwise_partition (xs : List Interval) : (partition xs).Pairwise Precedes :=
  (pairwise_separate_partition xs).imp And.left

/-- Classes that are joined lie in the same intervals, and so does the class they are joined to. -/
theorem IsClass.joined {xs : List Interval} {a b joined : Interval × List Nat}
    (ha : IsClass xs a) (hb : IsClass xs b) (hjoined : joinClasses? a b = some joined) :
    IsClass xs joined := by
  obtain ⟨hmem, hleft, hright⟩ := mem_of_joinClasses? hjoined
  refine ⟨by rw [hleft]; exact ha.1, fun c hc => ?_⟩
  rcases (hmem c).1 hc with hc | hc
  · rw [hleft]
    exact ha.2 c hc
  · rw [hright]
    exact hb.2 c hc

/-- All characters of a class lie in the same intervals. -/
theorem isClass_of_mem_partition {xs : List Interval} :
    ∀ cls ∈ partition xs, IsClass xs cls := by
  have hpieces : ∀ cls ∈ pieces xs, IsClass xs cls := fun cls => isClass_of_mem_pieces
  rw [partition_eq]
  generalize pieces xs = found at hpieces
  cases found with
  | nil => exact fun cls hcls => nomatch hcls
  | cons first rest =>
    obtain ⟨hfirst, hrest⟩ := List.forall_mem_cons.1 hpieces
    exact forall_mem_coalesceFrom (fun a b joined hjoined ha hb => ha.joined hb hjoined) hfirst hrest

/-- The classes cover what the intervals do. -/
theorem exists_mem_partition {xs : List Interval} {c : Char} (h : Covers xs c) :
    ∃ cls ∈ partition xs, c ∈ cls.1 := by
  have hpieces := exists_mem_pieces h
  rw [partition_eq]
  generalize pieces xs = found at hpieces
  cases found with
  | nil =>
    obtain ⟨cls, hcls, _⟩ := hpieces
    exact nomatch hcls
  | cons first rest =>
    rw [List.exists_mem_cons_iff] at hpieces
    refine exists_mem_coalesceFrom (fun a b joined hjoined hc => ?_) hpieces
    exact ((mem_of_joinClasses? hjoined).1 c).2 hc

end Interval

/-! ## Character classes -/

namespace CharClass

/-- The intervals of a class cover the characters that it stands for. -/
theorem covers_intervals {cls : CharClass} {c : Char} :
    Interval.Covers cls.intervals c ↔ cls.Stands c := by
  match cls with
  | char d => simp [Interval.Covers, intervals, Stands]
  | range i => simp [Interval.Covers, intervals, Stands]
  | any =>
    have hlt := c.ordinal.isLt
    have hfirst : Interval.all.first = 0 := rfl
    have hlast : Interval.all.last = Char.numCodePoints - 1 := by decide
    simp only [Interval.Covers, intervals, Stands, List.mem_singleton, exists_eq_left, iff_true]
    rw [Interval.mem_iff, hfirst, hlast]
    omega
  | set xs false => rfl
  | set xs true => exact Interval.covers_invert

theorem language_eq_words (cls : CharClass) : cls.language = cls.words := by
  ext w
  show (∃ c, w = [c] ∧ Interval.Covers cls.intervals c) ↔ ∃ c, w = [c] ∧ cls.Stands c
  simp only [covers_intervals]

end CharClass

end LexChart
