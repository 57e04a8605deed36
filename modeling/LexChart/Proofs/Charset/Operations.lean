import LexChart.Proofs.Charset.NormalForm
import Mathlib.Data.Char
import Mathlib.Data.Set.Card
import Mathlib.Order.Interval.Finset.Nat
set_option autoImplicit false

/-!
# Operations on two intervals

Two intervals are intersected, joined and taken from each other by comparing their ends.  The
results are exact: an interval is determined by its characters, and each result holds the characters
that it should, `none` and the empty list standing for no characters at all.

The size of an interval is the number of its characters, so sizes add up where intervals share no
character.  On code points the surrogates have to be taken off where an interval runs across them.
-/

namespace LexChart

namespace Interval

variable {a b i : Interval}

/-! ## Intersections -/

theorem intersect?_eq (a b : Interval) :
    a.intersect? b = ofChars? (max a.lo b.lo) (min a.hi b.hi) := by
  rw [intersect?, max_def, min_def]

theorem mem_of_intersect? (h : a.intersect? b = some i) {c : Char} : c ∈ i ↔ c ∈ a ∧ c ∈ b := by
  rw [intersect?_eq, ofChars?] at h
  split at h
  · obtain rfl := Option.some.inj h
    show max a.lo b.lo ≤ c ∧ c ≤ min a.hi b.hi ↔ (a.lo ≤ c ∧ c ≤ a.hi) ∧ (b.lo ≤ c ∧ c ≤ b.hi)
    rw [max_le_iff, le_min_iff]
    exact and_and_and_comm
  · cases h

/-- There is no intersection exactly if there is no common character. -/
theorem intersect?_eq_none_iff : a.intersect? b = none ↔ ∀ c, ¬ (c ∈ a ∧ c ∈ b) := by
  constructor
  · rintro h c ⟨⟨halo, hahi⟩, ⟨hblo, hbhi⟩⟩
    rw [intersect?_eq, ofChars?, dif_pos] at h
    · cases h
    · exact (max_le halo hblo).trans (le_min hahi hbhi)
  · intro h
    cases hi : a.intersect? b with
    | none => rfl
    | some i => exact absurd ((mem_of_intersect? hi).1 i.lo_mem) (h i.lo)

/-- The intersection is the interval of the common characters. -/
theorem intersect?_eq_some_iff : a.intersect? b = some i ↔ ∀ c, c ∈ i ↔ c ∈ a ∧ c ∈ b := by
  refine ⟨fun h c => mem_of_intersect? h, fun h => ?_⟩
  cases hj : a.intersect? b with
  | none => exact absurd ((h i.lo).1 i.lo_mem) (intersect?_eq_none_iff.1 hj i.lo)
  | some j => rw [eq_of_mem_iff fun c => (mem_of_intersect? hj).trans (h c).symm]

/-! ## Unions -/

/-- The character lies strictly between the two intervals, whichever of them comes first. -/
def Between (a b : Interval) (c : Char) : Prop := a.hi < c ∧ c < b.lo ∨ b.hi < c ∧ c < a.lo

theorem exists_between_iff : (∃ c, Between a b c) ↔ Apart a b ∨ Apart b a := by
  simp only [Between, exists_or, apart_iff]

/-- Two intervals are merged unless a character lies between them. -/
theorem isSome_merge?_iff : (a.merge? b).isSome = true ↔ ∀ c, ¬ Between a b c := by
  have ha := a.first_le_last
  have hb := b.first_le_last
  have htouch : (a.overlaps b || a.isAdjacent b) = true ↔ ¬ (Apart a b ∨ Apart b a) := by
    rw [Bool.or_eq_true, overlaps_iff, isAdjacent, decide_eq_true_eq]
    unfold Apart
    omega
  rw [← not_exists, exists_between_iff, ← htouch, merge?]
  split <;> simp_all

/-- What lies between two intervals lies in every interval that holds both of them. -/
theorem mem_of_between {c : Char} (h : Between a b c) (hi : ∀ d, d ∈ a ∨ d ∈ b → d ∈ i) : c ∈ i := by
  rcases h with ⟨hbehind, hbefore⟩ | ⟨hbehind, hbefore⟩
  · exact ⟨(hi _ (.inl a.hi_mem)).1.trans hbehind.le, hbefore.le.trans (hi _ (.inr b.lo_mem)).2⟩
  · exact ⟨(hi _ (.inr b.hi_mem)).1.trans hbehind.le, hbefore.le.trans (hi _ (.inl a.lo_mem)).2⟩

theorem not_mem_of_between {c : Char} (h : Between a b c) : ¬ (c ∈ a ∨ c ∈ b) := by
  rintro (hc | hc) <;> rcases h with ⟨hbehind, hbefore⟩ | ⟨hbehind, hbefore⟩
  · exact absurd hc.2 hbehind.not_ge
  · exact absurd hc.1 hbefore.not_ge
  · exact absurd hc.1 hbefore.not_ge
  · exact absurd hc.2 hbehind.not_ge

/-- Two intervals are merged to the interval of all their characters, if there is one. -/
theorem merge?_eq_some_iff : a.merge? b = some i ↔ ∀ c, c ∈ i ↔ c ∈ a ∨ c ∈ b := by
  refine ⟨fun h c => mem_of_merge? h, fun h => ?_⟩
  have hsome : (a.merge? b).isSome = true := isSome_merge?_iff.2 fun c hc =>
    not_mem_of_between hc ((h c).1 (mem_of_between hc fun d => (h d).2))
  obtain ⟨j, hj⟩ := Option.isSome_iff_exists.1 hsome
  rw [hj, eq_of_mem_iff fun c => (mem_of_merge? hj).trans (h c).symm]

/-! ## Differences -/

/-- The characters from one ordinal up to the one before another. -/
def stretch (lo next : Nat) : List Interval :=
  if lo < next then (ofOrdinals? lo (next - 1)).toList else []

theorem stretch_cases (lo : Nat) {next : Nat} (h : next ≤ Char.numCodePoints) :
    stretch lo next = [] ∧ next ≤ lo ∨
      ∃ i, stretch lo next = [i] ∧ i.first = lo ∧ i.last + 1 = next := by
  unfold stretch
  split
  · rename_i hlt
    have hle : lo ≤ next - 1 ∧ next - 1 < Char.numCodePoints := by omega
    obtain ⟨i, hi⟩ : ∃ i, ofOrdinals? lo (next - 1) = some i := ⟨_, dif_pos hle⟩
    obtain ⟨hfirst, hlast⟩ := first_ofOrdinals hi
    exact .inr ⟨i, by rw [hi]; rfl, hfirst, by omega⟩
  · rename_i hge
    exact .inl ⟨rfl, Nat.not_lt.1 hge⟩

theorem minus_of_not_overlaps (h : ¬ a.overlaps b = true) : a.minus b = [a] := if_neg h

/-- What stands before `b`, and what stands behind it. -/
theorem minus_of_overlaps (h : a.overlaps b = true) :
    a.minus b = stretch a.first b.first ++ stretch (b.last + 1) (a.last + 1) := by
  unfold minus stretch
  simp only [if_pos h, Nat.add_lt_add_iff_right, Nat.add_sub_cancel]

theorem mem_stretch {lo next : Nat} (h : next ≤ Char.numCodePoints) {c : Char} :
    Covers (stretch lo next) c ↔ lo ≤ c.ordinal.val ∧ c.ordinal.val < next := by
  rcases stretch_cases lo h with ⟨heq, hle⟩ | ⟨i, heq, hfirst, hlast⟩
  · simp only [heq, Covers, List.not_mem_nil, false_and, exists_false, false_iff]
    omega
  · simp only [heq, Covers, List.mem_singleton, exists_eq_left, mem_iff]
    omega

/-- The difference holds the characters of the first interval that are not in the second. -/
theorem covers_minus {c : Char} : Covers (a.minus b) c ↔ c ∈ a ∧ c ∉ b := by
  have ha := mem_iff c a
  have hb := mem_iff c b
  by_cases h : a.overlaps b = true
  · have hfirst : b.first ≤ Char.numCodePoints := Nat.le_of_lt b.lo.ordinal.isLt
    have hlast : a.last + 1 ≤ Char.numCodePoints := a.last_lt
    have happend : Covers (a.minus b) c ↔
        Covers (stretch a.first b.first) c ∨ Covers (stretch (b.last + 1) (a.last + 1)) c := by
      simp only [minus_of_overlaps h, Covers, List.mem_append, or_and_right, exists_or]
    rw [overlaps_iff] at h
    rw [happend, mem_stretch hfirst, mem_stretch hlast, ha, hb]
    have := b.first_le_last
    omega
  · rw [minus_of_not_overlaps h]
    rw [overlaps_iff] at h
    simp only [Covers, List.mem_singleton, exists_eq_left, ha, hb]
    omega

/-- There are at most two pieces, and `b` stands between them. -/
theorem length_minus_le (a b : Interval) : (a.minus b).length ≤ 2 ∧ (a.minus b).Pairwise Parted := by
  by_cases h : a.overlaps b = true
  · have hfirst : b.first ≤ Char.numCodePoints := Nat.le_of_lt b.lo.ordinal.isLt
    have hlast : a.last + 1 ≤ Char.numCodePoints := a.last_lt
    have hb := b.first_le_last
    rw [minus_of_overlaps h]
    rcases stretch_cases a.first hfirst with ⟨hbefore, -⟩ | ⟨i, hbefore, -, hi⟩ <;>
      rcases stretch_cases (b.last + 1) hlast with ⟨hbehind, -⟩ | ⟨j, hbehind, hj, -⟩ <;>
      rw [hbefore, hbehind]
    · exact ⟨by simp, .nil⟩
    · exact ⟨by simp, List.pairwise_singleton _ j⟩
    · exact ⟨by simp, List.pairwise_singleton _ i⟩
    · have hparted : Parted i j := Apart.parted (by unfold Apart; omega)
      exact ⟨by simp, List.pairwise_pair.2 hparted⟩
  · rw [minus_of_not_overlaps h]
    exact ⟨by simp, List.pairwise_singleton _ a⟩

/-! ## Sizes -/

instance : Finite Char := .of_injective Char.ordinal Char.ordinal_injective

/-- The size is the number of characters. -/
theorem ncard_eq_size (i : Interval) : {c | c ∈ i}.ncard = i.size := by
  have hinj : Function.Injective fun c : Char => c.ordinal.val := fun c d h =>
    Char.ordinal_injective (Fin.ext h)
  have himage : (fun c : Char => c.ordinal.val) '' {c | c ∈ i} = Finset.Icc i.first i.last := by
    ext n
    simp only [Set.mem_image, Set.mem_ofPred_eq, Finset.coe_Icc, Set.mem_Icc]
    constructor
    · rintro ⟨c, hc, rfl⟩
      exact (mem_iff c i).1 hc
    · rintro ⟨hfirst, hlast⟩
      exact exists_mem_of_ordinal hfirst hlast
  rw [← Set.ncard_image_of_injective _ hinj, himage, Set.ncard_coe_finset, Nat.card_Icc, size]

/-- Intervals that share no character hold as many characters as their sizes add up to. -/
theorem ncard_covers {xs : List Interval} (h : xs.Pairwise fun a b => ∀ c, ¬ (c ∈ a ∧ c ∈ b)) :
    {c | Covers xs c}.ncard = (xs.map size).sum := by
  induction xs with
  | nil => simp [Covers]
  | cons i rest ih =>
    obtain ⟨hi, hrest⟩ := List.pairwise_cons.1 h
    have hunion : {c | Covers (i :: rest) c} = {c | c ∈ i} ∪ {c | Covers rest c} := by
      ext c
      exact covers_cons
    have hdisjoint : Disjoint {c | c ∈ i} {c | Covers rest c} := by
      refine Set.disjoint_left.2 fun c hc hcovers => ?_
      obtain ⟨j, hj, hcj⟩ := hcovers
      exact hi j hj c ⟨hc, hcj⟩
    rw [hunion, Set.ncard_union_eq hdisjoint, ncard_eq_size, ih hrest, List.map_cons, List.sum_cons]

/-- The size of an intersection, if there is one. -/
theorem ncard_inter (a b : Interval) :
    {c | c ∈ a ∧ c ∈ b}.ncard = (a.intersect? b).elim 0 size := by
  cases h : a.intersect? b with
  | none => simp [intersect?_eq_none_iff.1 h]
  | some i =>
    rw [Option.elim_some, ← ncard_eq_size]
    exact congrArg Set.ncard (Set.ext fun c => (mem_of_intersect? h).symm)

/-- An interval is as large as what it shares with another one and what it does not. -/
theorem size_eq_add (a b : Interval) :
    a.size = (a.intersect? b).elim 0 size + ((a.minus b).map size).sum := by
  have hdisjoint := (length_minus_le a b).2.imp Parted.disjoint
  have hdiff : {c | Covers (a.minus b) c} = {c | c ∈ a} \ {c | c ∈ b} := by
    ext c
    exact covers_minus
  rw [← ncard_covers hdisjoint, ← ncard_inter, hdiff, ← ncard_eq_size]
  exact (Set.ncard_inter_add_ncard_sdiff_eq_ncard {c | c ∈ a} {c | c ∈ b}).symm

end Interval

/-! ## Sizes on code points -/

namespace Checked

/-- The difference of two numbers, if it is not below zero. -/
def sub (m n : Nat) : Option Nat := if n ≤ m then some (m - n) else none

/-- `Interval.size` on code points.  The surrogates are taken off if they lie between the ends. -/
def size (i : Interval) : Option Nat := do
  let lo := i.lo.toNat
  let hi := i.hi.toNat
  let gap := if lo < gapStart ∧ gapEnd ≤ hi then gapEnd - gapStart else 0
  let distance ← sub hi lo
  sub (distance + 1) gap

theorem sub_of_le {m n : Nat} (h : n ≤ m) : sub m n = some (m - n) := if_pos h

/-- Sizes exist. -/
theorem size_eq (i : Interval) : size i = some i.size := by
  have hle := i.first_le_last
  have hcodes : codePoint i.first ≤ codePoint i.last := by
    rw [← Nat.not_lt, codePoint_lt_iff]
    omega
  unfold size Interval.size gapStart gapEnd
  dsimp only
  rw [toNat_lo, toNat_hi, sub_of_le hcodes, Option.bind_eq_bind, Option.bind_some]
  -- The interval stands before the surrogates, runs across them or stands behind them.
  rcases Nat.lt_or_ge i.last 0xD800 with hlast | hlast
  · rw [codePoint_of_lt hlast, codePoint_of_lt (by omega), if_neg (by omega)]
    refine (sub_of_le (Nat.zero_le _)).trans (congrArg some ?_)
    omega
  · rcases Nat.lt_or_ge i.first 0xD800 with hfirst | hfirst
    · rw [codePoint_of_le hlast, codePoint_of_lt hfirst, if_pos (by omega)]
      refine (sub_of_le (by omega)).trans (congrArg some ?_)
      omega
    · rw [codePoint_of_le hlast, codePoint_of_le hfirst, if_neg (by omega)]
      refine (sub_of_le (Nat.zero_le _)).trans (congrArg some ?_)
      omega

end Checked

namespace Interval

/-- Intersections hold exactly the common characters, merged intervals exactly those of both, unless
a character lies between them, and differences exactly those of the first that are not in the
second, in at most two pieces apart from each other.  Sizes are numbers of characters, and the size
of an interval is that of its intersection and its difference with another one.  Computed on code
points, which have to step over the surrogates, all of this is the same and always exists. -/
theorem operations_exact (a b : Interval) :
    (∀ i, a.intersect? b = some i ↔ ∀ c, c ∈ i ↔ c ∈ a ∧ c ∈ b) ∧
    (a.intersect? b = none ↔ ∀ c, ¬ (c ∈ a ∧ c ∈ b)) ∧
    (∀ i, a.merge? b = some i ↔ ∀ c, c ∈ i ↔ c ∈ a ∨ c ∈ b) ∧
    ((a.merge? b).isSome = true ↔ ∀ c, ¬ Between a b c) ∧
    Checked.merge? a b = a.merge? b ∧
    (a.minus b).length ≤ 2 ∧ (a.minus b).Pairwise Parted ∧
    (∀ c, Covers (a.minus b) c ↔ c ∈ a ∧ c ∉ b) ∧
    Checked.minus a b = some (a.minus b) ∧
    {c | c ∈ a}.ncard = a.size ∧ Checked.size a = some a.size ∧
    a.size = (a.intersect? b).elim 0 size + ((a.minus b).map size).sum :=
  ⟨fun _ => intersect?_eq_some_iff, intersect?_eq_none_iff, fun _ => merge?_eq_some_iff,
    isSome_merge?_iff, Checked.merge?_eq a b, (length_minus_le a b).1, (length_minus_le a b).2,
    fun _ => covers_minus, Checked.minus_eq a b, ncard_eq_size a, Checked.size_eq a,
    size_eq_add a b⟩

/-- Without the first character behind the surrogates, an interval across them is in two pieces. -/
example : (⟨'a', Char.ofNat 0xE001, by decide⟩ : Interval).minus (.single (Char.ofNat 0xE000)) =
    [⟨'a', Char.ofNat 0xD7FF, by decide⟩, .single (Char.ofNat 0xE001)] := by decide

end Interval

end LexChart
