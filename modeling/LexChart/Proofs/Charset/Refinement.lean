import LexChart.Proofs.Charset.Invariance
import LexChart.Proofs.Charset.NormalForm
set_option autoImplicit false

/-!
# The coarsest refinement of a list of intervals

A partition of a list of intervals cuts the characters that it covers into ascending classes, so that
the characters of a class lie in the same intervals and two classes of the same intervals do not
touch.  An interval whose characters all lie in the same intervals of the list is part of one class:
if the class of its first character ended inside it, the next character would begin a class of the
same intervals right behind.

So no partition could be coarser, there is only one, and `partition` computes it.
-/

namespace LexChart

/-- Positions that are picked out of a numbered list come in ascending order. -/
theorem pairwise_filterMap_zipIdx {α : Type} {pick : α × Nat → Option Nat} (xs : List α)
    (h : ∀ entry k, pick entry = some k → k = entry.2) :
    (xs.zipIdx.filterMap pick).Pairwise (· < ·) := by
  have hpositions : xs.zipIdx.Pairwise fun a b => a.2 < b.2 := by
    rw [← List.pairwise_map (f := Prod.snd) (R := (· < ·)), List.zipIdx_map_snd]
    exact List.pairwise_lt_range'
  refine List.pairwise_filterMap.2 (hpositions.imp fun {a b} hab k hk l hl => ?_)
  rw [h a k hk, h b l hl]
  exact hab

namespace Interval

variable {xs : List Interval} {classes : List (Interval × List Nat)}

/-- The classes of a list of intervals: ascending and disjoint, over the characters that the list
covers.  Each comes with the positions of the intervals that its characters lie in, in ascending
order, and there are characters between two classes that come with the same positions. -/
structure IsPartition (xs : List Interval) (classes : List (Interval × List Nat)) : Prop where
  ascending : classes.Pairwise fun a b => a.1.hi < b.1.lo
  covers : ∀ c, (∃ cls ∈ classes, c ∈ cls.1) ↔ Covers xs c
  sorted : ∀ cls ∈ classes, cls.2.Pairwise (· < ·)
  nonempty : ∀ cls ∈ classes, cls.2 ≠ []
  positions : ∀ cls ∈ classes, ∀ c ∈ cls.1, ∀ k, k ∈ cls.2 ↔ ∃ i, xs[k]? = some i ∧ c ∈ i
  apart : classes.Pairwise fun a b => a.2 = b.2 → ∃ c, a.1.hi < c ∧ c < b.1.lo

theorem precedes_iff {a b : Interval × List Nat} : Precedes a b ↔ a.1.hi < b.1.lo :=
  Char.lt_iff_ordinal_lt.symm

theorem sorted_positions (xs : List Interval) (c : Char) :
    (positions xs.zipIdx c).Pairwise (· < ·) := by
  refine pairwise_filterMap_zipIdx xs fun entry k hk => ?_
  dsimp only at hk
  split at hk
  · exact (Option.some.inj hk).symm
  · cases hk

/-- The classes that are computed are a partition. -/
theorem isPartition_partition (xs : List Interval) : IsPartition xs (partition xs) where
  ascending := (pairwise_partition xs).imp precedes_iff.1
  covers c := by
    refine ⟨fun ⟨cls, hcls, hc⟩ => ?_, exists_mem_partition⟩
    obtain ⟨hnonempty, hpositions⟩ := isClass_of_mem_partition cls hcls
    by_contra hcovers
    rw [← hpositions c hc, Ne, positions_eq_nil_iff] at hnonempty
    exact hnonempty hcovers
  sorted cls hcls := by
    rw [← (isClass_of_mem_partition cls hcls).2 _ cls.1.lo_mem]
    exact sorted_positions xs cls.1.lo
  nonempty cls hcls := (isClass_of_mem_partition cls hcls).1
  positions cls hcls c hc k := by
    rw [← (isClass_of_mem_partition cls hcls).2 c hc]
    exact mem_positions
  apart := (pairwise_separate_partition xs).imp fun hab hsame => apart_iff.1 (hab.2 hsame)

/-! ## No partition is coarser -/

/-- All characters of an interval lie in the intervals of the list that its first one lies in. -/
def Uniform (xs : List Interval) (i : Interval) : Prop := ∀ c ∈ i, ∀ x ∈ xs, c ∈ x ↔ i.lo ∈ x

namespace IsPartition

variable (h : IsPartition xs classes)
include h

/-- Of two classes one comes before the other. -/
theorem separate {a b : Interval × List Nat} (ha : a ∈ classes) (hb : b ∈ classes) (hne : a ≠ b) :
    Separate a b ∨ Separate b a := by
  have hpairs : classes.Pairwise Separate := (h.ascending.and h.apart).imp fun {a b} hab =>
    ⟨precedes_iff.2 hab.1, fun hsame => apart_iff.2 (hab.2 hsame)⟩
  have hall := List.Pairwise.forall_of_forall_of_flip
    (R := fun a b => a ≠ b → Separate a b ∨ Separate b a) (fun _ _ hne => absurd rfl hne)
    (hpairs.imp fun hab _ => .inl hab) (hpairs.imp fun hab _ => .inr hab)
  exact hall ha hb hne

/-- A character lies in one class only. -/
theorem eq_of_mem {a b : Interval × List Nat} (ha : a ∈ classes) (hb : b ∈ classes) {c : Char}
    (hca : c ∈ a.1) (hcb : c ∈ b.1) : a = b := by
  by_contra hne
  rw [mem_iff] at hca hcb
  rcases h.separate ha hb hne with ⟨hlt, -⟩ | ⟨hlt, -⟩ <;>
  · unfold Precedes at hlt
    omega

/-- Characters that lie in the same intervals have classes with the same positions. -/
theorem positions_eq {classes' : List (Interval × List Nat)} (h' : IsPartition xs classes')
    {a b : Interval × List Nat} (ha : a ∈ classes) (hb : b ∈ classes') {c d : Char} (hc : c ∈ a.1)
    (hd : d ∈ b.1) (hsame : ∀ x ∈ xs, c ∈ x ↔ d ∈ x) : a.2 = b.2 := by
  refine eq_of_ascending (h.sorted a ha) (h'.sorted b hb) fun k => ?_
  rw [h.positions a ha c hc, h'.positions b hb d hd]
  exact exists_congr fun i => and_congr_right fun hi => hsame i (List.mem_of_getElem? hi)

theorem uniform_of_mem {cls : Interval × List Nat} (hcls : cls ∈ classes) : Uniform xs cls.1 := by
  intro c hc x hx
  obtain ⟨k, hk⟩ := List.mem_iff_getElem?.1 hx
  have hmem : ∀ d ∈ cls.1, k ∈ cls.2 ↔ d ∈ x := fun d hd => by
    rw [h.positions cls hcls d hd, hk]
    simp
  rw [← hmem c hc, hmem _ cls.1.lo_mem]

/-- An interval of characters that lie in the same intervals is part of a class. -/
theorem exists_class_of_uniform {i : Interval} (hcovers : Covers xs i.lo) (huniform : Uniform xs i) :
    ∃ cls ∈ classes, ∀ c ∈ i, c ∈ cls.1 := by
  obtain ⟨cls, hcls, hlo⟩ := (h.covers i.lo).2 hcovers
  have hlo_ordinal : i.lo.ordinal.val = i.first := rfl
  have hcls_ends := (mem_iff _ _).1 hlo
  refine ⟨cls, hcls, fun c hc => ?_⟩
  by_contra hnot
  rw [mem_iff] at hc hnot
  -- Otherwise the class ends inside the interval, and the character behind it begins another one.
  obtain ⟨d, hd, hd_ordinal⟩ :=
    exists_mem_of_ordinal (i := i) (n := cls.1.last + 1) (by omega) (by omega)
  obtain ⟨x, hx, hlo_x⟩ := hcovers
  obtain ⟨next, hnext, hd_next⟩ := (h.covers d).2 ⟨x, hx, (huniform d hd x hx).2 hlo_x⟩
  have hsame : cls.2 = next.2 := h.positions_eq h hcls hnext hlo hd_next fun x hx =>
    (huniform d hd x hx).symm
  have hne : cls ≠ next := by
    rintro rfl
    rw [mem_iff] at hd_next
    omega
  rw [mem_iff] at hd_next
  rcases h.separate hcls hnext hne with ⟨-, hapart⟩ | ⟨hbefore, -⟩
  · have hgap := hapart hsame
    unfold Apart at hgap
    omega
  · unfold Precedes at hbefore
    omega

/-- Every class of a partition is a class of any other one. -/
theorem subset {classes' : List (Interval × List Nat)} (h' : IsPartition xs classes') :
    classes ⊆ classes' := by
  intro cls hcls
  have hcovers : Covers xs cls.1.lo := (h.covers _).1 ⟨cls, hcls, cls.1.lo_mem⟩
  obtain ⟨cls', hcls', hpart⟩ := h'.exists_class_of_uniform hcovers (h.uniform_of_mem hcls)
  have hcovers' : Covers xs cls'.1.lo := (h'.covers _).1 ⟨cls', hcls', cls'.1.lo_mem⟩
  obtain ⟨whole, hwhole, hpart'⟩ :=
    h.exists_class_of_uniform hcovers' (h'.uniform_of_mem hcls')
  obtain rfl : cls = whole :=
    h.eq_of_mem hcls hwhole cls.1.lo_mem (hpart' _ (hpart _ cls.1.lo_mem))
  have hinterval : cls.1 = cls'.1 := eq_of_mem_iff fun c => ⟨hpart c, hpart' c⟩
  have hpositions : cls.2 = cls'.2 :=
    h.positions_eq h' hcls hcls' cls.1.lo_mem (hpart _ cls.1.lo_mem) fun _ _ => Iff.rfl
  rw [show cls = cls' from Prod.ext hinterval hpositions]
  exact hcls'

/-- A list of intervals has one partition. -/
theorem unique {classes' : List (Interval × List Nat)} (h' : IsPartition xs classes') :
    classes = classes' := by
  have hnodup : ∀ {classes}, IsPartition xs classes → classes.Nodup := fun h =>
    h.ascending.imp fun {a b} hlt heq => by
      have hle := b.1.first_le_last
      have hlt := precedes_iff.2 hlt
      unfold Precedes at hlt
      rw [heq] at hlt
      omega
  have hperm : classes.Perm classes' := (List.perm_ext_iff_of_nodup (hnodup h) (hnodup h')).2
    fun cls => ⟨fun hcls => h.subset h' hcls, fun hcls => h'.subset h hcls⟩
  refine hperm.eq_of_pairwise (fun a b _ _ hab hba => ?_) h.ascending h'.ascending
  have hle := a.1.lo_le_hi
  have hle' := b.1.lo_le_hi
  exact absurd (Std.lt_of_lt_of_le hab (Char.le_trans hle' (Std.le_of_lt hba))) (by simpa using hle)

end IsPartition

/-- The classes that are computed are the only partition of the list.  An interval is part of one of
them exactly if its characters are covered and lie in the same intervals of the list.  Computed on
code points, which have to step over the surrogates, they are the same and always exist. -/
theorem partition_coarsest (xs : List Interval) :
    (∀ classes, IsPartition xs classes ↔ classes = partition xs) ∧
    (∀ i : Interval, (∃ cls ∈ partition xs, ∀ c ∈ i, c ∈ cls.1) ↔
      Covers xs i.lo ∧ Uniform xs i) ∧
    Checked.partition xs = some (partition xs) := by
  have h := isPartition_partition xs
  refine ⟨fun classes => ⟨fun h' => h'.unique h, fun heq => heq ▸ h⟩, fun i => ⟨?_, ?_⟩,
    Checked.partition_eq xs⟩
  · rintro ⟨cls, hcls, hpart⟩
    refine ⟨(h.covers _).1 ⟨cls, hcls, hpart _ i.lo_mem⟩, fun c hc x hx => ?_⟩
    rw [h.uniform_of_mem hcls c (hpart c hc) x hx,
      h.uniform_of_mem hcls i.lo (hpart _ i.lo_mem) x hx]
  · rintro ⟨hcovers, huniform⟩
    exact h.exists_class_of_uniform hcovers huniform

/-- Two intervals that overlap, and a character in the first of them. -/
example : partition [⟨'a', 'm', by decide⟩, ⟨'f', 'z', by decide⟩, .single 'b'] =
    [(.single 'a', [0]), (.single 'b', [0, 2]), (⟨'c', 'e', by decide⟩, [0]),
      (⟨'f', 'm', by decide⟩, [0, 1]), (⟨'n', 'z', by decide⟩, [1])] := by decide

end Interval

end LexChart
