import LexChart.Proofs.Checked.CodePoints
set_option autoImplicit false

/-!
# Normal forms of character sets

Intervals that lie apart are determined by the characters that they cover: the first one begins at
the smallest character, ends before the first gap, and the others cover what is left.  Both
`normalize` and `invert` give such intervals.  So two lists that cover the same characters have the
same normal form, a complement is in normal form already, and the complement of a complement is the
normal form of the list.

Characters are neighbours by their ordinals, so the two sides of the surrogates are not apart.  On
code points, where they are, complements are computed to the same intervals.
-/

namespace LexChart

namespace Interval

/-! ## Intervals apart -/

theorem lo_mem (i : Interval) : i.lo ∈ i := ⟨Char.le_refl i.lo, i.lo_le_hi⟩

theorem hi_mem (i : Interval) : i.hi ∈ i := ⟨i.lo_le_hi, Char.le_refl i.hi⟩

/-- Every number between the ends of an interval is the ordinal of one of its characters. -/
theorem exists_mem_of_ordinal {i : Interval} {n : Nat} (hfirst : i.first ≤ n) (hlast : n ≤ i.last) :
    ∃ c ∈ i, c.ordinal.val = n := by
  have hlt := i.last_lt
  refine ⟨Char.ofOrdinal ⟨n, by omega⟩, (mem_iff _ i).2 ?_, ?_⟩
  · rw [Char.ordinal_ofOrdinal]
    exact ⟨hfirst, hlast⟩
  · rw [Char.ordinal_ofOrdinal]

/-- The first interval stands before the second, they share no character and are not neighbours:
there is a character between them. -/
structure Parted (a b : Interval) : Prop where
  lt : a < b
  disjoint : ∀ c, ¬ (c ∈ a ∧ c ∈ b)
  not_adjacent : a.isAdjacent b = false
  between : ∃ c, a.hi < c ∧ c < b.lo

theorem apart_iff {a b : Interval} : Apart a b ↔ ∃ c, a.hi < c ∧ c < b.lo := by
  simp only [Apart, Char.lt_iff_ordinal_lt, Fin.lt_def]
  constructor
  · intro h
    have hlt := b.last_lt
    have hle := b.first_le_last
    refine ⟨Char.ofOrdinal ⟨a.last + 1, by omega⟩, ?_, ?_⟩
    · rw [Char.ordinal_ofOrdinal]
      exact Nat.lt_succ_self a.last
    · rw [Char.ordinal_ofOrdinal]
      exact h
  · rintro ⟨c, hbehind, hbefore⟩
    exact Nat.lt_of_le_of_lt hbehind hbefore

theorem Apart.parted {a b : Interval} (h : Apart a b) : Parted a b := by
  have ha := a.first_le_last
  have hb := b.first_le_last
  refine ⟨⟨?_, ?_⟩, ?_, ?_, apart_iff.1 h⟩ <;> unfold Apart at h
  · rw [le_iff]
    omega
  · rw [le_iff]
    omega
  · rintro c ⟨hca, hcb⟩
    rw [mem_iff] at hca hcb
    omega
  · rw [isAdjacent, decide_eq_false_iff_not]
    omega

/-! ## Intervals apart are determined by their characters -/

section

variable {a b : Interval} {xs ys : List Interval}

theorem covers_cons {c : Char} : Covers (a :: xs) c ↔ c ∈ a ∨ Covers xs c := by
  simp only [Covers, List.exists_mem_cons_iff]

/-- Intervals behind another one cover no character up to the one right behind it. -/
theorem lt_of_covers (hapart : ∀ x ∈ xs, Apart a x) {c : Char} (h : Covers xs c) :
    a.last + 1 < c.ordinal.val := by
  obtain ⟨x, hx, hc⟩ := h
  have hlt := hapart x hx
  unfold Apart at hlt
  rw [mem_iff] at hc
  omega

/-- The other intervals cover what the first one does not hold. -/
theorem covers_tail_iff (hapart : ∀ x ∈ xs, Apart a x) {c : Char} :
    Covers xs c ↔ Covers (a :: xs) c ∧ c ∉ a := by
  rw [covers_cons]
  refine ⟨fun hc => ⟨.inr hc, fun hmem => ?_⟩, fun hc => hc.1.resolve_left hc.2⟩
  have := lt_of_covers hapart hc
  rw [mem_iff] at hmem
  omega

/-- The first interval begins no later than any other covering. -/
theorem first_le_of_covers (hapart : ∀ x ∈ xs, Apart a x) (h : Covers (a :: xs) b.lo) :
    a.first ≤ b.first := by
  have hle := a.first_le_last
  have hlo : b.lo.ordinal.val = b.first := rfl
  rcases covers_cons.1 h with hmem | hrest
  · rw [mem_iff] at hmem
    omega
  · have := lt_of_covers hapart hrest
    omega

/-- The first interval of a covering that begins with it holds the whole of another interval. -/
theorem last_le_of_covers (hapart : ∀ x ∈ xs, Apart a x) (hfirst : a.first = b.first)
    (h : ∀ c ∈ b, Covers (a :: xs) c) : b.last ≤ a.last := by
  by_contra hlt
  have hle := a.first_le_last
  obtain ⟨c, hc, hordinal⟩ := exists_mem_of_ordinal (i := b) (n := a.last + 1) (by omega) (by omega)
  rcases covers_cons.1 (h c hc) with hmem | hrest
  · rw [mem_iff] at hmem
    omega
  · have := lt_of_covers hapart hrest
    omega

/-- Intervals that lie apart and cover the same characters are the same. -/
theorem eq_of_covers_iff (hxs : xs.Pairwise Apart) (hys : ys.Pairwise Apart)
    (h : ∀ c, Covers xs c ↔ Covers ys c) : xs = ys := by
  induction xs generalizing ys with
  | nil =>
    cases ys with
    | nil => rfl
    | cons b ys =>
      obtain ⟨_, hmem, _⟩ := (h b.lo).2 (covers_cons.2 (.inl b.lo_mem))
      exact nomatch hmem
  | cons a xs ih =>
    cases ys with
    | nil =>
      obtain ⟨_, hmem, _⟩ := (h a.lo).1 (covers_cons.2 (.inl a.lo_mem))
      exact nomatch hmem
    | cons b ys =>
      obtain ⟨ha, hxsTail⟩ := List.pairwise_cons.1 hxs
      obtain ⟨hb, hysTail⟩ := List.pairwise_cons.1 hys
      have hleft : ∀ c ∈ a, Covers (b :: ys) c := fun c hc => (h c).1 (covers_cons.2 (.inl hc))
      have hright : ∀ c ∈ b, Covers (a :: xs) c := fun c hc => (h c).2 (covers_cons.2 (.inl hc))
      have hfirst : a.first = b.first :=
        Nat.le_antisymm (first_le_of_covers ha (hright _ b.lo_mem))
          (first_le_of_covers hb (hleft _ a.lo_mem))
      have hlast : a.last = b.last :=
        Nat.le_antisymm (last_le_of_covers hb hfirst.symm hleft)
          (last_le_of_covers ha hfirst hright)
      obtain rfl : a = b := ext hfirst hlast
      have hrest : xs = ys := ih hxsTail hysTail fun c => by
        rw [covers_tail_iff ha, covers_tail_iff hb, h]
      rw [hrest]

/-- Intervals with the same characters are the same. -/
theorem eq_of_mem_iff {a b : Interval} (h : ∀ c, c ∈ a ↔ c ∈ b) : a = b := by
  have hcovers : ∀ c, Covers [a] c ↔ Covers [b] c := by simpa [Covers] using h
  have heq := eq_of_covers_iff (List.pairwise_singleton _ a) (List.pairwise_singleton _ b) hcovers
  exact (List.cons.inj heq).1

end

/-! ## Complements lie apart -/

/-- The gap before an interval, if there is one, ends right before it. -/
theorem ends_of_mem_gap {next : Nat} {i gap : Interval}
    (h : gap ∈ if next < i.first then (ofOrdinals? next (i.first - 1)).toList else []) :
    gap.first = next ∧ gap.last + 1 = i.first := by
  split at h
  · obtain ⟨hfirst, hlast⟩ := first_ofOrdinals (Option.mem_toList.1 h)
    exact ⟨hfirst, by omega⟩
  · exact nomatch h

/-- Gaps begin at the number from which they are sought or later. -/
theorem le_first_of_mem_gapsFrom {xs : List Interval} {next : Nat}
    (hnext : ∀ i ∈ xs, next ≤ i.first) (hxs : xs.Pairwise Apart) {gap : Interval}
    (h : gap ∈ gapsFrom next xs) : next ≤ gap.first := by
  induction xs generalizing next with
  | nil =>
    rw [gapsFrom] at h
    exact Nat.le_of_eq (first_ofOrdinals (Option.mem_toList.1 h)).1.symm
  | cons i rest ih =>
    obtain ⟨hi, hrest⟩ := List.pairwise_cons.1 hxs
    rcases List.mem_append.1 h with h | h
    · exact Nat.le_of_eq (ends_of_mem_gap h).1.symm
    · have hle := i.first_le_last
      have hbehind := ih (fun j hj => Nat.le_of_lt (hi j hj)) hrest h
      have := hnext i List.mem_cons_self
      omega

/-- An interval lies between any two gaps. -/
theorem pairwise_gapsFrom {xs : List Interval} (hxs : xs.Pairwise Apart) (next : Nat) :
    (gapsFrom next xs).Pairwise Apart := by
  induction xs generalizing next with
  | nil =>
    rw [gapsFrom]
    cases ofOrdinals? next (Char.numCodePoints - 1) with
    | none => exact .nil
    | some gap => exact List.pairwise_singleton Apart gap
  | cons i rest ih =>
    obtain ⟨hi, hrest⟩ := List.pairwise_cons.1 hxs
    rw [gapsFrom, List.pairwise_append]
    refine ⟨?_, ih hrest _, fun gap hgap gap' hgap' => ?_⟩
    · split
      · cases ofOrdinals? next (i.first - 1) with
        | none => exact .nil
        | some gap => exact List.pairwise_singleton Apart gap
      · exact .nil
    · obtain ⟨hfirst, hlast⟩ := ends_of_mem_gap hgap
      have hbehind := le_first_of_mem_gapsFrom (fun j hj => Nat.le_of_lt (hi j hj)) hrest hgap'
      have := gap.first_le_last
      have := i.first_le_last
      unfold Apart
      omega

theorem pairwise_invert (xs : List Interval) : (invert xs).Pairwise Apart :=
  pairwise_gapsFrom (pairwise_normalize xs) 0

/-! ## Normal forms -/

/-- Two lists have the same normal form exactly if they cover the same characters. -/
theorem normalize_eq_iff {xs ys : List Interval} :
    normalize xs = normalize ys ↔ ∀ c, Covers xs c ↔ Covers ys c := by
  constructor
  · intro h c
    rw [← covers_normalize, h, covers_normalize]
  · intro h
    refine eq_of_covers_iff (pairwise_normalize xs) (pairwise_normalize ys) fun c => ?_
    rw [covers_normalize, covers_normalize, h]

/-- Intervals that lie apart are their own normal form. -/
theorem normalize_eq_self {xs : List Interval} (h : xs.Pairwise Apart) : normalize xs = xs :=
  eq_of_covers_iff (pairwise_normalize xs) h fun _ => covers_normalize

/-- The complement of one list is the normal form of another one exactly if that list covers the
other characters. -/
theorem normalize_eq_invert_iff {xs ys : List Interval} :
    normalize ys = invert xs ↔ ∀ c, Covers ys c ↔ ¬ Covers xs c := by
  rw [← normalize_eq_self (pairwise_invert xs), normalize_eq_iff]
  simp only [covers_invert]

end Interval

/-! ## Normal forms on code points -/

namespace Checked

/-- `Interval.isAdjacent` on code points. -/
def isAdjacent (a b : Interval) : Bool :=
  succ a.hi.toNat = b.lo.toNat ∨ succ b.hi.toNat = a.lo.toNat

/-- `Interval.merge?` on code points. -/
def merge? (a b : Interval) : Option Interval :=
  if a.overlaps b || isAdjacent a b then some (Interval.hull a b) else none

/-- `Interval.normalize` on code points.  Intervals that stand in the list more than once are kept
by sorting, and merged with themselves. -/
def normalize (xs : List Interval) : List Interval :=
  coalesce merge? (xs.mergeSort fun a b => decide (a ≤ b))

/-- Neighbours by their ordinals are neighbours by their code points. -/
theorem isAdjacent_eq (a b : Interval) : isAdjacent a b = a.isAdjacent b := by
  have hinj : ∀ m n : Nat, codePoint m = codePoint n ↔ m = n := by
    intro m n
    have hlt := @codePoint_lt_iff m n
    have hgt := @codePoint_lt_iff n m
    omega
  simp only [isAdjacent, Interval.isAdjacent, toNat_hi, toNat_lo, succ_codePoint, hinj]

theorem merge?_eq (a b : Interval) : merge? a b = a.merge? b := by
  rw [merge?, isAdjacent_eq, Interval.merge?]

/-- The normal form is the same on code points. -/
theorem normalize_eq (xs : List Interval) : normalize xs = Interval.normalize xs := by
  have hmerge : merge? = Interval.merge? := funext fun a => funext fun b => merge?_eq a b
  have hsorted : (xs.mergeSort fun a b => decide (a ≤ b)).Pairwise fun a b => a.first ≤ b.first := by
    refine (List.pairwise_mergeSort ?_ ?_ xs).imp fun {a b} hab => ?_
    · intro a b c hab hbc
      exact decide_eq_true (Std.le_trans (of_decide_eq_true hab) (of_decide_eq_true hbc))
    · intro a b
      simpa using Std.le_total (a := a) (b := b)
    · have hle := Interval.le_iff.1 (of_decide_eq_true hab)
      omega
  rw [normalize, hmerge]
  refine Interval.eq_of_covers_iff (Interval.pairwise_coalesce hsorted)
    (Interval.pairwise_normalize xs) fun c => ?_
  rw [Interval.covers_coalesce, Interval.covers_normalize]
  simp only [Interval.Covers, List.mem_mergeSort]

end Checked

namespace Interval

/-- The normal form of a list covers the same characters with ascending intervals, any two of which
have a character between them, and it is the only one for these characters.  The complement is the
normal form of the other characters, so that nothing changes in it when it is normalized, and its
own complement is the normal form of the list.  Computed on code points, which have to step over the
surrogates, both are the same and always exist. -/
theorem normal_forms_canonical (xs : List Interval) :
    (normalize xs).Pairwise Parted ∧
    (∀ c, Covers (normalize xs) c ↔ Covers xs c) ∧
    (∀ ys, normalize xs = normalize ys ↔ ∀ c, Covers xs c ↔ Covers ys c) ∧
    (∀ c, Covers (invert xs) c ↔ ¬ Covers xs c) ∧
    (∀ ys, normalize ys = invert xs ↔ ∀ c, Covers ys c ↔ ¬ Covers xs c) ∧
    normalize (invert xs) = invert xs ∧
    invert (invert xs) = normalize xs ∧
    Checked.normalize xs = normalize xs ∧
    Checked.invert xs = some (invert xs) := by
  have htwice : normalize xs = invert (invert xs) :=
    normalize_eq_invert_iff.2 fun c => by rw [covers_invert, not_not]
  exact ⟨(pairwise_normalize xs).imp Apart.parted, fun _ => covers_normalize,
    fun _ => normalize_eq_iff, fun _ => covers_invert, fun _ => normalize_eq_invert_iff,
    normalize_eq_self (pairwise_invert xs), htwice.symm, Checked.normalize_eq xs,
    Checked.invert_eq xs⟩

/-- The last character before the surrogates and the first one behind them make one interval. -/
example : normalize [.single (Char.ofNat 0xE000), .single (Char.ofNat 0xD7FF)] =
    [⟨Char.ofNat 0xD7FF, Char.ofNat 0xE000, by decide⟩] := by decide

end Interval

end LexChart
