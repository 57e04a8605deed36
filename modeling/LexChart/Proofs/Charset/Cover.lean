import LexChart.Charset.CharClass
import Mathlib.Data.List.Basic
import Mathlib.Order.Basic
set_option autoImplicit false

/-!
# Sets of characters as intervals

Lists of intervals are joined from left to right by `coalesce`.  Three lemmas about it say what the
joined list inherits: a property of all elements, one of some element, and an order between any two.

From them follow the two uses of it.  `normalize` covers the same characters with intervals that lie
apart, so that `invert` covers exactly the others.  The classes of `partition` cover the same
characters, and all characters of a class lie in the same intervals of the list.
-/

namespace LexChart

/-! ## Joining neighbours -/

section

variable {α : Type} {join? : α → α → Option α} {current : α} {rest : List α}

/-- A property that joining keeps holds of the joined list. -/
theorem forall_mem_coalesceFrom {p : α → Prop}
    (hjoin : ∀ a b c, join? a b = some c → p a → p b → p c) (hcurrent : p current)
    (hrest : ∀ a ∈ rest, p a) : ∀ a ∈ coalesceFrom join? current rest, p a := by
  induction rest generalizing current with
  | nil =>
    intro a ha
    rwa [List.mem_singleton.1 ha]
  | cons next rest ih =>
    obtain ⟨hnext, hrest⟩ := List.forall_mem_cons.1 hrest
    rw [coalesceFrom]
    split
    · rename_i joined hjoined
      exact ih (hjoin _ _ _ hjoined hcurrent hnext) hrest
    · exact List.forall_mem_cons.2 ⟨hcurrent, ih hnext hrest⟩

/-- What one of two elements has, and the element that they are joined to, is not lost. -/
theorem exists_mem_coalesceFrom {p : α → Prop}
    (hjoin : ∀ a b c, join? a b = some c → p a ∨ p b → p c)
    (h : p current ∨ ∃ a ∈ rest, p a) : ∃ a ∈ coalesceFrom join? current rest, p a := by
  induction rest generalizing current with
  | nil =>
    rcases h with h | ⟨_, ha, _⟩
    · exact ⟨current, List.mem_singleton_self _, h⟩
    · exact nomatch ha
  | cons next rest ih =>
    rw [List.exists_mem_cons_iff] at h
    rw [coalesceFrom]
    split
    · rename_i joined hjoined
      rcases h with h | h | h
      · exact ih (.inl (hjoin _ _ _ hjoined (.inl h)))
      · exact ih (.inl (hjoin _ _ _ hjoined (.inr h)))
      · exact ih (.inr h)
    · rcases h with h | h
      · exact ⟨current, List.mem_cons_self, h⟩
      · obtain ⟨a, ha, hpa⟩ := ih h
        exact ⟨a, List.mem_cons_of_mem current ha, hpa⟩

/-- Elements in an order `r` are joined to elements in an order `s` if neighbours that are not
joined are in the order `s`. -/
theorem pairwise_coalesceFrom {r s : α → α → Prop}
    (hleft : ∀ a b c x, join? a b = some c → r a x → r b x → r c x)
    (hright : ∀ a b c x, join? a b = some c → s x a → s x b → s x c)
    (hapart : ∀ a b, r a b → join? a b = none → s a b)
    (htrans : ∀ a b x, s a b → r b x → s a x)
    (hcurrent : ∀ a ∈ rest, r current a) (hrest : rest.Pairwise r) :
    (coalesceFrom join? current rest).Pairwise s := by
  induction rest generalizing current with
  | nil => exact List.pairwise_singleton s current
  | cons next rest ih =>
    obtain ⟨hnext, hrest⟩ := List.pairwise_cons.1 hrest
    rw [coalesceFrom]
    split
    · rename_i joined hjoined
      refine ih (fun a ha => hleft _ _ _ _ hjoined ?_ (hnext a ha)) hrest
      exact hcurrent a (List.mem_cons_of_mem next ha)
    · rename_i hnone
      have hs : s current next := hapart _ _ (hcurrent next List.mem_cons_self) hnone
      refine List.pairwise_cons.2 ⟨?_, ih hnext hrest⟩
      exact forall_mem_coalesceFrom (fun a b c => hright a b c current) hs
        fun a ha => htrans _ _ _ hs (hnext a ha)

end

namespace Interval

/-! ## Ends of intervals -/

@[ext] theorem ext {a b : Interval} (hfirst : a.first = b.first) (hlast : a.last = b.last) :
    a = b := by
  obtain ⟨alo, ahi, _⟩ := a
  obtain ⟨blo, bhi, _⟩ := b
  have hlo : alo = blo := Char.ordinal_injective (Fin.ext hfirst)
  have hhi : ahi = bhi := Char.ordinal_injective (Fin.ext hlast)
  subst hlo hhi
  rfl

theorem le_iff {a b : Interval} :
    a ≤ b ↔ a.first < b.first ∨ (a.first = b.first ∧ a.last ≤ b.last) := Iff.rfl

instance : LT Interval := ⟨fun a b => a ≤ b ∧ ¬ b ≤ a⟩

instance : Std.LawfulOrderLT Interval := ⟨fun _ _ => Iff.rfl⟩

instance : Std.IsLinearOrder Interval :=
  Std.IsLinearOrder.of_le
    ⟨fun a b hab hba => by
      rw [le_iff] at hab hba
      exact ext (by omega) (by omega)⟩
    ⟨fun {a b c} hab hbc => by
      rw [le_iff] at hab hbc ⊢
      omega⟩
    ⟨fun a b => by
      rw [le_iff, le_iff]
      omega⟩

theorem overlaps_iff {a b : Interval} :
    a.overlaps b = true ↔ a.first ≤ b.last ∧ b.first ≤ a.last := by
  simp only [overlaps, decide_eq_true_eq, Char.le_iff_ordinal_le]
  rfl

theorem first_hull (a b : Interval) : (hull a b).first = min a.first b.first := by
  unfold hull first
  dsimp only
  split
  · rename_i h
    exact (Nat.min_eq_left (Char.le_iff_ordinal_le.1 h)).symm
  · rename_i h
    rw [Char.le_iff_ordinal_le] at h
    exact (Nat.min_eq_right (Nat.le_of_lt (Nat.lt_of_not_le h))).symm

theorem last_hull (a b : Interval) : (hull a b).last = max a.last b.last := by
  unfold hull last
  dsimp only
  split
  · rename_i h
    exact (Nat.max_eq_right (Char.le_iff_ordinal_le.1 h)).symm
  · rename_i h
    rw [Char.le_iff_ordinal_le] at h
    exact (Nat.max_eq_left (Nat.le_of_lt (Nat.lt_of_not_le h))).symm

/-- Two intervals that overlap or touch have no character between them. -/
theorem mem_hull {a b : Interval} (h : a.overlaps b = true ∨ a.isAdjacent b = true) {c : Char} :
    c ∈ hull a b ↔ c ∈ a ∨ c ∈ b := by
  have ha := a.first_le_last
  have hb := b.first_le_last
  rw [overlaps_iff, isAdjacent, decide_eq_true_eq] at h
  rw [mem_iff, mem_iff, mem_iff, first_hull, last_hull]
  omega

theorem mem_of_merge? {a b joined : Interval} (h : merge? a b = some joined) {c : Char} :
    c ∈ joined ↔ c ∈ a ∨ c ∈ b := by
  unfold merge? at h
  split at h
  · rename_i htouch
    obtain rfl := Option.some.inj h
    exact mem_hull (Bool.or_eq_true _ _ ▸ htouch)
  · cases h

/-- There are characters between the two intervals, and the first comes before them. -/
def Apart (a b : Interval) : Prop := a.last + 1 < b.first

theorem mem_ofOrdinals? (lo hi : Nat) (hhi : hi < Char.numCodePoints) (c : Char) :
    (∃ i, ofOrdinals? lo hi = some i ∧ c ∈ i) ↔ lo ≤ c.ordinal.val ∧ c.ordinal.val ≤ hi := by
  constructor
  · rintro ⟨i, hi, hc⟩
    obtain ⟨hfirst, hlast⟩ := first_ofOrdinals hi
    rwa [mem_iff, hfirst, hlast] at hc
  · intro hc
    have hle : lo ≤ hi ∧ hi < Char.numCodePoints := ⟨by omega, hhi⟩
    obtain ⟨i, hi⟩ : ∃ i, ofOrdinals? lo hi = some i := ⟨_, dif_pos hle⟩
    obtain ⟨hfirst, hlast⟩ := first_ofOrdinals hi
    exact ⟨i, hi, (mem_iff c i).2 (by rwa [hfirst, hlast])⟩

/-! ## Normal form and complement -/

/-- Merging neighbours keeps the characters that are covered. -/
theorem covers_coalesce {xs : List Interval} {c : Char} :
    Covers (coalesce merge? xs) c ↔ Covers xs c := by
  cases xs with
  | nil => rfl
  | cons first rest =>
    constructor
    · rintro ⟨i, hi, hc⟩
      refine forall_mem_coalesceFrom (p := fun i => ∀ c ∈ i, Covers (first :: rest) c)
        (fun a b joined hjoined ha hb c hc => ?_) ?_ ?_ i hi c hc
      · exact ((mem_of_merge? hjoined).1 hc).elim (ha c) (hb c)
      · exact fun c hc => ⟨first, List.mem_cons_self, hc⟩
      · exact fun i hi c hc => ⟨i, List.mem_cons_of_mem first hi, hc⟩
    · intro h
      refine exists_mem_coalesceFrom (fun a b joined hjoined hc => ?_) ?_
      · exact (mem_of_merge? hjoined).2 hc
      · rwa [Covers, List.exists_mem_cons_iff] at h

/-- Intervals in the order of their beginnings lie apart once neighbours are merged. -/
theorem pairwise_coalesce {xs : List Interval} (h : xs.Pairwise fun a b => a.first ≤ b.first) :
    (coalesce merge? xs).Pairwise Apart := by
  cases xs with
  | nil => exact .nil
  | cons first rest =>
    obtain ⟨hfirst, hrest⟩ := List.pairwise_cons.1 h
    refine pairwise_coalesceFrom ?_ ?_ ?_ ?_ hfirst hrest
    · intro a b joined x hjoined ha hb
      unfold merge? at hjoined
      split at hjoined
      · obtain rfl := Option.some.inj hjoined
        rw [first_hull]
        omega
      · cases hjoined
    · intro a b joined x hjoined ha hb
      unfold merge? at hjoined
      split at hjoined
      · obtain rfl := Option.some.inj hjoined
        unfold Apart at ha hb ⊢
        rw [first_hull]
        omega
      · cases hjoined
    · intro a b hab hnone
      unfold merge? at hnone
      split at hnone
      · cases hnone
      · rename_i htouch
        rw [Bool.or_eq_true, overlaps_iff, isAdjacent, decide_eq_true_eq] at htouch
        have := b.first_le_last
        unfold Apart
        omega
    · intro a b x hab hbx
      unfold Apart at hab ⊢
      omega

/-- The normal form covers the same characters. -/
theorem covers_normalize {xs : List Interval} {c : Char} :
    Covers (normalize xs) c ↔ Covers xs c := by
  rw [normalize, covers_coalesce]
  simp only [Covers, mem_ascending]

/-- The intervals of the normal form are ascending and lie apart. -/
theorem pairwise_normalize (xs : List Interval) : (normalize xs).Pairwise Apart := by
  refine pairwise_coalesce ((pairwise_ascending xs).imp fun {a b} hab => ?_)
  have hle := le_iff.1 hab.1
  omega

/-- The gaps of intervals that lie apart cover the other characters. -/
theorem covers_gapsFrom {xs : List Interval} {next : Nat} (hapart : xs.Pairwise Apart)
    (hnext : ∀ i ∈ xs, next ≤ i.first) {c : Char} :
    Covers (gapsFrom next xs) c ↔ next ≤ c.ordinal.val ∧ ¬ Covers xs c := by
  induction xs generalizing next with
  | nil =>
    have hlt := c.ordinal.isLt
    have hall := mem_ofOrdinals? next (Char.numCodePoints - 1) (by decide) c
    simp only [gapsFrom, Covers, Option.mem_toList, List.not_mem_nil, false_and, exists_false,
      not_false_eq_true, and_true]
    rw [hall]
    omega
  | cons i rest ih =>
    obtain ⟨hi, hrest⟩ := List.pairwise_cons.1 hapart
    have hle := i.first_le_last
    have hnext_i := hnext i List.mem_cons_self
    have hlt := i.last_lt
    have hrest_next : ∀ j ∈ rest, i.last + 1 ≤ j.first := fun j hj => Nat.le_of_lt (hi j hj)
    have htail := ih hrest hrest_next
    have hgap : Covers (if next < i.first then (ofOrdinals? next (i.first - 1)).toList else []) c ↔
        next ≤ c.ordinal.val ∧ c.ordinal.val < i.first := by
      split
      · have hpiece := mem_ofOrdinals? next (i.first - 1) (by omega) c
        simp only [Covers, Option.mem_toList]
        rw [hpiece]
        omega
      · simp only [Covers, List.not_mem_nil, false_and, exists_false, false_iff]
        omega
    have hhead : c ∈ i ↔ i.first ≤ c.ordinal.val ∧ c.ordinal.val ≤ i.last := mem_iff c i
    -- A later interval holds no character before the end of this one.
    have hlater : Covers rest c → i.last < c.ordinal.val := by
      rintro ⟨j, hj, hc⟩
      have := hi j hj
      unfold Apart at this
      rw [mem_iff] at hc
      omega
    have happend : Covers (gapsFrom next (i :: rest)) c ↔ Covers
        (if next < i.first then (ofOrdinals? next (i.first - 1)).toList else []) c ∨
          Covers (gapsFrom (i.last + 1) rest) c := by
      simp only [gapsFrom, Covers, List.mem_append, or_and_right, exists_or]
    have hcons : Covers (i :: rest) c ↔ c ∈ i ∨ Covers rest c := by
      simp only [Covers, List.exists_mem_cons_iff]
    rw [happend, hgap, htail, hcons, hhead]
    by_cases hcovers : Covers rest c
    · have := hlater hcovers
      simp only [hcovers, or_true, not_true, and_false, or_false, iff_false]
      omega
    · simp only [hcovers, or_false, not_false_eq_true, and_true]
      omega

/-- The complement covers exactly the characters that the list does not. -/
theorem covers_invert {xs : List Interval} {c : Char} :
    Covers (invert xs) c ↔ ¬ Covers xs c := by
  unfold invert
  rw [covers_gapsFrom (pairwise_normalize xs) fun _ _ => Nat.zero_le _, covers_normalize]
  simp

end Interval

end LexChart
