import LexChart.Proofs.Charset.Partition
set_option autoImplicit false

/-!
# Classes of the same intervals

The classes of a list of intervals depend on which intervals the list has, and neither on their
order nor on how often they stand there: the bounds are the same, the pieces between them are the
same, and two pieces are joined where they lie in the same intervals.  Only the positions that come
with a class are those of one list.
-/

namespace LexChart

/-! ## Ascending lists -/

section

variable {α : Type} [LE α] [LT α] [Std.IsLinearOrder α] [Std.LawfulOrderLT α]

/-- A strictly ascending list is determined by its elements. -/
theorem eq_of_ascending {xs ys : List α} (hxs : xs.Pairwise (· < ·)) (hys : ys.Pairwise (· < ·))
    (h : ∀ x, x ∈ xs ↔ x ∈ ys) : xs = ys := by
  have hperm : xs.Perm ys :=
    (List.perm_ext_iff_of_nodup (hxs.imp Std.ne_of_lt) (hys.imp Std.ne_of_lt)).2 h
  refine hperm.eq_of_pairwise (fun a b _ _ hab hba => ?_) hxs hys
  exact absurd (Std.lt_trans hab hba) Std.lt_irrefl

theorem ascending_congr [DecidableEq α] [DecidableLE α] {xs ys : List α}
    (h : ∀ x, x ∈ xs ↔ x ∈ ys) : ascending xs = ascending ys :=
  eq_of_ascending (pairwise_ascending xs) (pairwise_ascending ys) fun x => by
    rw [mem_ascending, mem_ascending, h]

end

/-! ## Lists that are joined alike -/

section

variable {α β : Type} {r : α → β → Prop}

/-- Picks that are related or both missing make related lists. -/
theorem forall₂_filterMap {γ : Type} {f : γ → Option α} {g : γ → Option β} {xs : List γ}
    (h : ∀ x ∈ xs, Option.Rel r (f x) (g x)) :
    List.Forall₂ r (xs.filterMap f) (xs.filterMap g) := by
  induction xs with
  | nil => exact .nil
  | cons x xs ih =>
    obtain ⟨hx, hxs⟩ := List.forall_mem_cons.1 h
    rw [List.filterMap_cons, List.filterMap_cons]
    generalize f x = a at hx
    generalize g x = b at hx
    cases hx with
    | none => exact ih hxs
    | some hab => exact .cons hab (ih hxs)

/-- Neighbours that are joined alike make related lists. -/
theorem forall₂_coalesceFrom {join? : α → α → Option α} {join?' : β → β → Option β}
    (hjoin : ∀ a a' b b', r a a' → r b b' → Option.Rel r (join? a b) (join?' a' b'))
    {current : α} {current' : β} (hcurrent : r current current') {rest : List α} {rest' : List β}
    (hrest : List.Forall₂ r rest rest') :
    List.Forall₂ r (coalesceFrom join? current rest) (coalesceFrom join?' current' rest') := by
  induction hrest generalizing current current' with
  | nil => exact .cons hcurrent .nil
  | @cons next next' rest rest' hnext _ ih =>
    have hjoined := hjoin _ _ _ _ hcurrent hnext
    rw [coalesceFrom, coalesceFrom]
    generalize join? current next = joined at hjoined
    generalize join?' current' next' = joined' at hjoined
    cases hjoined with
    | none => exact .cons hcurrent (ih hnext)
    | some hboth => exact ih hboth

end

namespace Interval

variable {xs ys : List Interval}

/-- Characters have the same positions exactly if they lie in the same intervals. -/
theorem positions_eq_iff {c d : Char} :
    positions xs.zipIdx c = positions xs.zipIdx d ↔ ∀ i ∈ xs, c ∈ i ↔ d ∈ i := by
  refine ⟨fun h i hi => ?_, positions_congr⟩
  obtain ⟨k, hk⟩ := List.mem_iff_getElem?.1 hi
  have hmem : ∀ c, k ∈ positions xs.zipIdx c ↔ c ∈ i := by
    intro c
    rw [mem_positions, hk]
    simp
  rw [← hmem c, ← hmem d, h]

theorem positions_eq_nil_iff {c : Char} : positions xs.zipIdx c = [] ↔ ¬ Covers xs c := by
  rw [List.eq_nil_iff_forall_not_mem]
  constructor
  · rintro h ⟨i, hi, hc⟩
    obtain ⟨k, hk⟩ := List.mem_iff_getElem?.1 hi
    exact h k (mem_positions.2 ⟨i, hk, hc⟩)
  · intro h k hk
    obtain ⟨i, hi, hc⟩ := mem_positions.1 hk
    exact h ⟨i, List.mem_of_getElem? hi, hc⟩

/-- Two classes of different lists stand for the same characters. -/
structure Alike (xs ys : List Interval) (a b : Interval × List Nat) : Prop where
  fst_eq : a.1 = b.1
  left : IsClass xs a
  right : IsClass ys b

/-- The piece between two bounds, if it lies in some interval. -/
def pieceAt (xs : List Interval) (cut : Nat × Nat) : Option (Interval × List Nat) := do
  let piece ← ofOrdinals? cut.1 (cut.2 - 1)
  let members := positions xs.zipIdx piece.lo
  if members.isEmpty then none else some (piece, members)

theorem pieces_eq (xs : List Interval) :
    pieces xs = ((bounds xs).zip (bounds xs).tail).filterMap (pieceAt xs) := rfl

section

variable (h : ∀ i, i ∈ xs ↔ i ∈ ys)
include h

theorem covers_congr {c : Char} : Covers xs c ↔ Covers ys c := by
  unfold Covers
  simp only [h]

theorem bounds_congr : bounds xs = bounds ys := by
  refine ascending_congr fun x => ?_
  rw [List.mem_flatMap, List.mem_flatMap]
  simp only [h]

/-- Between two bounds both lists have a piece or neither has one. -/
theorem forall₂_pieces : List.Forall₂ (Alike xs ys) (pieces xs) (pieces ys) := by
  have hxs : ∀ cls ∈ pieces xs, IsClass xs cls := fun cls => isClass_of_mem_pieces
  have hys : ∀ cls ∈ pieces ys, IsClass ys cls := fun cls => isClass_of_mem_pieces
  rw [pieces_eq, pieces_eq, ← bounds_congr h]
  rw [pieces_eq] at hxs
  rw [pieces_eq, ← bounds_congr h] at hys
  refine forall₂_filterMap fun cut hcut => ?_
  have hxs : ∀ cls, pieceAt xs cut = some cls → IsClass xs cls := fun cls hcls =>
    hxs cls (List.mem_filterMap.2 ⟨cut, hcut, hcls⟩)
  have hys : ∀ cls, pieceAt ys cut = some cls → IsClass ys cls := fun cls hcls =>
    hys cls (List.mem_filterMap.2 ⟨cut, hcut, hcls⟩)
  unfold pieceAt at hxs hys ⊢
  cases hpiece : ofOrdinals? cut.1 (cut.2 - 1) with
  | none => exact .none
  | some piece =>
    rw [hpiece] at hxs hys
    simp only [Option.bind_eq_bind, Option.bind_some, List.isEmpty_iff, positions_eq_nil_iff] at *
    by_cases hcovers : Covers xs piece.lo
    · have hcovers' := (covers_congr h).1 hcovers
      rw [if_neg (not_not.2 hcovers)] at hxs ⊢
      rw [if_neg (not_not.2 hcovers')] at hys ⊢
      exact .some ⟨rfl, hxs _ rfl, hys _ rfl⟩
    · have hcovers' := (covers_congr h).not.1 hcovers
      rw [if_pos hcovers, if_pos hcovers']
      exact .none

/-- Neighbouring classes are joined in both lists or in neither. -/
theorem rel_joinClasses? (a a' b b' : Interval × List Nat) (ha : Alike xs ys a a')
    (hb : Alike xs ys b b') : Option.Rel (Alike xs ys) (joinClasses? a b) (joinClasses? a' b') := by
  have hlo : ∀ i : Interval, i.lo ∈ i := fun i => ⟨Char.le_refl i.lo, i.lo_le_hi⟩
  have hsame : a.2 = b.2 ↔ a'.2 = b'.2 := by
    rw [← ha.left.2 _ (hlo a.1), ← hb.left.2 _ (hlo b.1), ← ha.right.2 _ (hlo a'.1),
      ← hb.right.2 _ (hlo b'.1), positions_eq_iff, positions_eq_iff, ha.fst_eq, hb.fst_eq]
    simp only [h]
  have hleft : ∀ joined, joinClasses? a b = some joined → IsClass xs joined :=
    fun _ => ha.left.joined hb.left
  have hright : ∀ joined, joinClasses? a' b' = some joined → IsClass ys joined :=
    fun _ => ha.right.joined hb.right
  unfold joinClasses? at hleft hright ⊢
  by_cases hjoin : a.2 = b.2 ∧ a.1.isAdjacent b.1
  · have hjoin' : a'.2 = b'.2 ∧ a'.1.isAdjacent b'.1 :=
      ⟨hsame.1 hjoin.1, ha.fst_eq ▸ hb.fst_eq ▸ hjoin.2⟩
    rw [if_pos hjoin] at hleft ⊢
    rw [if_pos hjoin'] at hright ⊢
    exact .some ⟨by rw [ha.fst_eq, hb.fst_eq], hleft _ rfl, hright _ rfl⟩
  · have hjoin' : ¬ (a'.2 = b'.2 ∧ a'.1.isAdjacent b'.1) := fun hjoin' =>
      hjoin ⟨hsame.2 hjoin'.1, ha.fst_eq ▸ hb.fst_eq ▸ hjoin'.2⟩
    rw [if_neg hjoin, if_neg hjoin']
    exact .none

theorem partition_fst_congr : (partition xs).map Prod.fst = (partition ys).map Prod.fst := by
  have hpieces := forall₂_pieces h
  rw [partition_eq, partition_eq]
  have halike : List.Forall₂ (Alike xs ys) (coalesce joinClasses? (pieces xs))
      (coalesce joinClasses? (pieces ys)) := by
    generalize pieces xs = found at hpieces
    generalize pieces ys = found' at hpieces
    cases hpieces with
    | nil => exact .nil
    | cons hfirst hrest => exact forall₂_coalesceFrom (rel_joinClasses? h) hfirst hrest
  rw [← List.forall₂_eq_eq_eq, List.forall₂_map_left_iff, List.forall₂_map_right_iff]
  exact halike.imp fun _ _ h => h.fst_eq

end

end Interval

end LexChart
