import LexChart.Proofs.Charset.Partition
import LexChart.Proofs.Checked.Steps
set_option autoImplicit false

/-!
# Arithmetic of code points

Sets of characters are computed on ordinals, among which the surrogates leave no gap.  On code
points the same computations have to step over the gap, and any step may leave the characters:
nothing comes before zero, and neither a surrogate nor a number beyond the last code point is a
character.  Complements, classes and differences never take such a step, whatever the intervals.
-/

namespace LexChart.Checked

/-! ## Code points and ordinals -/

/-- The first surrogate. -/
def gapStart : Nat := 0xD800

/-- The first code point behind the surrogates. -/
def gapEnd : Nat := 0xE000

/-- The first number behind all code points. -/
def codeLimit : Nat := 0x110000

/-- The code point behind another one, surrogates left out. -/
def succ (code : Nat) : Nat := if code + 1 = gapStart then gapEnd else code + 1

/-- The code point before another one, surrogates left out.  There is none before zero. -/
def pred (code : Nat) : Option Nat :=
  if code = gapEnd then some (gapStart - 1) else if code = 0 then none else some (code - 1)

/-- The character with a code point. -/
def toChar (code : Nat) : Option Char :=
  if h : code.isValidChar then some (Char.ofNatAux code h) else none

/-- The interval between two code points. -/
def interval (lo hi : Nat) : Option Interval := do
  let lo ← toChar lo
  let hi ← toChar hi
  Interval.ofChars? lo hi

/-- The code point of an ordinal, that of the number of all characters included. -/
def codePoint (ordinal : Nat) : Nat :=
  if ordinal < gapStart then ordinal else ordinal + (gapEnd - gapStart)

theorem codePoint_of_lt {n : Nat} (h : n < 0xD800) : codePoint n = n := if_pos h

theorem codePoint_of_le {n : Nat} (h : 0xD800 ≤ n) : codePoint n = n + 0x800 :=
  if_neg (Nat.not_lt.2 h)

theorem toNat_eq_codePoint (c : Char) : c.toNat = codePoint c.ordinal.val := by
  have hvalid : c.toNat < 0xD800 ∨ 0xDFFF < c.toNat ∧ c.toNat < 0x110000 := c.valid
  have hlt : c.val < 55296 ↔ c.toNat < 0xD800 := UInt32.lt_iff_toNat_lt
  unfold Char.ordinal
  split
  · rename_i h
    exact (codePoint_of_lt (hlt.1 h)).symm
  · rename_i h
    have hge := mt hlt.2 h
    show c.toNat = codePoint (c.toNat - 2048)
    rw [codePoint_of_le (by omega)]
    omega

theorem succ_codePoint (n : Nat) : succ (codePoint n) = codePoint (n + 1) := by
  unfold succ gapStart gapEnd
  rcases Nat.lt_trichotomy (n + 1) 0xD800 with h | h | h
  · rw [codePoint_of_lt h, codePoint_of_lt (by omega), if_neg (by omega)]
  · rw [codePoint_of_lt (by omega), codePoint_of_le (by omega), if_pos h]
    omega
  · rw [codePoint_of_le (by omega), codePoint_of_le (by omega), if_neg (by omega)]

theorem pred_codePoint (n : Nat) : pred (codePoint (n + 1)) = some (codePoint n) := by
  unfold pred gapStart gapEnd
  rcases Nat.lt_trichotomy (n + 1) 0xD800 with h | h | h
  · rw [codePoint_of_lt h, codePoint_of_lt (by omega), if_neg (by omega), if_neg (by omega),
      Nat.add_sub_cancel]
  · rw [codePoint_of_le (n := n + 1) (by omega), codePoint_of_lt (n := n) (by omega),
      if_pos (by omega)]
    congr 1
    omega
  · rw [codePoint_of_le (by omega), codePoint_of_le (by omega), if_neg (by omega),
      if_neg (by omega)]
    congr 1

theorem codePoint_lt_iff {m n : Nat} : codePoint m < codePoint n ↔ m < n := by
  unfold codePoint gapStart gapEnd
  split <;> split <;> omega

theorem codePoint_numCodePoints : codePoint Char.numCodePoints = codeLimit := by decide

theorem toChar_codePoint {n : Nat} (h : n < Char.numCodePoints) :
    toChar (codePoint n) = some (Char.ofOrdinal ⟨n, h⟩) := by
  unfold toChar
  have hvalid : (codePoint n).isValidChar := by
    unfold codePoint gapStart gapEnd Nat.isValidChar
    unfold Char.numCodePoints at h
    split <;> omega
  rw [dif_pos hvalid, Option.some.injEq, ← Char.toNat_inj, toNat_eq_codePoint (Char.ofOrdinal _),
    Char.ordinal_ofOrdinal]
  rfl

theorem toChar_toNat (c : Char) : toChar c.toNat = some c := by
  rw [toNat_eq_codePoint, toChar_codePoint c.ordinal.isLt, Fin.eta, Char.ofOrdinal_ordinal]

/-- Two characters in their order have an interval between them. -/
theorem interval_codePoint {lo hi : Nat} (hle : lo ≤ hi) (hlt : hi < Char.numCodePoints) :
    ∃ i, Interval.ofOrdinals? lo hi = some i ∧ interval (codePoint lo) (codePoint hi) = some i := by
  unfold Interval.ofOrdinals? interval Interval.ofChars?
  rw [dif_pos ⟨hle, hlt⟩, toChar_codePoint (Nat.lt_of_le_of_lt hle hlt), toChar_codePoint hlt]
  exact ⟨_, rfl, dif_pos (Char.ofOrdinal_le_of_le (Fin.mk_le_mk.2 hle))⟩

/-- The interval from a character up to the one before a cut. -/
theorem interval_before {lo next : Nat} (hlt : lo < next) (hle : next ≤ Char.numCodePoints) :
    ∃ i, Interval.ofOrdinals? lo (next - 1) = some i ∧
      pred (codePoint next) = some (codePoint (next - 1)) ∧
      interval (codePoint lo) (codePoint (next - 1)) = some i := by
  obtain ⟨i, hordinals, hcodes⟩ := @interval_codePoint lo (next - 1) (by omega) (by omega)
  refine ⟨i, hordinals, ?_, hcodes⟩
  rw [← pred_codePoint, Nat.sub_add_cancel (by omega)]

theorem toNat_lo (i : Interval) : i.lo.toNat = codePoint i.first := toNat_eq_codePoint i.lo

theorem toNat_hi (i : Interval) : i.hi.toNat = codePoint i.last := toNat_eq_codePoint i.hi

/-! ## Complements -/

/-- The interval from a code point up to the one before `next`, if it does not lie behind it. -/
def gapBefore (code next : Nat) : Option (List Interval) :=
  if code < next then do
    let hi ← pred next
    let gap ← interval code hi
    some [gap]
  else some []

/-- `Interval.gapsFrom` on code points. -/
def gapsFrom (code : Nat) : List Interval → Option (List Interval)
  | [] => gapBefore code codeLimit
  | i :: rest => do
    let gap ← gapBefore code i.lo.toNat
    let gaps ← gapsFrom (succ i.hi.toNat) rest
    some (gap ++ gaps)

/-- `Interval.invert` on code points. -/
def invert (xs : List Interval) : Option (List Interval) := gapsFrom 0 (Interval.normalize xs)

theorem gapBefore_codePoint {n next : Nat} (h : next ≤ Char.numCodePoints) :
    gapBefore (codePoint n) (codePoint next) =
      some (if n < next then (Interval.ofOrdinals? n (next - 1)).toList else []) := by
  unfold gapBefore
  by_cases hlt : n < next
  · obtain ⟨gap, hordinals, hpred, hcodes⟩ := interval_before hlt h
    rw [if_pos (codePoint_lt_iff.2 hlt), if_pos hlt, hordinals]
    exact Option.bind_eq_some_iff.2 ⟨_, hpred, Option.bind_eq_some_iff.2 ⟨gap, hcodes, rfl⟩⟩
  · rw [if_neg (mt codePoint_lt_iff.1 hlt), if_neg hlt]

theorem gapsFrom_codePoint (n : Nat) (xs : List Interval) :
    gapsFrom (codePoint n) xs = some (Interval.gapsFrom n xs) := by
  induction xs generalizing n with
  | nil =>
    rw [gapsFrom, Interval.gapsFrom, ← codePoint_numCodePoints,
      gapBefore_codePoint (Nat.le_refl _)]
    split
    · rfl
    · rename_i h
      unfold Interval.ofOrdinals?
      rw [dif_neg (by omega)]
      rfl
  | cons i rest ih =>
    have hfirst : i.first ≤ Char.numCodePoints := Nat.le_of_lt i.lo.ordinal.isLt
    rw [gapsFrom, Interval.gapsFrom, toNat_lo, toNat_hi, succ_codePoint,
      gapBefore_codePoint hfirst, ih]
    rfl

/-- Complements exist. -/
theorem invert_eq (xs : List Interval) : invert xs = some (Interval.invert xs) :=
  gapsFrom_codePoint 0 _

/-! ## Classes -/

/-- `Interval.bounds` on code points. -/
def bounds (xs : List Interval) : List Nat :=
  ascending (xs.flatMap fun i => [i.lo.toNat, succ i.hi.toNat])

/-- The piece between two neighbouring bounds with the intervals that hold it, if there are any. -/
def piece (xs : List Interval) (cut : Nat × Nat) : Option (Option (Interval × List Nat)) := do
  let hi ← pred cut.2
  let piece ← interval cut.1 hi
  let members := Interval.positions xs.zipIdx piece.lo
  some (if members.isEmpty then none else some (piece, members))

/-- `Interval.partition` on code points. -/
def partition (xs : List Interval) : Option (List (Interval × List Nat)) := do
  let cuts := bounds xs
  let pieces ← (cuts.zip cuts.tail).filterMapM (piece xs)
  some (coalesce Interval.joinClasses? pieces)

/-- Strictly ascending lists of the same numbers are the same. -/
theorem eq_of_ascending {xs ys : List Nat} (hxs : xs.Pairwise (· < ·)) (hys : ys.Pairwise (· < ·))
    (h : ∀ x, x ∈ xs ↔ x ∈ ys) : xs = ys := by
  have hperm := (List.perm_ext_iff_of_nodup (hxs.imp Nat.ne_of_lt) (hys.imp Nat.ne_of_lt)).2 h
  exact hperm.eq_of_pairwise (fun a b _ _ hab hba => by omega) hxs hys

theorem bounds_eq (xs : List Interval) : bounds xs = (Interval.bounds xs).map codePoint := by
  refine eq_of_ascending (pairwise_ascending _) ?_ fun x => ?_
  · exact (pairwise_ascending _).map codePoint fun _ _ h => codePoint_lt_iff.2 h
  · unfold bounds Interval.bounds
    simp only [mem_ascending, List.mem_map, List.mem_flatMap, toNat_lo, toNat_hi, succ_codePoint]
    constructor
    · rintro ⟨i, hi, hx⟩
      rcases List.mem_cons.1 hx with rfl | hx
      · exact ⟨_, ⟨i, hi, List.mem_cons_self⟩, rfl⟩
      · rw [List.mem_singleton] at hx
        exact ⟨i.last + 1, ⟨i, hi, by simp⟩, hx.symm⟩
    · rintro ⟨n, ⟨i, hi, hn⟩, rfl⟩
      rcases List.mem_cons.1 hn with rfl | hn
      · exact ⟨i, hi, List.mem_cons_self⟩
      · rw [List.mem_singleton] at hn
        exact ⟨i, hi, by simp [hn]⟩

/-- Classes exist. -/
theorem partition_eq (xs : List Interval) : partition xs = some (Interval.partition xs) := by
  have hzip : ((Interval.bounds xs).map codePoint).zip ((Interval.bounds xs).map codePoint).tail =
      ((Interval.bounds xs).zip (Interval.bounds xs).tail).map (Prod.map codePoint codePoint) := by
    rw [← List.map_tail, List.zip_map]
  have hpieces : ((bounds xs).zip (bounds xs).tail).filterMapM (piece xs) =
      some (Interval.pieces xs) := by
    rw [bounds_eq, hzip]
    refine filterMapM_eq_some (List.forall₂_map_left_iff.2 (List.forall₂_same.2 ?_))
    rintro ⟨lo, next⟩ hcut
    obtain ⟨hlt, hnext, -⟩ := neighbours_of_ascending (pairwise_ascending _) hcut
    have hle : next ≤ Char.numCodePoints := by
      obtain ⟨i, -, rfl | rfl⟩ := Interval.mem_bounds.1 hnext
      · exact Nat.le_of_lt i.lo.ordinal.isLt
      · exact i.last_lt
    obtain ⟨found, hordinals, hpred, hcodes⟩ := interval_before hlt hle
    dsimp only
    rw [hordinals]
    exact Option.bind_eq_some_iff.2 ⟨_, hpred, Option.bind_eq_some_iff.2 ⟨found, hcodes, rfl⟩⟩
  exact Option.bind_eq_some_iff.2 ⟨_, hpieces, rfl⟩

/-! ## Differences -/

/-- The piece of `a` that stands before `b`, if there is one.  It begins where `a` does. -/
def pieceBefore (a b : Interval) : Option (List Interval) :=
  if a.lo < b.lo then do
    let code ← pred b.lo.toNat
    let hi ← toChar code
    let piece ← Interval.ofChars? a.lo hi
    some [piece]
  else some []

/-- The piece of `a` that stands behind `b`, if there is one.  It ends where `a` does. -/
def pieceBehind (a b : Interval) : Option (List Interval) :=
  if b.hi < a.hi then do
    let lo ← toChar (succ b.hi.toNat)
    let piece ← Interval.ofChars? lo a.hi
    some [piece]
  else some []

/-- `Interval.minus` on code points. -/
def minus (a b : Interval) : Option (List Interval) :=
  if ¬ a.overlaps b then some [a]
  else do
    let before ← pieceBefore a b
    let behind ← pieceBehind a b
    some (before ++ behind)

section

variable {a b : Interval}

theorem pieceBefore_eq : pieceBefore a b =
    some (if a.first < b.first then (Interval.ofOrdinals? a.first (b.first - 1)).toList else []) := by
  have hiff : a.lo < b.lo ↔ a.first < b.first := Char.lt_iff_ordinal_lt
  unfold pieceBefore
  by_cases hlt : a.first < b.first
  · obtain ⟨piece, hordinals, hpred, hcodes⟩ :=
      interval_before hlt (Nat.le_of_lt b.lo.ordinal.isLt)
    rw [← toNat_lo] at hpred hcodes
    unfold interval at hcodes
    rw [toChar_toNat, Option.bind_eq_bind, Option.bind_some] at hcodes
    obtain ⟨hi, hhi, hpiece⟩ := Option.bind_eq_some_iff.1 hcodes
    rw [if_pos (hiff.2 hlt), if_pos hlt, hordinals]
    refine Option.bind_eq_some_iff.2 ⟨_, hpred, Option.bind_eq_some_iff.2 ⟨hi, hhi, ?_⟩⟩
    exact Option.bind_eq_some_iff.2 ⟨piece, hpiece, rfl⟩
  · rw [if_neg (mt hiff.1 hlt), if_neg hlt]

theorem pieceBehind_eq : pieceBehind a b =
    some (if b.last < a.last then (Interval.ofOrdinals? (b.last + 1) a.last).toList else []) := by
  have hiff : b.hi < a.hi ↔ b.last < a.last := Char.lt_iff_ordinal_lt
  unfold pieceBehind
  by_cases hlt : b.last < a.last
  · obtain ⟨piece, hordinals, hcodes⟩ := interval_codePoint (Nat.succ_le_of_lt hlt) a.last_lt
    rw [← succ_codePoint, ← toNat_hi, ← toNat_hi] at hcodes
    unfold interval at hcodes
    rw [toChar_toNat] at hcodes
    obtain ⟨lo, hlo, hpiece⟩ := Option.bind_eq_some_iff.1 hcodes
    rw [if_pos (hiff.2 hlt), if_pos hlt, hordinals]
    exact Option.bind_eq_some_iff.2 ⟨lo, hlo, Option.bind_eq_some_iff.2 ⟨piece, hpiece, rfl⟩⟩
  · rw [if_neg (mt hiff.1 hlt), if_neg hlt]

end

/-- Differences exist. -/
theorem minus_eq (a b : Interval) : minus a b = some (a.minus b) := by
  unfold minus Interval.minus
  rw [pieceBefore_eq, pieceBehind_eq]
  cases a.overlaps b <;> rfl

end LexChart.Checked
