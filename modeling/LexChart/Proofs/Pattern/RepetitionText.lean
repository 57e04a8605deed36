import LexChart.Proofs.Pattern.Counts
set_option autoImplicit false

/-!
# Repetitions as text

`Repetition.text` shows the bounds of a repetition as the shortest quantifier that has them, and
`readQuantifier` reads a quantifier back, whatever stands behind it.  What is read need not be the
repetition that was shown: flags and counts that come to the same bounds are shown alike.  But it
has the same bounds, and so repetitions with different bounds are shown differently.

Exactly once is shown as nothing, and nothing is no quantifier.
-/

namespace LexChart

namespace Pattern

/-- The decimal digits of a number are a numeral for it. -/
theorem isNumeral_toDigits (n : Nat) : IsNumeral (Nat.toDigits 10 n) n :=
  ⟨Nat.toDigits_ne_nil, fun _ hc => Nat.isDigit_of_mem_toDigits (by decide) (by decide) hc,
    Nat.ofDigitChars_ten_toDigits.symm⟩

/-- Counts that are small enough and in order are read as they are. -/
theorem takeQuantifier_of_isCounted {q : List Char} {n : Nat} {most : Option Nat}
    (h : IsCounted q n most) (hn : n < countLimit) (hmost : ∀ m ∈ most, n ≤ m ∧ m < countLimit)
    (rest : List Char) : takeQuantifier (q ++ rest) = .ok (some (.between n most), rest) := by
  have hfilter : most.filter (· < countLimit) = most := by
    cases most with
    | none => rfl
    | some m => rw [Option.filter_some, if_pos (decide_eq_true (hmost m rfl).2)]
  have hcounted : countedRepetition n most = some (.between n most) :=
    countedRepetition_eq_some_iff.2 ⟨hn, fun m hm => (hmost m hm).1, by rw [hfilter]⟩
  have hread := takeQuantifier_counted h rest
  rwa [hcounted] at hread

end Pattern

namespace Repetition

open Pattern

variable {r s : Repetition}

/-- Both counts are numbers of 64 bits. -/
structure Fits (r : Repetition) : Prop where
  minCount_lt : ∀ n ∈ r.minCount, n < countLimit
  maxCount_lt : ∀ n ∈ r.maxCount, n < countLimit

theorem Fits.lower_lt (h : r.Fits) : r.lower < countLimit := by
  unfold lower
  split
  · decide
  · cases hmin : r.minCount with
    | none => decide
    | some n => exact h.minCount_lt n hmin

theorem Fits.upper_lt (h : r.Fits) {most : Nat} (hmost : r.upper = some most) :
    most < countLimit := by
  have hlower := h.lower_lt
  unfold upper at hmost
  split at hmost
  · rename_i count hmax
    cases hmost
    exact Nat.max_lt.2 ⟨h.maxCount_lt count hmax, hlower⟩
  · split at hmost
    · cases hmost
    · cases hmost
      exact Nat.max_lt.2 ⟨hlower, by decide⟩

/-- Two repetitions with the same bounds. -/
structure SameBounds (r s : Repetition) : Prop where
  lower_eq : r.lower = s.lower
  upper_eq : r.upper = s.upper

theorem SameBounds.symm (h : r.SameBounds s) : s.SameBounds r := ⟨h.lower_eq.symm, h.upper_eq.symm⟩

theorem SameBounds.trans {t : Repetition} (h : r.SameBounds s) (k : s.SameBounds t) :
    r.SameBounds t :=
  ⟨h.lower_eq.trans k.lower_eq, h.upper_eq.trans k.upper_eq⟩

/-- The bounds of a repetition, written as counts, are its bounds. -/
theorem sameBounds_between (r : Repetition) : (between r.lower r.upper).SameBounds r := by
  refine ⟨rfl, ?_⟩
  cases hupper : r.upper with
  | none => rfl
  | some most =>
    have hle : r.lower ≤ most := lower_le_upper hupper
    exact congrArg some (Nat.max_eq_left hle)

/-- What is shown depends on the bounds alone. -/
theorem SameBounds.text_eq (h : r.SameBounds s) : r.text = s.text := by
  unfold text
  rw [h.lower_eq, h.upper_eq]

theorem toList_toString (n : Nat) : (toString n).toList = Nat.toDigits 10 n := by
  rw [Nat.toString_eq_ofList_toDigits, String.toList_ofList]

/-- The text of a repetition is read as one with the same bounds, whatever stands behind it. -/
theorem exists_takeQuantifier_text (h : r.Fits) (hnot : ¬ r.SameBounds once) :
    ∃ read : Repetition, read.SameBounds r ∧
      ∀ rest, takeQuantifier (r.text.toList ++ rest) = .ok (some read, rest) := by
  have hbraces : ∀ text : String, IsCounted text.toList r.lower r.upper →
      ∃ read : Repetition, read.SameBounds r ∧
        ∀ rest, takeQuantifier (text.toList ++ rest) = .ok (some read, rest) := fun text htext =>
    ⟨_, sameBounds_between r, takeQuantifier_of_isCounted htext h.lower_lt fun _ hmost =>
      ⟨lower_le_upper hmost, h.upper_lt hmost⟩⟩
  have hlower := isNumeral_toDigits r.lower
  unfold text
  split
  case h_1 hlower hupper => exact absurd ⟨hlower, hupper⟩ hnot
  case h_2 hlower hupper => exact ⟨optional, ⟨hlower.symm, hupper.symm⟩, fun _ => rfl⟩
  case h_3 hlower hupper => exact ⟨star, ⟨hlower.symm, hupper.symm⟩, fun _ => rfl⟩
  case h_4 hlower hupper => exact ⟨many, ⟨hlower.symm, hupper.symm⟩, fun _ => rfl⟩
  case h_5 hupper _ _ =>
    refine hbraces _ ?_
    rw [hupper, String.toList_append, String.toList_append, toList_toString]
    exact .atLeast hlower
  case h_6 most hupper _ _ =>
    split
    · rename_i heq
      refine hbraces _ ?_
      rw [hupper, ← heq, String.toList_append, String.toList_append, toList_toString]
      exact .exactly hlower
    · refine hbraces _ ?_
      have hform := IsCounted.fromTo hlower (isNumeral_toDigits most)
      simpa [hupper, toList_toString] using hform

/-- With nothing read as exactly once, every text is read as a repetition with the bounds shown. -/
theorem exists_takeQuantifier_whole (h : r.Fits) : ∃ found : Option Repetition,
    takeQuantifier r.text.toList = .ok (found, []) ∧ (found.getD once).SameBounds r := by
  by_cases honce : r.SameBounds once
  · refine ⟨none, ?_, honce.symm⟩
    rw [honce.text_eq]
    rfl
  · obtain ⟨read, hbounds, hread⟩ := exists_takeQuantifier_text h honce
    refine ⟨some read, ?_, hbounds⟩
    simpa using hread []

/-- Different bounds are shown differently. -/
theorem text_eq_iff (hr : r.Fits) (hs : s.Fits) : r.text = s.text ↔ r.SameBounds s := by
  refine ⟨fun h => ?_, SameBounds.text_eq⟩
  obtain ⟨found, hfound, hbounds⟩ := exists_takeQuantifier_whole hr
  obtain ⟨found', hfound', hbounds'⟩ := exists_takeQuantifier_whole hs
  rw [← h, hfound] at hfound'
  cases hfound'
  exact hbounds.symm.trans hbounds'

/-- A repetition other than exactly once is shown as a quantifier that is read back, whatever stands
behind it, as one with the same bounds.  Two repetitions are shown alike exactly if they have the
same bounds. -/
theorem text_exact (h : r.Fits) :
    (¬ r.SameBounds once → ∃ read : Repetition, read.SameBounds r ∧
      ∀ rest, readQuantifier (r.text.toList ++ rest) = .ok (some (read, rest))) ∧
    ∀ s : Repetition, s.Fits → (r.text = s.text ↔ r.SameBounds s) := by
  refine ⟨fun hnot => ?_, fun s hs => text_eq_iff h hs⟩
  obtain ⟨read, hbounds, hread⟩ := exists_takeQuantifier_text h hnot
  exact ⟨read, hbounds, fun rest => readQuantifier_of_takeQuantifier (hread rest)⟩

/-- A greatest count that gives way to the least one, with another quantifier behind it. -/
theorem text_exact_crossed :
    (∃ read : Repetition, read.lower = 12 ∧ read.upper = some 12 ∧
      readQuantifier "\x7b12\x7d?".toList = .ok (some (read, ['?']))) ∧
    ({ isMany := true, minCount := some 12, maxCount := some 7 } : Repetition).text ≠
      (between 12 (some 13)).text := by
  have hfits : ({ isMany := true, minCount := some 12, maxCount := some 7 } : Repetition).Fits :=
    ⟨by decide, by decide⟩
  have hfits' : (between 12 (some 13)).Fits := ⟨by decide, by decide⟩
  obtain ⟨hread, htexts⟩ := text_exact hfits
  refine ⟨?_, fun heq => ?_⟩
  · obtain ⟨read, ⟨hlower, hupper⟩, hread⟩ := hread fun honce => by cases honce.lower_eq
    exact ⟨read, hlower, hupper, hread ['?']⟩
  · cases ((htexts _ hfits').1 heq).upper_eq

end Repetition

end LexChart
