import LexChart.Pattern.Notation
import LexChart.Proofs.Answers
import LexChart.Proofs.Charset.Partition
set_option autoImplicit false

/-!
# Reading sets and escapes

A set is read up to its closing bracket, and what stands behind the bracket does not matter.  The
class that is made of some intervals has the characters of the intervals, or all others if it is
negated, so an escape has the words that the notation gives it.
-/

namespace LexChart

/-- The class of a set has the characters of the set, or all others. -/
theorem CharClass.stands_ofSet {xs : List Interval} {negated : Bool} {c : Char} :
    (ofSet xs negated).Stands c ↔ (Pattern.Escaped.cls xs negated).Holds c := by
  have hnormal : Interval.Covers (Interval.normalize xs) c ↔ Interval.Covers xs c :=
    Interval.covers_normalize
  have hset : (set (Interval.normalize xs) negated).Stands c ↔
      (Pattern.Escaped.cls xs negated).Holds c := by
    cases negated with
    | false => exact hnormal
    | true => exact not_congr hnormal
  unfold ofSet
  split
  · rename_i i hi
    rw [hi] at hnormal
    have hone : c ∈ i ↔ Interval.Covers xs c := by simpa [Interval.Covers] using hnormal
    show _ ↔ Interval.Covers xs c
    rw [← hone]
    split
    · rename_i hsingle
      have hlo : i.lo = i.hi := by simpa [Interval.isSingle] using hsingle
      show c = i.lo ↔ i.lo ≤ c ∧ c ≤ i.hi
      rw [← hlo]
      exact ⟨fun h => h ▸ ⟨Char.le_refl _, Char.le_refl _⟩, fun h => Char.le_antisymm h.2 h.1⟩
    · exact Iff.rfl
  · exact hset

namespace Pattern

@[simp] theorem language_ofSet (xs : List Interval) (negated : Bool) :
    (CharClass.ofSet xs negated).language = ofProperty (Escaped.cls xs negated).Holds := by
  ext w
  rw [CharClass.language_eq_words]
  exact exists_congr fun c => and_congr_right fun _ => CharClass.stands_ofSet

@[simp] theorem language_any : CharClass.any.language = ofProperty fun _ => True := by
  rw [CharClass.language_eq_words]
  rfl

theorem ofProperty_eq (c : Char) : ofProperty (· = c) = {[c]} := by
  ext w
  show (∃ d, w = [d] ∧ d = c) ↔ w = [c]
  simp

/-! ## Items of a set, one by one -/

section

variable {items : List Interval} {start : Option Char} {rest : List Char}

theorem readItems_close : readItems items start (']' :: rest) = .ok (items, rest) := by
  simp [readItems.eq_def]

theorem readItems_lastDash (h : rest.head? = some ']') :
    readItems items start ('-' :: rest) = readItems (.single '-' :: items) none rest := by
  rw [readItems.eq_def]
  simp [h]

theorem readItems_range {min max : Char} (hclose : max ≠ ']') (hescape : max ≠ '\\') :
    readItems items (some min) ('-' :: max :: rest) = (do
      let range ← rangeBetween min max rest
      readItems (range :: items.tail) none rest) := by
  rw [readItems.eq_def]
  simp [hclose, hescape]

theorem readItems_rangeEscape {min max e : Char} (he : escaped e = .char max) :
    readItems items (some min) ('-' :: '\\' :: e :: rest) = (do
      let range ← rangeBetween min max rest
      readItems (range :: items.tail) none rest) := by
  rw [readItems.eq_def]
  simp [he]

theorem readItems_escape {e c : Char} (he : escaped e = .char c) :
    readItems items start ('\\' :: e :: rest) =
      readItems (.single c :: items) (some c) rest := by
  rw [readItems.eq_def]
  simp [he]

theorem readItems_class {e : Char} {xs : List Interval} {negated : Bool}
    (he : escaped e = .cls xs negated) : readItems items start ('\\' :: e :: rest) =
      readItems ((classIntervals xs negated).reverse ++ items) none rest := by
  rw [readItems.eq_def]
  simp [he]

theorem readItems_char {c : Char} (hclose : c ≠ ']') (hdash : c ≠ '-') (hescape : c ≠ '\\') :
    readItems items start (c :: rest) = readItems (.single c :: items) (some c) rest := by
  rw [readItems.eq_def]
  simp [hclose, hdash, hescape]

theorem rangeBetween_eq_ok_iff {min max : Char} {range : Interval} :
    rangeBetween min max rest = .ok range ↔ Interval.ofChars? min max = some range := by
  unfold rangeBetween
  split <;> simp_all

end

/-- The character that comes next does not depend on what stands behind a bracket. -/
theorem head?_append_bracket (s rest other : List Char) :
    (s ++ ']' :: rest).head? = (s ++ ']' :: other).head? := by
  cases s <;> rfl

/-- The items of a set are read up to the closing bracket, whatever stands behind it. -/
theorem readItems_ok {items found : List Interval} {start : Option Char} {text rest : List Char}
    (h : readItems items start text = .ok (found, rest)) :
    ∃ s, text = s ++ ']' :: rest ∧
      ∀ other, readItems items start (s ++ ']' :: other) = .ok (found, other) := by
  induction items, start, text using readItems.induct with
  | case2 items start rest' =>
    rw [readItems_close] at h
    cases h
    exact ⟨[], rfl, fun other => readItems_close⟩
  | case3 items start rest' hhead _ ih =>
    rw [readItems_lastDash hhead] at h
    obtain ⟨s, rfl, hs⟩ := ih h
    refine ⟨'-' :: s, rfl, fun other => ?_⟩
    rw [head?_append_bracket s rest other] at hhead
    exact (readItems_lastDash hhead).trans (hs other)
  | case7 items min e rest' max he _ _ ih =>
    rw [readItems_rangeEscape he] at h
    obtain ⟨range, hrange, h⟩ := bind_eq_ok_iff.1 h
    obtain ⟨s, rfl, hs⟩ := ih range h
    refine ⟨'-' :: '\\' :: e :: s, rfl, fun other => ?_⟩
    rw [rangeBetween_eq_ok_iff] at hrange
    apply (readItems_rangeEscape he).trans
    exact bind_eq_ok_iff.2 ⟨range, rangeBetween_eq_ok_iff.2 hrange, hs other⟩
  | case9 items min max rest' hescape _ hhead ih =>
    have hclose : max ≠ ']' := by simpa using hhead
    rw [readItems_range hclose hescape] at h
    obtain ⟨range, hrange, h⟩ := bind_eq_ok_iff.1 h
    obtain ⟨s, rfl, hs⟩ := ih range h
    refine ⟨'-' :: max :: s, rfl, fun other => ?_⟩
    rw [rangeBetween_eq_ok_iff] at hrange
    apply (readItems_range hclose hescape).trans
    exact bind_eq_ok_iff.2 ⟨range, rangeBetween_eq_ok_iff.2 hrange, hs other⟩
  | case11 items start e rest' c he _ _ ih =>
    rw [readItems_escape he] at h
    obtain ⟨s, rfl, hs⟩ := ih h
    exact ⟨'\\' :: e :: s, rfl, fun other => (readItems_escape he).trans (hs other)⟩
  | case12 items start e rest' xs negated he _ _ ih =>
    rw [readItems_class he] at h
    obtain ⟨s, rfl, hs⟩ := ih h
    exact ⟨'\\' :: e :: s, rfl, fun other => (readItems_class he).trans (hs other)⟩
  | case13 items start c rest' hclose hdash hescape ih =>
    rw [readItems_char hclose hdash hescape] at h
    obtain ⟨s, rfl, hs⟩ := ih h
    exact ⟨c :: s, rfl, fun other => (readItems_char hclose hdash hescape).trans (hs other)⟩
  -- The other ways to go on end with an error.
  | case1 => cases h
  | case4 items rest' _ hhead => simp [readItems.eq_def, hhead] at h
  | case5 => simp [readItems.eq_def] at h
  | case6 => simp [readItems.eq_def] at h
  | case8 items min e rest' xs negated he => simp [readItems.eq_def, he] at h
  | case10 => simp [readItems.eq_def] at h

/-- A set is read up to its closing bracket, whatever stands behind it. -/
theorem readSet_ok {text rest : List Char} {cls : CharClass}
    (h : readSet text = .ok (cls, rest)) :
    ∃ s, text = s ++ ']' :: rest ∧ ∀ other, readSet (s ++ ']' :: other) = .ok (cls, other) := by
  obtain ⟨⟨items, rest'⟩, hitems, heq⟩ := bind_eq_ok_iff.1 h
  cases heq
  obtain ⟨s, hs, hother⟩ := readItems_ok hitems
  split at hs
  · rename_i hcaret
    obtain ⟨text, rfl⟩ : ∃ tail, text = '^' :: tail := List.head?_eq_some_iff.1 (by simpa using hcaret)
    obtain rfl : text = s ++ ']' :: rest := hs
    refine ⟨'^' :: s, rfl, fun other => bind_eq_ok_iff.2 ⟨(items, other), ?_, ?_⟩⟩
    · exact hother other
    · rfl
  · rename_i hcaret
    subst hs
    refine ⟨s, rfl, fun other => bind_eq_ok_iff.2 ⟨(items, other), ?_, ?_⟩⟩
    · rw [head?_append_bracket s rest other] at hcaret
      rw [if_neg hcaret]
      exact hother other
    · rw [head?_append_bracket s rest other]
      rfl

end Pattern

end LexChart
