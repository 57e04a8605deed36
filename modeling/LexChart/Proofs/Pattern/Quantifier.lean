import LexChart.Pattern.Notation
import LexChart.Proofs.Answers
import Mathlib.Data.List.TakeWhile
set_option autoImplicit false

/-!
# Reading quantifiers

The reader of quantifiers takes exactly the texts that `IsQuantifier` describes off the beginning of
a pattern, whatever follows them.  Counts have to be small enough to be numbers of 64 bits: the
reader takes a greatest count beyond that for one that is left out.
-/

namespace LexChart.Pattern

/-- Every run of digits in the text denotes a number that is small enough to be a count. -/
def CountsFit (text : List Char) : Prop :=
  ∀ digits, digits <:+: text → (∀ c ∈ digits, c.isDigit = true) → decimalValue digits < countLimit

theorem CountsFit.of_infix {s text : List Char} (h : CountsFit text) (hs : s <:+: text) :
    CountsFit s :=
  fun digits hdigits => h digits (hdigits.trans hs)

theorem CountsFit.right {s t : List Char} (h : CountsFit (s ++ t)) : CountsFit t :=
  h.of_infix (List.suffix_append s t).isInfix

theorem CountsFit.left {s t : List Char} (h : CountsFit (s ++ t)) : CountsFit s :=
  h.of_infix (List.prefix_append s t).isInfix

theorem CountsFit.tail {c : Char} {t : List Char} (h : CountsFit (c :: t)) : CountsFit t :=
  h.of_infix (List.suffix_cons c t).isInfix

theorem decimalValue_concat (digits : List Char) (digit : Char) :
    decimalValue (digits ++ [digit]) =
      10 * decimalValue digits + (digit.toNat - '0'.toNat) := by
  simp [decimalValue]

/-- Few digits denote a small number. -/
theorem decimalValue_lt (digits : List Char) (h : ∀ c ∈ digits, c.isDigit = true) :
    decimalValue digits < 10 ^ digits.length := by
  induction digits using List.reverseRecOn with
  | nil => simp [decimalValue]
  | append_singleton digits digit ih =>
    have hvalue := ih fun c hc => h c (List.mem_append_left _ hc)
    have hdigit : digit.toNat - '0'.toNat < 10 := by
      have hdigit := h digit (by simp)
      simp only [Char.isDigit, Bool.and_eq_true, decide_eq_true_eq] at hdigit
      have hle : digit.toNat ≤ 57 := hdigit.2
      have hzero : '0'.toNat = 48 := rfl
      omega
    rw [decimalValue_concat, List.length_append, List.length_singleton, Nat.pow_succ]
    omega

/-- The counts of a short text are small enough. -/
theorem countsFit_of_length_le {text : List Char} (h : text.length ≤ 19) : CountsFit text := by
  intro digits hinside hdigits
  calc decimalValue digits < 10 ^ digits.length := decimalValue_lt digits hdigits
    _ ≤ 10 ^ 19 := Nat.pow_le_pow_right (by decide) (Nat.le_trans hinside.length_le h)
    _ < countLimit := by decide

/-! ## Counts -/

/-- The text goes on with something that is no digit. -/
def NoDigit (text : List Char) : Prop := ∀ c ∈ text.head?, c.isDigit = false

theorem NoDigit.takeWhile_eq {text : List Char} (h : NoDigit text) :
    text.takeWhile Char.isDigit = [] := by
  cases text with
  | nil => rfl
  | cons c text => simp [h c rfl]

theorem NoDigit.dropWhile_eq {text : List Char} (h : NoDigit text) :
    text.dropWhile Char.isDigit = text := by
  cases text with
  | nil => rfl
  | cons c text => simp [h c rfl]

theorem readCount_numeral {digits rest : List Char} {n : Nat} (h : IsNumeral digits n)
    (hn : n < countLimit) (hrest : NoDigit rest) : readCount (digits ++ rest) = (some n, rest) := by
  obtain ⟨hne, hdigits, rfl⟩ := h
  have htake : (digits ++ rest).takeWhile Char.isDigit = digits := by
    rw [List.takeWhile_append_of_pos hdigits, hrest.takeWhile_eq, List.append_nil]
  have hdrop : (digits ++ rest).dropWhile Char.isDigit = rest := by
    rw [List.dropWhile_append_of_pos hdigits, hrest.dropWhile_eq]
  unfold readCount
  rw [htake, hdrop]
  simp [hne, Nat.not_le.2 hn]

/-- A count that is read stands at the beginning of the text. -/
theorem readCount_eq_some {text rest : List Char} {n : Nat} (h : readCount text = (some n, rest)) :
    ∃ digits, text = digits ++ rest ∧ IsNumeral digits n := by
  unfold readCount at h
  obtain ⟨hvalue, hrest⟩ := Prod.mk.inj h
  refine ⟨text.takeWhile Char.isDigit, ?_, ?_⟩
  · rw [← hrest, List.takeWhile_append_dropWhile]
  · split at hvalue
    · cases hvalue
    · rename_i hcount
      rw [Bool.or_eq_true, not_or, List.isEmpty_iff] at hcount
      exact ⟨hcount.1, fun c hc => List.mem_takeWhile_imp hc, (Option.some.inj hvalue).symm⟩

/-- Only where no digit stands is there no count, if counts are small enough. -/
theorem readCount_eq_none {text rest : List Char} (hfit : CountsFit text)
    (h : readCount text = (none, rest)) : rest = text := by
  unfold readCount at h
  obtain ⟨hvalue, hrest⟩ := Prod.mk.inj h
  have hlt := hfit (text.takeWhile Char.isDigit) (List.takeWhile_prefix _).isInfix
    fun c hc => List.mem_takeWhile_imp hc
  split at hvalue
  · rename_i hcount
    have hempty : text.takeWhile Char.isDigit = [] := by
      simpa [Nat.not_le.2 hlt] using hcount
    have hall := List.takeWhile_append_dropWhile (p := Char.isDigit) (l := text)
    rw [hempty, hrest] at hall
    exact hall
  · cases hvalue

/-! ## Quantifiers -/

/-- Counts after an opening brace are read to the closing one. -/
theorem readCounts_ok {text rest : List Char} {r : Repetition} (hfit : CountsFit text)
    (h : readCounts text = .ok (r, rest)) :
    ∃ q, text = q ++ rest ∧ IsQuantifier ('\x7b' :: q) r := by
  unfold readCounts at h
  split at h
  · cases h
  · rename_i min afterMin hmin
    obtain ⟨least, rfl, hleast⟩ := readCount_eq_some hmin
    split at h
    · rename_i most afterMost hmost
      split at h
      · cases h
      · rename_i hle
        cases h
        unfold readMaxCount at hmost
        split at hmost
        · -- A comma stands behind the least count.
          rename_i afterComma
          have hfit' : CountsFit afterComma := hfit.right.tail
          cases most with
          | none =>
            obtain rfl := readCount_eq_none hfit' hmost
            exact ⟨least ++ [',', '\x7d'], by simp, .atLeast hleast⟩
          | some m =>
            obtain ⟨digits, rfl, hdigits⟩ := readCount_eq_some hmost
            have hle : min ≤ m := by simpa using hle
            refine ⟨least ++ ',' :: digits ++ ['\x7d'], by simp, ?_⟩
            exact .fromTo hleast hdigits hle
        · cases hmost
          exact ⟨least ++ ['\x7d'], by simp, .exactly hleast⟩
    · cases h

/-- A quantifier that is read stands at the beginning of the text. -/
theorem readQuantifier_sound {text rest : List Char} {r : Repetition} (hfit : CountsFit text)
    (h : readQuantifier text = .ok (some (r, rest))) :
    ∃ q, text = q ++ rest ∧ IsQuantifier q r := by
  unfold readQuantifier at h
  split at h
  · cases h
    exact ⟨['?'], rfl, .optional⟩
  · cases h
    exact ⟨['*'], rfl, .star⟩
  · cases h
    exact ⟨['+'], rfl, .many⟩
  · rename_i counts
    obtain ⟨⟨r', rest'⟩, hcounts, heq⟩ := map_eq_ok_iff.1 h
    cases heq
    obtain ⟨q, rfl, hq⟩ := readCounts_ok hfit.tail hcounts
    exact ⟨'\x7b' :: q, rfl, hq⟩
  · cases h

theorem IsNumeral.lt {digits text : List Char} {n : Nat} (h : IsNumeral digits n)
    (hfit : CountsFit text) (hinside : digits <:+: text) : n < countLimit := by
  obtain ⟨-, hdigits, rfl⟩ := h
  exact hfit digits hinside hdigits

/-- A quantifier at the beginning of a text is read, whatever follows. -/
theorem readQuantifier_complete {q : List Char} {r : Repetition} (h : IsQuantifier q r)
    (hfit : CountsFit q) (rest : List Char) :
    readQuantifier (q ++ rest) = .ok (some (r, rest)) := by
  have hbrace : NoDigit ('\x7d' :: rest) := by simp [NoDigit]
  cases h with
  | optional => rfl
  | star => rfl
  | many => rfl
  | @exactly digits n hn =>
    have hlt := hn.lt hfit.tail (List.prefix_append _ _).isInfix
    have hcounts : readCounts (digits ++ '\x7d' :: rest) = .ok (.between n (some n), rest) := by
      unfold readCounts
      rw [readCount_numeral hn hlt hbrace]
      simp [readMaxCount]
    simp [readQuantifier, hcounts, Except.map]
  | @atLeast digits n hn =>
    have hlt := hn.lt hfit.tail (List.prefix_append _ _).isInfix
    have hcounts : readCounts (digits ++ ',' :: '\x7d' :: rest) = .ok (.between n none, rest) := by
      unfold readCounts
      rw [readCount_numeral hn hlt (by simp [NoDigit])]
      have hnone : readCount ('\x7d' :: rest) = (none, '\x7d' :: rest) := by simp [readCount]
      simp [readMaxCount, hnone]
    simp [readQuantifier, hcounts, Except.map]
  | @fromTo least most n m hn hm hle =>
    have hinside : most <:+: '\x7b' :: least ++ ',' :: most ++ ['\x7d'] :=
      ⟨'\x7b' :: least ++ [','], ['\x7d'], by simp⟩
    have hlt : n < countLimit := hn.lt hfit ⟨['\x7b'], ',' :: most ++ ['\x7d'], by simp⟩
    have hcounts : readCounts (least ++ ',' :: (most ++ '\x7d' :: rest)) =
        .ok (.between n (some m), rest) := by
      unfold readCounts
      rw [readCount_numeral hn hlt (by simp [NoDigit])]
      simp [readMaxCount, readCount_numeral hm (hm.lt hfit hinside) hbrace, Nat.not_lt.2 hle]
    simp [readQuantifier, hcounts, Except.map]

/-- No quantifier is read where none begins. -/
theorem readQuantifier_eq_none {text : List Char}
    (h : ∀ c ∈ text.head?, isQuantifierStart c = false) : readQuantifier text = .ok none := by
  unfold readQuantifier
  split
  case h_5 => rfl
  all_goals simp [isQuantifierStart] at h

theorem length_readCount_le (text : List Char) : (readCount text).2.length ≤ text.length :=
  List.length_dropWhile_le Char.isDigit text

theorem length_readMaxCount_le (min : Nat) (text : List Char) :
    (readMaxCount min text).2.length ≤ text.length := by
  unfold readMaxCount
  split
  · exact Nat.le_succ_of_le (length_readCount_le _)
  · exact Nat.le_refl _

theorem length_lt_of_readCounts {text rest : List Char} {r : Repetition}
    (h : readCounts text = .ok (r, rest)) : rest.length < text.length := by
  unfold readCounts at h
  split at h
  · cases h
  · rename_i min afterMin hmin
    have hleast := length_readCount_le text
    rw [hmin] at hleast
    split at h
    · rename_i most afterMost hmost
      have hgreatest := length_readMaxCount_le min afterMin
      rw [hmost] at hgreatest
      split at h
      · cases h
      · cases h
        exact Nat.lt_of_lt_of_le hgreatest hleast
    · cases h

/-- Reading a quantifier takes something off the text. -/
theorem length_lt_of_readQuantifier {text rest : List Char} {r : Repetition}
    (h : readQuantifier text = .ok (some (r, rest))) : rest.length < text.length := by
  unfold readQuantifier at h
  split at h
  case h_4 =>
    obtain ⟨⟨r', rest'⟩, hcounts, heq⟩ := map_eq_ok_iff.1 h
    cases heq
    exact Nat.lt_succ_of_lt (length_lt_of_readCounts hcounts)
  case h_5 => cases h
  all_goals
    cases h
    exact Nat.lt_succ_self _

end LexChart.Pattern
