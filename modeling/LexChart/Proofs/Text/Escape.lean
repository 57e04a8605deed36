import LexChart.Text.Escape
import Mathlib.Data.List.Basic
set_option autoImplicit false

/-!
# Escaped text can be read back

An escaped character is one of three things: the character itself, a backslash and a letter, or a
code point.  Which of them it is and where it ends can be told from its characters alone, so that
different texts are never shown in the same way.
-/

namespace LexChart.Text

/-- A list is cut in one way only in front of the first occurrence of an element. -/
theorem append_cons_inj {α : Type} {x : α} {as bs cs ds : List α} (ha : x ∉ as) (hb : x ∉ bs)
    (h : as ++ x :: cs = bs ++ x :: ds) : as = bs ∧ cs = ds := by
  rcases List.append_eq_append_iff.1 h with ⟨more, rfl, hmore⟩ | ⟨more, rfl, hmore⟩
  · cases more with
    | nil => exact ⟨(List.append_nil as).symm, (List.cons.inj hmore).2⟩
    | cons y more =>
      obtain ⟨rfl, -⟩ := List.cons.inj hmore
      exact absurd (List.mem_append_right as List.mem_cons_self) hb
  · cases more with
    | nil => exact ⟨List.append_nil bs, (List.cons.inj hmore).2.symm⟩
    | cons y more =>
      obtain ⟨rfl, -⟩ := List.cons.inj hmore
      exact absurd (List.mem_append_right bs List.mem_cons_self) ha

/-! ## Digits -/

theorem digitChar_inj {m n : Nat} (hm : m < 16) (hn : n < 16) (h : m.digitChar = n.digitChar) :
    m = n := by
  have hall : ∀ m < 16, ∀ n < 16, m.digitChar = n.digitChar → m = n := by decide
  exact hall m hm n hn h

/-- One digit is not several. -/
theorem singleton_ne_toDigits_append (c : Char) (n : Nat) (last : Char) :
    [c] ≠ Nat.toDigits 16 n ++ [last] := by
  intro h
  have hlength := congrArg List.length h
  have hpos := Nat.length_toDigits_pos (b := 16) (n := n)
  rw [List.length_append, List.length_singleton, List.length_singleton] at hlength
  omega

/-- Hexadecimal digits say which number they stand for. -/
theorem toDigits_inj {m n : Nat} (h : Nat.toDigits 16 m = Nat.toDigits 16 n) : m = n := by
  induction m using Nat.strongRecOn generalizing n with
  | ind m ih =>
    have hlt : ∀ k : Nat, k % 16 < 16 := fun k => Nat.mod_lt k (by decide)
    rw [Nat.toDigits_eq_if (by decide), Nat.toDigits_eq_if (n := n) (by decide)] at h
    split at h <;> split at h
    · rename_i hm hn
      exact digitChar_inj hm hn (List.singleton_inj.1 h)
    · exact absurd h (singleton_ne_toDigits_append _ _ _)
    · exact absurd h.symm (singleton_ne_toDigits_append _ _ _)
    · rename_i hm hn
      obtain ⟨hfront, hlast⟩ := List.append_inj' h rfl
      have hdiv : m / 16 = n / 16 := ih (m / 16) (by omega) hfront
      have hmod : m % 16 = n % 16 := digitChar_inj (hlt m) (hlt n) (List.singleton_inj.1 hlast)
      omega

/-- Every hexadecimal digit is the digit of some number. -/
theorem exists_of_mem_toDigits {n : Nat} {c : Char} (h : c ∈ Nat.toDigits 16 n) :
    ∃ k : Nat, c = k.digitChar := by
  induction n using Nat.strongRecOn with
  | ind n ih =>
    rw [Nat.toDigits_eq_if (by decide)] at h
    split at h
    · exact ⟨n, List.mem_singleton.1 h⟩
    · rcases List.mem_append.1 h with h | h
      · exact ih (n / 16) (by omega) h
      · exact ⟨n % 16, List.mem_singleton.1 h⟩

theorem brace_notMem_toDigits (n : Nat) : '\x7d' ∉ Nat.toDigits 16 n := by
  intro h
  obtain ⟨k, hk⟩ := exists_of_mem_toDigits h
  exact Nat.digitChar_ne '\x7d' (by decide) hk.symm

/-! ## One character -/

/-- The character that a backslash and a letter stand for. -/
def unescapedLetter (letter : Char) : Char :=
  if letter = '0' then '\x00'
  else if letter = 't' then '\t'
  else if letter = 'r' then '\r'
  else if letter = 'n' then '\n'
  else letter

/-- The ways in which a character is shown. -/
inductive Shown (c : Char) : List Char → Prop where
  | itself : c ≠ '\\' → Shown c [c]
  | letter {letter : Char} : letter ≠ 'u' → unescapedLetter letter = c → Shown c ['\\', letter]
  | codePoint : Shown c (codePointForm c)

theorem shown_escapeChar (q : Quotation) (c : Char) : Shown c (escapeChar q c) := by
  unfold escapeChar
  split
  · rename_i h
    exact .letter (by decide) h.symm
  split
  · rename_i h
    exact .letter (by decide) h.symm
  split
  · rename_i h
    exact .letter (by decide) h.symm
  split
  · rename_i h
    exact .letter (by decide) h.symm
  split
  · rename_i h
    exact .letter (by decide) h.symm
  rename_i hbackslash
  split
  · rename_i h
    have hquote : c = '\'' ∨ c = '"' := by simpa using h
    split
    · rcases hquote with rfl | rfl
      · exact .letter (by decide) (by decide)
      · exact .letter (by decide) (by decide)
    · exact .itself hbackslash
  split
  · exact .itself hbackslash
  split
  · exact .codePoint
  · exact .itself hbackslash

theorem codePointForm_inj {c c' : Char} {rest rest' : List Char}
    (h : codePointForm c ++ rest = codePointForm c' ++ rest') : c = c' ∧ rest = rest' := by
  have hdigits : Nat.toDigits 16 c.toNat ++ '\x7d' :: rest =
      Nat.toDigits 16 c'.toNat ++ '\x7d' :: rest' := by
    simpa [codePointForm] using h
  obtain ⟨heq, hrest⟩ :=
    append_cons_inj (brace_notMem_toDigits _) (brace_notMem_toDigits _) hdigits
  exact ⟨Char.toNat_inj.1 (toDigits_inj heq), hrest⟩

/-- What is shown says which character it is and where it ends. -/
theorem Shown.inj {c c' : Char} {form form' : List Char} (h : Shown c form) (h' : Shown c' form')
    {rest rest' : List Char} (heq : form ++ rest = form' ++ rest') : c = c' ∧ rest = rest' := by
  cases h with
  | itself hc =>
    cases h' with
    | itself _ => exact List.cons.inj heq
    | letter _ _ => exact absurd (List.cons.inj heq).1 hc
    | codePoint => exact absurd (List.cons.inj heq).1 hc
  | letter hletter hc =>
    cases h' with
    | itself hc' => exact absurd (List.cons.inj heq).1.symm hc'
    | letter _ hc' =>
      obtain ⟨rfl, hrest⟩ := List.cons.inj (List.cons.inj heq).2
      exact ⟨hc.symm.trans hc', hrest⟩
    | codePoint => exact absurd (List.cons.inj (List.cons.inj heq).2).1 hletter
  | codePoint =>
    cases h' with
    | itself hc' => exact absurd (List.cons.inj heq).1.symm hc'
    | letter hletter' _ =>
      exact absurd (List.cons.inj (List.cons.inj heq).2).1.symm hletter'
    | codePoint => exact codePointForm_inj heq

theorem escapeChar_inj (q : Quotation) {c c' : Char} {rest rest' : List Char}
    (h : escapeChar q c ++ rest = escapeChar q c' ++ rest') : c = c' ∧ rest = rest' :=
  (shown_escapeChar q c).inj (shown_escapeChar q c') h

theorem escapeChar_ne_nil (q : Quotation) (c : Char) : escapeChar q c ≠ [] := by
  cases hform : escapeChar q c with
  | nil =>
    have hshown := shown_escapeChar q c
    rw [hform] at hshown
    cases hshown
  | cons first rest => exact List.cons_ne_nil first rest

/-! ## Texts -/

/-- Texts that are shown in the same way are the same. -/
theorem flatMap_escapeChar_inj (q : Quotation) {s t : List Char}
    (h : s.flatMap (escapeChar q) = t.flatMap (escapeChar q)) : s = t := by
  induction s generalizing t with
  | nil =>
    cases t with
    | nil => rfl
    | cons c t =>
      rw [List.flatMap_nil, List.flatMap_cons] at h
      exact absurd (List.append_eq_nil_iff.1 h.symm).1 (escapeChar_ne_nil q c)
  | cons c s ih =>
    cases t with
    | nil =>
      rw [List.flatMap_nil, List.flatMap_cons] at h
      exact absurd (List.append_eq_nil_iff.1 h).1 (escapeChar_ne_nil q c)
    | cons c' t =>
      rw [List.flatMap_cons, List.flatMap_cons] at h
      obtain ⟨rfl, hrest⟩ := escapeChar_inj q h
      rw [ih hrest]

theorem quotedBareChar_inj {c c' : Char} (h : quotedBareChar c = quotedBareChar c') : c = c' := by
  have hlist := String.ofList_injective h
  have hform : escapeChar .unquoted c ++ ['\''] = escapeChar .unquoted c' ++ ['\''] :=
    (List.cons.inj hlist).2
  exact (escapeChar_inj .unquoted hform).1

theorem quotedString_inj {s t : List Char} (h : quotedString s = quotedString t) : s = t := by
  have hlist := String.ofList_injective h
  have hform : s.flatMap (escapeChar .double) ++ ['"'] = t.flatMap (escapeChar .double) ++ ['"'] :=
    (List.cons.inj hlist).2
  exact flatMap_escapeChar_inj .double (List.append_cancel_right hform)

theorem quotedBareChar_ne_quotedString (c : Char) (s : List Char) :
    quotedBareChar c ≠ quotedString s := by
  intro h
  have hlist := String.ofList_injective h
  exact absurd (List.cons.inj hlist).1 (by decide)

end LexChart.Text
