import LexChart.Pattern.Language
set_option autoImplicit false

/-!
# The grammar of patterns

What a pattern may look like and what it means, as relations between texts and languages that say
nothing about reading.

* `IsChoice`, `IsSequence`, `IsQuantified` and `IsAtom` relate the texts of a pattern to the
  languages they denote.  Quantifiers apply one after the other to the atom before them, and what
  stands side by side binds tighter than a bar.
* `IsQuantifier` relates the texts of quantifiers to repetitions.
* `IsSet` cuts what stands behind an opening bracket into items and what follows the closing one;
  `SetItem.Holds` gives the characters that an item lists.
-/

namespace LexChart.Pattern

/-! ## Quantifiers -/

/-- A string of digits and the number it denotes. -/
def IsNumeral (text : List Char) (value : Nat) : Prop :=
  text ≠ [] ∧ (∀ c ∈ text, c.isDigit = true) ∧ value = decimalValue text

/-- A quantifier and the repetition it stands for. -/
inductive IsQuantifier : List Char → Repetition → Prop where
  | optional : IsQuantifier ['?'] .optional
  | star : IsQuantifier ['*'] .star
  | many : IsQuantifier ['+'] .many
  | exactly {digits : List Char} {n : Nat} : IsNumeral digits n →
      IsQuantifier ('\x7b' :: digits ++ ['\x7d']) (.between n (some n))
  | atLeast {digits : List Char} {n : Nat} : IsNumeral digits n →
      IsQuantifier ('\x7b' :: digits ++ [',', '\x7d']) (.between n none)
  | fromTo {least most : List Char} {n m : Nat} : IsNumeral least n → IsNumeral most m → n ≤ m →
      IsQuantifier ('\x7b' :: least ++ ',' :: most ++ ['\x7d']) (.between n (some m))

/-! ## Sets -/

/-- The characters of what stands after a backslash. -/
def Escaped.Holds : Escaped → Char → Prop
  | .char c, d => d = c
  | .cls intervals false, d => Interval.Covers intervals d
  | .cls intervals true, d => ¬ Interval.Covers intervals d

/-- A character of a set as it is written, or a backslash and the character behind it. -/
inductive Sign where
  | plain (c : Char)
  | escape (e : Char)
  deriving DecidableEq

namespace Sign

/-- The text of a sign. -/
def text : Sign → List Char
  | plain c => [c]
  | escape e => ['\\', e]

/-- What a sign stands for. -/
def meaning : Sign → Escaped
  | plain c => .char c
  | escape e => escaped e

/-- The sign is none of some characters that need a backslash where it stands. -/
def Avoids (special : List Char) : Sign → Prop
  | plain c => c ∉ special
  | escape _ => True

end Sign

/-- An item of a set: a character or a class, a range, or the dash in front of the bracket. -/
inductive SetItem where
  | one (sign : Sign)
  | range (lo hi : Sign)
  | dash
  deriving DecidableEq

namespace SetItem

/-- The text of an item. -/
def text : SetItem → List Char
  | one sign => sign.text
  | range lo hi => lo.text ++ '-' :: hi.text
  | dash => ['-']

/-- The characters that an item lists. -/
def Holds : SetItem → Char → Prop
  | one sign, c => sign.meaning.Holds c
  | range lo hi, c => ∃ min max, lo.meaning = .char min ∧ hi.meaning = .char max ∧ min ≤ c ∧ c ≤ max
  | dash, c => c = '-'

end SetItem

/-- An item that may stand anywhere in a set.  The ends of a range are characters, the first one not
after the second. -/
inductive IsSetItem : SetItem → Prop where
  | one {sign : Sign} : sign.Avoids [']', '-', '\\'] → IsSetItem (.one sign)
  | range {lo hi : Sign} {min max : Char} : lo.Avoids [']', '-', '\\'] →
      hi.Avoids [']', '\\'] → lo.meaning = .char min → hi.meaning = .char max → min ≤ max →
      IsSetItem (.range lo hi)

/-- A text cut into items, a dash perhaps behind all others, and what stands behind the closing
bracket. -/
inductive IsSetItems : List Char → List SetItem → List Char → Prop where
  | close {rest : List Char} : IsSetItems (']' :: rest) [] rest
  | dash {rest : List Char} : IsSetItems ('-' :: ']' :: rest) [.dash] rest
  | cons {item : SetItem} {items : List SetItem} {text rest : List Char} : IsSetItem item →
      IsSetItems text items rest → IsSetItems (item.text ++ text) (item :: items) rest

/-- A set behind its opening bracket: a caret perhaps, the items, and what stands behind the closing
bracket. -/
inductive IsSet : List Char → Bool → List SetItem → List Char → Prop where
  | plain {text rest : List Char} {items : List SetItem} : text.head? ≠ some '^' →
      IsSetItems text items rest → IsSet text false items rest
  | negated {text rest : List Char} {items : List SetItem} : IsSetItems text items rest →
      IsSet ('^' :: text) true items rest

/-! ## Patterns -/

/-- Characters that stand for themselves only behind a backslash. -/
def reserved : List Char := ['|', ')', '(', '[', '.', '\\', '?', '*', '+', '\x7b']

/-- The one-character words of a property. -/
def ofProperty (p : Char → Prop) : Language Char := {w | ∃ c, w = [c] ∧ p c}

mutual

/-- Sequences separated by bars. -/
inductive IsChoice : List Char → Language Char → Prop where
  | one {s : List Char} {l : Language Char} : IsSequence s l → IsChoice s l
  | or {s t : List Char} {l m : Language Char} : IsSequence s l → IsChoice t m →
      IsChoice (s ++ '|' :: t) (l + m)

/-- Quantified atoms side by side. -/
inductive IsSequence : List Char → Language Char → Prop where
  | nil : IsSequence [] 1
  | cons {s t : List Char} {l m : Language Char} : IsQuantified s l → IsSequence t m →
      IsSequence (s ++ t) (l * m)

/-- An atom and its quantifiers. -/
inductive IsQuantified : List Char → Language Char → Prop where
  | atom {s : List Char} {l : Language Char} : IsAtom s l → IsQuantified s l
  | quantify {s q : List Char} {l : Language Char} {r : Repetition} : IsQuantified s l →
      IsQuantifier q r → IsQuantified (s ++ q) (r.language l)

/-- A group, a set, a class or a character. -/
inductive IsAtom : List Char → Language Char → Prop where
  | group {s : List Char} {l : Language Char} : IsChoice s l → IsAtom ('(' :: s ++ [')']) l
  | set {s : List Char} {cls : CharClass} : readSet (s ++ [']']) = .ok (cls, []) →
      IsAtom ('[' :: s ++ [']']) cls.language
  | any : IsAtom ['.'] (ofProperty fun _ => True)
  | escape (e : Char) : IsAtom ['\\', e] (ofProperty (escaped e).Holds)
  | char {c : Char} : c ∉ reserved → IsAtom [c] (ofProperty (· = c))

end

end LexChart.Pattern
