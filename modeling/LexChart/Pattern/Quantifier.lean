import LexChart.Count
import LexChart.Diagnostic
import LexChart.Repetition
set_option autoImplicit false

/-!
# Quantifiers of the pattern language

A quantifier is `?`, `*`, `+`, or a count between braces: `{n}`, `{n,}` or `{n,m}` with `n ≤ m`.
Counts are strings of ASCII digits whose value is below `countLimit`.  A greatest count beyond it is
read like one that is left out.

Every reader takes what is left of the pattern and gives what it leaves in turn; a reading that
fails says where it stopped.
-/

namespace LexChart.Pattern

/-- Why a reading failed, and what was left of the pattern by then. -/
structure Rejection where
  reason : PatternError
  rest : List Char
  deriving DecidableEq

/-- The value of a string of decimal digits. -/
def decimalValue (digits : List Char) : Nat :=
  digits.foldl (fun value digit => 10 * value + (digit.toNat - '0'.toNat)) 0

/-- The count at the beginning of a text, if there is one and it is not too large, and what follows
its digits. -/
def readCount (text : List Char) : Option Nat × List Char :=
  let digits := text.takeWhile Char.isDigit
  let value := decimalValue digits
  (if digits.isEmpty || countLimit ≤ value then none else some value,
    text.dropWhile Char.isDigit)

/-- The greatest count after the least one and what follows it: the least count itself unless a
comma stands there. -/
def readMaxCount (min : Nat) : List Char → Option Nat × List Char
  | ',' :: rest => readCount rest
  | rest => (some min, rest)

/-- The counts after an opening brace, and the closing brace. -/
def readCounts (text : List Char) : Except Rejection (Repetition × List Char) :=
  match readCount text with
  | (none, rest) => .error ⟨.invalidRepetition, rest⟩
  | (some min, rest) =>
    match readMaxCount min rest with
    | (max, '}' :: rest) =>
      if max.any (· < min) then .error ⟨.invalidRepetition, rest⟩
      else .ok (.between min max, rest)
    | (_, rest) => .error ⟨.invalidRepetition, rest⟩

/-- The quantifier at the beginning of a text, if there is one. -/
def readQuantifier : List Char → Except Rejection (Option (Repetition × List Char))
  | '?' :: rest => .ok (some (.optional, rest))
  | '*' :: rest => .ok (some (.star, rest))
  | '+' :: rest => .ok (some (.many, rest))
  | '{' :: rest => (readCounts rest).map some
  | _ => .ok none

end LexChart.Pattern
