import LexChart.Text.Extender
import LexChart.Text.Unprintable
set_option autoImplicit false

/-!
# Escaped text

How characters and strings are shown in messages, tables and printed patterns.  A character is
shown as itself unless that would be invisible, would run into its neighbour or would end the
quotation: NUL, tab, newline, carriage return, backslash and quotes have a two-character form, and
an extender or a character without a visible form is written as its code point, `\u` followed by
the hexadecimal digits in braces.

Which quotes are escaped depends on the quotation the character stands in.
-/

namespace LexChart.Text

/-- Where an escaped character stands. -/
inductive Quotation where
  /-- Unquoted: both kinds of quotes are escaped. -/
  | unquoted
  /-- Between single quotes: only these are escaped. -/
  | single
  /-- Between double quotes: only these are escaped. -/
  | double
  deriving DecidableEq

/-- The quotation needs this quote escaped. -/
def Quotation.escapes : Quotation → Char → Bool
  | .unquoted, c => c = '\'' || c = '"'
  | .single, c => c = '\''
  | .double, c => c = '"'

/-- A visible ASCII character, which is never written as its code point. -/
def isVisibleAscii (c : Char) : Bool := 0x20 ≤ c.toNat && c.toNat < 0x7F

/-- The character as its code point in lower case hexadecimal digits. -/
def codePointForm (c : Char) : List Char :=
  ['\\', 'u', '\x7b'] ++ Nat.toDigits 16 c.toNat ++ ['\x7d']

/-- The escaped form of one character. -/
def escapeChar (q : Quotation) (c : Char) : List Char :=
  if c = '\x00' then ['\\', '0']
  else if c = '\t' then ['\\', 't']
  else if c = '\r' then ['\\', 'r']
  else if c = '\n' then ['\\', 'n']
  else if c = '\\' then ['\\', '\\']
  else if c = '\'' || c = '"' then if q.escapes c then ['\\', c] else [c]
  else if isVisibleAscii c then [c]
  else if isExtender c || isUnprintable c then codePointForm c
  else [c]

/-- A character as it stands in a printed pattern. -/
def bareChar (c : Char) : String := String.ofList (escapeChar .unquoted c)

/-- A character between single quotes. -/
def quotedChar (c : Char) : String := String.ofList (['\''] ++ escapeChar .single c ++ ['\''])

/-- A character between single quotes in which double quotes are escaped as well. -/
def quotedBareChar (c : Char) : String :=
  String.ofList (['\''] ++ escapeChar .unquoted c ++ ['\''])

/-- A string between double quotes. -/
def quotedString (s : List Char) : String :=
  String.ofList (['"'] ++ s.flatMap (escapeChar .double) ++ ['"'])

/-- The names of a list, separated by commas. -/
def commaSeparated (names : List String) : String := ", ".intercalate names

end LexChart.Text
