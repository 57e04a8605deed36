import LexChart.Charset.CharClass
import LexChart.Pattern.Quantifier
set_option autoImplicit false

/-!
# Escapes and sets of the pattern language

After a backslash, `n`, `t`, `r` and `0` stand for a control character, `d`, `w` and `s` for the
digits, the word characters and the blanks of ASCII, their capitals for all other characters, and
every other character for itself.

Between brackets stand single characters, escapes, classes, and ranges of two characters joined by a
dash.  A dash right before the closing bracket is a dash; a caret after the opening one negates the
set.
-/

namespace LexChart.Pattern

/-- What stands after a backslash. -/
inductive Escaped where
  | char (c : Char)
  /-- The characters of some intervals, or all others. -/
  | cls (intervals : List Interval) (negated : Bool)

/-- The ASCII digits. -/
def digits : List Interval := [⟨'0', '9', by decide⟩]

/-- The ASCII letters and digits, and the underscore. -/
def wordCharacters : List Interval :=
  [⟨'0', '9', by decide⟩, ⟨'A', 'Z', by decide⟩, .single '_', ⟨'a', 'z', by decide⟩]

/-- The blanks of ASCII: tab, the line breaks, and the space. -/
def blanks : List Interval := [⟨'\t', '\r', by decide⟩, .single ' ']

/-- The meaning of a character after a backslash. -/
def escaped (c : Char) : Escaped :=
  match c with
  | 'n' => .char '\n'
  | 't' => .char '\t'
  | 'r' => .char '\r'
  | '0' => .char '\x00'
  | 'd' => .cls digits false
  | 'D' => .cls digits true
  | 'w' => .cls wordCharacters false
  | 'W' => .cls wordCharacters true
  | 's' => .cls blanks false
  | 'S' => .cls blanks true
  | c => .char c

/-- The intervals of a class. -/
def classIntervals (intervals : List Interval) (negated : Bool) : List Interval :=
  if negated then Interval.invert intervals else intervals

/-- The range between two characters, read up to `rest`. -/
def rangeBetween (min max : Char) (rest : List Char) : Except Rejection Interval :=
  match Interval.ofChars? min max with
  | some range => .ok range
  | none => .error ⟨.invalidRange min max, rest⟩

/-- Reads the items of a set up to the closing bracket.  `items` holds the intervals read so far,
the last one first; `start` is the last single character, if it may still open a range. -/
def readItems (items : List Interval) (start : Option Char) :
    List Char → Except Rejection (List Interval × List Char)
  | [] => .error ⟨.unterminatedSet, []⟩
  | c :: rest =>
    if c = ']' then .ok (items, rest)
    else if c = '-' then
      if rest.head? = some ']' then readItems (.single '-' :: items) none rest
      else
        match start, rest with
        | none, rest => .error ⟨.rangeWithoutStart, rest⟩
        | some _, [] => .error ⟨.unterminatedSet, []⟩
        | some min, max :: rest =>
          if max = '\\' then
            match rest with
            | [] => .error ⟨.danglingEscape, []⟩
            | e :: rest =>
              match escaped e with
              | .char max => do
                let range ← rangeBetween min max rest
                readItems (range :: items.tail) none rest
              | .cls _ _ => .error ⟨.invalidRange min '\\', rest⟩
          else do
            let range ← rangeBetween min max rest
            readItems (range :: items.tail) none rest
    else if c = '\\' then
      match rest with
      | [] => .error ⟨.danglingEscape, []⟩
      | e :: rest =>
        match escaped e with
        | .char c => readItems (.single c :: items) (some c) rest
        | .cls intervals negated =>
          readItems ((classIntervals intervals negated).reverse ++ items) none rest
    else readItems (.single c :: items) (some c) rest

/-- The set after an opening bracket. -/
def readSet (text : List Char) : Except Rejection (CharClass × List Char) := do
  let negated : Bool := text.head? = some '^'
  let (items, rest) ← readItems [] none (if negated then text.tail else text)
  pure (CharClass.ofSet items negated, rest)

end LexChart.Pattern
