import LexChart.Text.Emoji
import LexChart.Text.Wide
import LexChart.Text.ZeroWidth
set_option autoImplicit false

/-!
# Display width

The number of columns of a terminal that a line takes.  Most characters take one column, the wide
ones two, and those that attach to a neighbour none.  A few sequences are drawn as one sign: emoji
with a selector, a skin tone or joined to others, flags, and ligatures of several scripts.  What a
character takes then depends on what stands to the right of it, so a line is measured from its end.
Of a sequence that sets a colour only the escape character at its start takes a column.
-/

namespace LexChart.Text

/-- A control character. -/
def isControl (c : Char) : Bool := c.toNat < 0x20 || (0x7F ≤ c.toNat && c.toNat < 0xA0)

/-- The number of columns a character takes by itself. -/
def charWidth (c : Char) : Nat :=
  if c.toNat ≤ 0xA0 then 1
  else if c = '\u17D8' then 3
  else if isWide c then 2
  else if isZeroWidth c then 0
  else 1

/-! ## Sequences -/

/-- The joiner that ties two signs together. -/
def joiner : Char := '\u200D'

/-- The sign that begins a text, as far as a character before it may join it.  A sign is tied if a
joiner stands in front of it. -/
inductive Sign where
  | plain
  | emoji
  | skinTone
  /-- One flag letter, or several. -/
  | flag (several : Bool)
  | tiedEmoji
  /-- A tied sequence that begins with the frame of a keycap. -/
  | tiedKeycap
  /-- A tied sequence that begins with this many flag letters. -/
  | tiedFlag (letters : Nat)
  /-- The end of the tags of a regional flag, tied: so many digits before so many letters. -/
  | tiedTags (digits letters : Nat)
  | alef
  | lamed (tied : Bool)
  | ya (tied : Bool)
  /-- The Buginese vowel sign before a tied letter ya. -/
  | vowelYa
  | tifinagh (tied : Bool)
  /-- The Tifinagh joiner before a consonant. -/
  | tifinaghJoiner
  | lisuTone
  | orkhon (tied : Bool)
  | khmer
  deriving DecidableEq

namespace Sign

/-- A letter that may become part of a ligature. -/
def isLetter : Sign → Bool
  | .alef | .lamed _ | .ya _ | .vowelYa | .tifinagh _ | .tifinaghJoiner | .lisuTone | .orkhon _
  | .khmer => true
  | _ => false

/-- The sign with a joiner in front of it, if it is a letter that one may stand before. -/
def tie? : Sign → Option Sign
  | .lamed _ => some (.lamed true)
  | .ya _ => some (.ya true)
  | .tifinagh _ => some (.tifinagh true)
  | .orkhon _ => some (.orkhon true)
  | .vowelYa => some .vowelYa
  | .tifinaghJoiner => some .tifinaghJoiner
  | .lisuTone => some .lisuTone
  | .khmer => some .khmer
  | _ => none

/-- A consonant of Tifinagh. -/
def isTifinagh (c : Char) : Bool := ('\u2D31' ≤ c && c ≤ '\u2D65') || c = '\u2D6F'

/-- Alef and the letters of its shape. -/
def isAlef (c : Char) : Bool :=
  c ∈ ['\u0622', '\u0623', '\u0625', '\u0627', '\u0675', '\u0773', '\u0774'] ||
    ('\u0671' ≤ c && c ≤ '\u0673') || ('\u0870' ≤ c && c ≤ '\u0882')

/-- Lam and the letters of its shape. -/
def isLam (c : Char) : Bool :=
  c ∈ ['\u0644', '\u076A', '\u08A6', '\u08C7'] || ('\u06B5' ≤ c && c ≤ '\u06B8')

/-- A Khmer letter that can be written below another one. -/
def isSubscriptKhmer (c : Char) : Bool :=
  ('\u1780' ≤ c && c ≤ '\u1798' && c ∉ ['\u1783', '\u1788', '\u178D', '\u1794']) ||
    c ∈ ['\u179B', '\u179C', '\u179D', '\u17A0', '\u17A2', '\u17A7', '\u17AB', '\u17AC', '\u17AF']

/-- A letter among the tags that name the region of a flag. -/
def isTagLetter (c : Char) : Bool := 0xE0061 ≤ c.toNat && c.toNat ≤ 0xE007A

/-- A digit among the tags that name the region of a flag. -/
def isTagDigit (c : Char) : Bool := 0xE0030 ≤ c.toNat && c.toNat ≤ 0xE0039

/-- The sign that a single character is. -/
def ofChar (c : Char) : Sign :=
  if isFlagLetter c then .flag false
  else if isSkinTone c then .skinTone
  else if isEmoji c then .emoji
  else if isAlef c then .alef
  else if c = '\u05DC' then .lamed false
  else if c = '\u1A10' then .ya false
  else if isTifinagh c then .tifinagh false
  else if c = '\uA4FC' || c = '\uA4FD' then .lisuTone
  else if c.toNat = 0x10C03 then .orkhon false
  else if isSubscriptKhmer c then .khmer
  else .plain

/-- If the character forms a sequence with the sign to the right of it: by how many columns the
sequence is wider than that sign, and the sign that the sequence is. -/
def extend? (c : Char) : Sign → Option (Int × Sign)
  | .plain => none
  | .emoji => if c = joiner then some (0, .tiedEmoji) else none
  | .skinTone =>
    if isTintable c then some (0, .emoji) else if c = joiner then some (0, .tiedEmoji) else none
  | .flag several =>
    if isFlagLetter c then some (1, .flag true)
    else if several && c = joiner then some (0, .tiedEmoji) else none
  | .tiedEmoji =>
    if c = '\u20E3' then some (0, .tiedKeycap)
    else if c.toNat = 0xE007F then some (0, .tiedTags 0 0)
    else if isFlagLetter c then some (1, .tiedFlag 1)
    else if isSkinTone c then some (0, .skinTone)
    else if isEmoji c then some (0, .emoji) else none
  | .tiedKeycap => none
  | .tiedFlag letters =>
    if isFlagLetter c then some (if letters % 2 = 1 then -1 else 3, .tiedFlag (letters + 1))
    else if 2 ≤ letters && c = joiner then some (0, .tiedEmoji) else none
  | .tiedTags digits letters =>
    if isTagLetter c && digits = 0 && letters < 6 then some (0, .tiedTags 0 (letters + 1))
    else if isTagDigit c && digits < 3 && letters ≤ 4 then some (0, .tiedTags (digits + 1) letters)
    else if c.toNat = 0x1F3F4 && (digits = 3 || (digits = 0 && 3 ≤ letters)) then some (0, .emoji)
    else none
  | .alef =>
    if isLam c then some (0, .plain) else if isTransparent c then some (0, .alef) else none
  | .lamed tied => if tied && c = '\u05D0' then some (0, .plain) else none
  | .ya tied => if tied && c = '\u1A17' then some (0, .vowelYa) else none
  | .vowelYa => if c = '\u1A15' then some (0, .plain) else none
  | .tifinagh tied =>
    if c = '\u2D7F' then some (1, .tifinaghJoiner)
    else if tied && isTifinagh c then some (0, .plain) else none
  | .tifinaghJoiner => if isTifinagh c then some (-1, .plain) else none
  | .lisuTone => if '\uA4F8' ≤ c && c ≤ '\uA4FB' then some (0, .plain) else none
  | .orkhon tied => if tied && c.toNat = 0x10C32 then some (0, .plain) else none
  | .khmer => if c = '\u17D2' then some (-1, .plain) else none

end Sign

/-- A mark that a display may ignore and that leaves the letters around it joined. -/
def isIgnorableMark (c : Char) : Bool :=
  c ∈ ['\u034F', '\u17B4', '\u17B5', '\u180B', '\u180C', '\u180D', '\u180F'] ||
    ('\uFE00' ≤ c && c ≤ '\uFE0F') || (0xE0100 ≤ c.toNat && c.toNat ≤ 0xE01EF)

/-- What stands to the right of a character: a sign, and which selectors stand before it. -/
structure Surrounding where
  sign : Sign
  selectsEmoji : Bool
  selectsText : Bool
  deriving DecidableEq

namespace Surrounding

/-- Nothing that a character before it would join. -/
def nothing : Surrounding := ⟨.plain, false, false⟩

/-- The surrounding of a character that has the selector of emoji before it. -/
def selectEmoji (s : Surrounding) : Surrounding :=
  if s.sign.isLetter || s.sign = .tiedEmoji || s.sign = .tiedKeycap then
    { s with selectsEmoji := true }
  else ⟨.plain, true, false⟩

/-- The surrounding of a character that has the selector of text before it. -/
def selectText (s : Surrounding) : Surrounding :=
  if s.sign.isLetter then { s with selectsText := true } else ⟨.plain, false, true⟩

/-- The surrounding of a character that a selector of emoji before it does not apply to. -/
def dropEmoji (s : Surrounding) : Surrounding :=
  if s.sign.isLetter then { s with selectsEmoji := false } else nothing

/-- The columns a character takes by itself, and what it is to the character before it. -/
def alone (c : Char) : Int × Surrounding :=
  if c = '\uFE0F' then (0, ⟨.plain, true, false⟩)
  else if c = '\uFE0E' then (0, ⟨.plain, false, true⟩)
  else (charWidth c, ⟨Sign.ofChar c, false, false⟩)

/-- The columns a character adds to the sign to the right of it, where no selector applies. -/
def besideSign (c : Char) (sign : Sign) : Int × Surrounding :=
  match if c = joiner then sign.tie? else none with
  | some tied => (0, ⟨tied, false, false⟩)
  | none =>
    if sign.tie?.isSome && isIgnorableMark c then (0, ⟨sign, false, false⟩)
    else match sign.extend? c with
      | some (columns, sequence) => (columns, ⟨sequence, false, false⟩)
      | none => alone c

/-- The columns a character adds, where a selector of emoji does not apply. -/
def besideText (c : Char) (s : Surrounding) : Int × Surrounding :=
  if c.toNat ≤ 0xA0 then (1, nothing)
  else if s = nothing then alone c
  else if c = '\uFE0F' then (0, s.selectEmoji)
  else if c = '\uFE0E' then (0, s.selectText)
  else if s.selectsText && isNarrowable c then (1, nothing)
  else besideSign c s.sign

/-- The columns a character adds to what stands to the right of it, and what they are together to
the character before them. -/
def add (c : Char) (s : Surrounding) : Int × Surrounding :=
  if s.selectsEmoji then
    if isSelectable c then
      (if s.sign = .tiedEmoji || s.sign = .tiedKeycap then 0 else 2, ⟨.emoji, false, false⟩)
    else besideText c s.dropEmoji
  else besideText c s

end Surrounding

/-- The number of columns that the characters of a line take. -/
def columns (s : List Char) : Nat :=
  (s.foldr (fun c (total, right) =>
    let (columns, here) := right.add c
    (total + columns, here)) ((0 : Int), Surrounding.nothing)).1.toNat

/-! ## Colours -/

/-- Where in a sequence that sets a colour a character stands. -/
inductive ColourState where
  /-- In the text. -/
  | text
  /-- After the escape character. -/
  | escaped
  /-- Between the bracket and the final `m`. -/
  | code
  deriving DecidableEq

/-- How many columns of a line belong to sequences that set a colour, without the escape character
that begins them. -/
def colourColumns : ColourState → List Char → Nat
  | _, [] => 0
  | .text, c :: rest => colourColumns (if c = '\x1b' then .escaped else .text) rest
  | .escaped, c :: rest =>
    if c = '[' then 1 + colourColumns .code rest else colourColumns .text rest
  | .code, c :: rest =>
    (if isControl c || charWidth c = 0 then 0 else 1) +
      colourColumns (if c = 'm' then .text else .code) rest

/-- The number of columns a line takes. -/
def width (s : List Char) : Nat := columns s - colourColumns .text s

end LexChart.Text
