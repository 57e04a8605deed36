import LexChart.Count
set_option autoImplicit false

/-!
# Positions in a text

A cursor counts lines from one and columns from zero.  A newline moves it to the beginning of the
next line, every other character one column on.  A span lies between two cursors.

No text in memory is long enough for a cursor to leave the counts behind, but one that a caller
makes up may stand at the last of them.  `checked` tells whether it has gone further.
-/

namespace LexChart

/-- A place between two characters of a text. -/
structure Cursor where
  line : Nat := 1
  column : Nat := 0
  deriving DecidableEq

namespace Cursor

/-- The beginning of a text. -/
def start : Cursor := {}

/-- The beginning of the next line. -/
def nextLine (c : Cursor) : Cursor := ⟨c.line + 1, 0⟩

/-- One column on. -/
def nextColumn (c : Cursor) : Cursor := { c with column := c.column + 1 }

/-- The place after a character. -/
def advance (c : Cursor) (ch : Char) : Cursor :=
  if ch = '\n' then c.nextLine else c.nextColumn

/-- The place after some characters. -/
def advanceAll (c : Cursor) (chars : List Char) : Cursor := chars.foldl advance c

/-- The cursor, if its line and its column are counts. -/
def checked (c : Cursor) : Except Fault Cursor := do
  let line ← checkCount c.line
  let column ← checkCount c.column
  pure ⟨line, column⟩

/-- The place after some characters, if all places on the way there are counts. -/
def advanceChecked (c : Cursor) (chars : List Char) : Except Fault Cursor :=
  chars.foldlM (fun c ch => (c.advance ch).checked) c

/-- Cursors are ordered by line, then by column. -/
def compare (a b : Cursor) : Ordering :=
  (Ord.compare a.line b.line).then (Ord.compare a.column b.column)

/-- The earlier of two cursors. -/
def earlier (a b : Cursor) : Cursor := if (a.compare b).isLE then a else b

/-- The later of two cursors. -/
def later (a b : Cursor) : Cursor := if (a.compare b).isLE then b else a

/-- Line and column. -/
def text (c : Cursor) : String := toString c.line ++ ":" ++ toString c.column

end Cursor

/-- The part of a text between two cursors. -/
structure Span where
  start : Cursor := .start
  stop : Cursor := .start
  deriving DecidableEq

namespace Span

/-- The span of nothing at a cursor. -/
def point (c : Cursor) : Span := ⟨c, c⟩

/-- The span grown to the beginning of the next line. -/
def nextLine (s : Span) : Span := { s with stop := s.stop.nextLine }

/-- The span grown by one column. -/
def nextColumn (s : Span) : Span := { s with stop := s.stop.nextColumn }

/-- The span, if its end is at counts. -/
def checked (s : Span) : Except Fault Span := s.stop.checked.map fun stop => { s with stop }

/-- The smallest span around all spans of a list; that of nothing is the span at the beginning. -/
def union : List Span → Span
  | [] => {}
  | first :: rest =>
    rest.foldl (fun s t => ⟨s.start.earlier t.start, s.stop.later t.stop⟩) first

/-- The two ends. -/
def text (s : Span) : String := s.start.text ++ ".." ++ s.stop.text

end Span

end LexChart
