import LexChart.Fault
import LexChart.Text.Width
set_option autoImplicit false

/-!
# Bordered tables

A table is a list of rows of cells.  It is drawn with a border of `+`, `-` and `|`, a separator
above the first row and below every row, each column as wide as its widest line and every line of a
cell left aligned with one space on either side.  A cell may hold several lines; its row is as tall
as its tallest cell, and at least one line tall.

The columns that set a colour are counted character by character, those of the line are not, and a
line of ligatures may come out with more of the former.  A table with such a line is not drawn.
-/

namespace LexChart.Text

/-- The lines of a text.  A newline ends a line and is not part of it, nor is a carriage return
right before it; what follows the last newline is a line unless it is empty. -/
def linesFrom (line : List Char) : List Char → List (List Char)
  | [] => if line.isEmpty then [] else [line.reverse]
  | '\n' :: rest => (dropReturn line).reverse :: linesFrom [] rest
  | c :: rest => linesFrom (c :: line) rest
where
  /-- The reversed line without a carriage return at its end. -/
  dropReturn : List Char → List Char
    | '\r' :: line => line
    | line => line

/-- The lines of a text. -/
def lines (text : List Char) : List (List Char) := linesFrom [] text

/-- The line does not set its colour in more columns than it has. -/
def checkLine (line : List Char) : Except Fault Unit :=
  let columns := columns line
  let hidden := colourColumns .text line
  if hidden ≤ columns then .ok () else .error (.hiddenColumns columns hidden line)

/-- A table: rows of cells, each cell a list of lines. -/
structure Grid where
  rows : List (List (List (List Char)))

namespace Grid

/-- The table of these cells. -/
def ofCells (rows : List (List String)) : Grid :=
  ⟨rows.map fun row => row.map fun cell => lines cell.toList⟩

/-- The number of columns of the longest row. -/
def columns (g : Grid) : Nat := (g.rows.map List.length).foldl max 0

/-- The width of the widest line in a column. -/
def columnWidth (g : Grid) (column : Nat) : Nat :=
  (g.rows.flatMap fun row => ((row[column]?).getD []).map width).foldl max 0

/-- The widths of all columns. -/
def widths (g : Grid) : List Nat := (List.range g.columns).map g.columnWidth

/-- The line between two rows. -/
def separator (widths : List Nat) : List Char :=
  ['+'] ++ (widths.flatMap fun w => List.replicate (w + 2) '-' ++ ['+']) ++ ['\n']

/-- One line of text of a row: line `k` of each cell, padded to the width of its column. -/
def textLine (widths : List Nat) (row : List (List (List Char))) (k : Nat) : List Char :=
  ['|'] ++ (widths.zipIdx.flatMap fun (w, column) =>
    let line := (((row[column]?).getD [])[k]?).getD []
    [' '] ++ line ++ List.replicate (w - width line) ' ' ++ [' ', '|']) ++ ['\n']

/-- A row is as tall as its tallest cell, and at least one line tall. -/
def height (row : List (List (List Char))) : Nat := (row.map List.length).foldl max 1

/-- The drawn table. -/
def draw (g : Grid) : List Char :=
  let widths := g.widths
  separator widths ++ g.rows.flatMap fun row =>
    ((List.range (height row)).flatMap (textLine widths row)) ++ separator widths

/-- The drawn table as a string.  Lines are checked cell by cell from the first row on. -/
def text (g : Grid) : Except Fault String := do
  g.rows.flatten.flatten.forM checkLine
  pure (String.ofList g.draw)

end Grid

end LexChart.Text
