import ImportAtlas.Text.Number

/-!
# Tables

A table is drawn with one column per header between rules of `-` and `+`. Every column is as wide as
its longest cell or header; numbers stand on the right and everything else on the left.

* `Table.cell`: the text of a row in a column, blank where the row is too short.
* `Table.width`: the width of a column.
* `Table.render`, `Table.text`: the lines of the table, and all of them as one text.
-/

namespace ImportAtlas.Text

/-- Headers, and rows of cells that may be shorter or longer than the headers. -/
structure Table where
  headers : List (List Char)
  rows : List (List (List Char))

namespace Table

/-- The cell of a row in a column; missing cells are blank. -/
def cell (row : List (List Char)) (column : Nat) : List Char :=
  row.getD column []

/-- The length of the longest text of a column, its header included. -/
def width (t : Table) (column : Nat) : Nat :=
  (t.headers :: t.rows).foldl (fun w row => max w (cell row column).length) 0

/-- The widths of the columns that have a header. -/
def widths (t : Table) : List Nat :=
  (List.range t.headers.length).map t.width

/-- A text padded with blanks to a width: on the left of a number, else on the right. -/
def padded (text : List Char) (width : Nat) : List Char :=
  let pad := List.replicate (width - text.length) ' '
  if isNumber text then pad ++ text else text ++ pad

def rule (widths : List Nat) : List Char :=
  '+' :: widths.flatMap fun w => List.replicate (w + 2) '-' ++ ['+']

/-- A row of the table: one cell per column. -/
def line (widths : List Nat) (row : List (List Char)) : List Char :=
  '|' :: widths.zipIdx.flatMap fun (w, column) => ' ' :: padded (cell row column) w ++ [' ', '|']

/-- The lines of a table: the headers and the rows between three rules. -/
def render (t : Table) : List (List Char) :=
  let ws := t.widths
  [rule ws, line ws t.headers, rule ws] ++ t.rows.map (line ws) ++ [rule ws]

/-- The table as a text, without a newline behind its last line. -/
def text (t : Table) : List Char :=
  join ['\n'] t.render

end Table

end ImportAtlas.Text
