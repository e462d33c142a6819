import ImportAtlas.Text.Chars

/-!
# Character grids

A screen is a dense grid of cells, each with a character and a style. Writing outside the grid does
nothing, and every cell holds a value at all times.

* `Grid.cell?`, `Grid.set`, `Grid.put`, `Grid.fillRow`: reading and writing.
* `Grid.blank`, `Grid.clear`, `Grid.resize`: grids without content.
* `Grid.text`: the rows, each followed by a newline.
-/

namespace ImportAtlas

/-- The colours of a terminal: its own one, those with a name, mixtures of red, green and blue, and
those of its palette by their numbers. -/
inductive Colour where
  | reset
  | black
  | darkGrey
  | red
  | darkRed
  | green
  | darkGreen
  | yellow
  | darkYellow
  | blue
  | darkBlue
  | magenta
  | darkMagenta
  | cyan
  | darkCyan
  | white
  | grey
  | rgb (red green blue : UInt8)
  | numbered (n : UInt8)
deriving DecidableEq, Repr, Inhabited

/-- The colours of a cell. -/
structure Style where
  foreground : Colour := .reset
  background : Colour := .reset
deriving DecidableEq, Repr, Inhabited

def Style.inverted : Style :=
  ⟨.black, .white⟩

def Style.coloured (c : Colour) : Style :=
  ⟨c, .reset⟩

structure Cell where
  char : Char := ' '
  style : Style := {}
deriving DecidableEq, Repr, Inhabited

structure ScreenSize where
  columns : Nat
  rows : Nat
deriving DecidableEq, Repr, Inhabited

/-- A place on a screen or in what it shows, counted from the upper left. -/
structure Point where
  x : Nat := 0
  y : Nat := 0
deriving DecidableEq, Repr, Inhabited

/-- A grid of cells, row by row. -/
structure Grid where
  size : ScreenSize
  cells : Vector Cell (size.rows * size.columns)
deriving DecidableEq, Repr

namespace Grid

/-- The grid of a size whose cells are all blank. -/
def blank (size : ScreenSize) : Grid :=
  { size, cells := Vector.replicate _ {} }

instance : Inhabited Grid :=
  ⟨blank ⟨0, 0⟩⟩

def inside (g : Grid) (x y : Nat) : Prop :=
  x < g.size.columns ∧ y < g.size.rows

instance (g : Grid) (x y : Nat) : Decidable (g.inside x y) :=
  inferInstanceAs (Decidable (_ ∧ _))

/-- The index of a place in the grid is one of its cells. -/
theorem index_lt {g : Grid} {x y : Nat} (h : g.inside x y) :
    y * g.size.columns + x < g.size.rows * g.size.columns := by
  obtain ⟨hx, hy⟩ := h
  calc y * g.size.columns + x < y * g.size.columns + g.size.columns := by omega
    _ = (y + 1) * g.size.columns := by rw [Nat.succ_mul]
    _ ≤ g.size.rows * g.size.columns := Nat.mul_le_mul_right _ hy

/-- The cell at a place, if the place is in the grid. -/
def cell? (g : Grid) (x y : Nat) : Option Cell :=
  if h : g.inside x y then
    have inBounds := index_lt h
    some g.cells[y * g.size.columns + x]
  else none

/-- Writes one cell; a place outside the grid is left alone. -/
def set (g : Grid) (x y : Nat) (c : Cell) : Grid :=
  if h : g.inside x y then
    { g with cells := g.cells.set (y * g.size.columns + x) c (index_lt h) }
  else g

/-- Writes a text from a column on, which may lie left of the grid. What lies left of the grid is
passed over, and behind its last column nothing more is written. -/
def put (g : Grid) (x : Int) (y : Nat) (text : List Char) (style : Style) : Grid :=
  match text with
  | [] => g
  | c :: rest =>
    if x < 0 then g.put (x + 1) y rest style
    else if g.size.columns ≤ x then g
    else (g.set x.toNat y ⟨c, style⟩).put (x + 1) y rest style

def fillRow (g : Grid) (y : Nat) (style : Style) : Grid :=
  (List.range g.size.columns).foldl (fun g x => g.set x y ⟨' ', style⟩) g

def clear (g : Grid) : Grid :=
  { g with cells := Vector.replicate _ {} }

/-- A grid of another size; nothing of the old one is kept. -/
def resize (_ : Grid) (size : ScreenSize) : Grid :=
  blank size

def row (g : Grid) (y : Nat) : List Cell :=
  (List.range g.size.columns).filterMap (g.cell? · y)

def rowText (g : Grid) (y : Nat) : List Char :=
  (g.row y).map (·.char)

def rows (g : Grid) : List (List Cell) :=
  (List.range g.size.rows).map g.row

/-- All rows, each followed by a newline. -/
def text (g : Grid) : List Char :=
  (List.range g.size.rows).flatMap fun y => g.rowText y ++ ['\n']

end Grid

end ImportAtlas
