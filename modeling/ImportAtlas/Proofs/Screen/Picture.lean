import ImportAtlas.Proofs.Screen.Grid
import ImportAtlas.Proofs.Text.Chars
import Mathlib.Data.List.OfFn

/-!
# Grids as pictures

A picture has a cell for each place of its size. It has no others, and its cells are in no order, so
that nothing can be written beside it or run over into the next row. What writing does is said of
pictures cell by cell (`Picture.apply`). A grid keeps its cells in one row after another, and the
picture that it shows (`Grid.picture`) is all there is to it (`Grid.picture_injective`).

* `Grid.picture_apply` — what is written into a grid is written into its picture;
* `Grid.apply_of_outside` — what lies outside of the grid changes nothing;
* `Grid.text_eq_lines` — the text of a grid has the rows of its picture;
* `Grid.picture_ofChanges` — all of this after any number of changes.
-/

namespace ImportAtlas

namespace Grid

/-- A change of a grid. -/
inductive Change where
  | set (x y : Nat) (c : Cell)
  | put (x : Int) (y : Nat) (text : List Char) (style : Style)
  | fillRow (y : Nat) (style : Style)
  | clear
  | resize (size : ScreenSize)

/-- What a change does to a grid. -/
def Change.apply (g : Grid) : Change → Grid
  | .set x y c => g.set x y c
  | .put x y text style => g.put x y text style
  | .fillRow y style => g.fillRow y style
  | .clear => g.clear
  | .resize size => g.resize size

/-- The grid after changes, blank before them. -/
def ofChanges (size : ScreenSize) (changes : List Change) : Grid :=
  changes.foldl Change.apply (blank size)

/-- All that a change writes lies outside of a grid of that size. -/
def Change.Outside (size : ScreenSize) : Change → Prop
  | .set x y _ => size.columns ≤ x ∨ size.rows ≤ y
  | .put x y text _ => size.rows ≤ y ∨ (size.columns : Int) ≤ x ∨ x + text.length ≤ 0
  | .fillRow y _ => size.rows ≤ y
  | .clear => False
  | .resize _ => False

end Grid

/-! ### Pictures -/

/-- A cell for each place of a size. -/
structure Picture where
  size : ScreenSize
  cell : Fin size.columns → Fin size.rows → Cell

namespace Picture

open Grid (Change)

variable {p q : Picture}

/-- A picture without anything on it. -/
def blank (size : ScreenSize) : Picture :=
  ⟨size, fun _ _ => {}⟩

/-- The picture after a change, cell by cell. A text begins in its column, each of its characters
being one column further to the right. -/
def apply (p : Picture) : Change → Picture
  | .set x y c => ⟨p.size, fun x' y' => if x' = x ∧ y' = y then c else p.cell x' y'⟩
  | .put x y text style =>
    ⟨p.size, fun x' y' =>
      if h : y' = y ∧ x ≤ x'.val ∧ x'.val < x + text.length then
        have inText : ((x'.val : Int) - x).toNat < text.length := by omega
        ⟨text[((x'.val : Int) - x).toNat], style⟩
      else p.cell x' y'⟩
  | .fillRow y style => ⟨p.size, fun x' y' => if y' = y then ⟨' ', style⟩ else p.cell x' y'⟩
  | .clear => blank p.size
  | .resize size => blank size

/-- The picture that changes make of a blank one. -/
def ofChanges (size : ScreenSize) (changes : List Change) : Picture :=
  changes.foldl apply (blank size)

/-- The characters of the rows, from above. -/
def lines (p : Picture) : List (List Char) :=
  List.ofFn fun y => List.ofFn fun x => (p.cell x y).char

/-- The cell at a place, if the picture has that place. -/
def cell? (p : Picture) (x y : Nat) : Option Cell :=
  if h : x < p.size.columns ∧ y < p.size.rows then some (p.cell ⟨x, h.1⟩ ⟨y, h.2⟩) else none

/-- Inside the picture each place has its cell. -/
theorem cell?_val (p : Picture) (x : Fin p.size.columns) (y : Fin p.size.rows) :
    p.cell? x y = some (p.cell x y) :=
  dif_pos ⟨x.isLt, y.isLt⟩

theorem cell?_blank (size : ScreenSize) (x y : Nat) :
    (blank size).cell? x y = if x < size.columns ∧ y < size.rows then some {} else none := rfl

/-- Pictures are equal by their sizes and cells. -/
theorem ext_cell? (hsize : p.size = q.size) (hcells : ∀ x y, p.cell? x y = q.cell? x y) :
    p = q := by
  obtain ⟨size, cell⟩ := p
  obtain ⟨size', cell'⟩ := q
  obtain rfl : size = size' := hsize
  congr 1
  funext x y
  have hcell := hcells x y
  rw [cell?_val, cell?_val] at hcell
  exact Option.some.inj hcell

/-- A picture that is changed cell by cell, read at a place. -/
theorem cell?_mk_of_change {f : Nat → Nat → Cell → Cell}
    {cell : Fin p.size.columns → Fin p.size.rows → Cell}
    (hcell : ∀ x y, cell x y = f x y (p.cell x y)) (x y : Nat) :
    cell? ⟨p.size, cell⟩ x y = (p.cell? x y).map (f x y) := by
  unfold cell?
  split
  · exact congrArg some (hcell _ _)
  · rfl

/-- A picture has no place for what a change writes outside of it. -/
theorem apply_of_outside {change : Change} (h : change.Outside p.size) : p.apply change = p := by
  -- it is enough that each cell is what it was
  have hkept : ∀ cell : Fin p.size.columns → Fin p.size.rows → Cell,
      (∀ x y, cell x y = p.cell x y) → (⟨p.size, cell⟩ : Picture) = p := fun cell hcell =>
    congrArg (Picture.mk p.size) (funext fun x => funext fun y => hcell x y)
  cases change with
  | set x y c =>
    refine hkept _ fun x' y' => if_neg ?_
    rintro ⟨rfl, rfl⟩
    exact h.elim (Nat.not_le_of_lt x'.isLt) (Nat.not_le_of_lt y'.isLt)
  | put x y text style =>
    refine hkept _ fun x' y' => dif_neg ?_
    rintro ⟨rfl, hle, hlt⟩
    -- below the picture, right of it, or left of it in full
    have hx' := x'.isLt
    rcases h with h | h | h
    · exact absurd y'.isLt (Nat.not_lt_of_le h)
    · omega
    · omega
  | fillRow y style =>
    refine hkept _ fun x' y' => if_neg ?_
    rintro rfl
    exact absurd y'.isLt (Nat.not_lt_of_le h)
  | clear => exact h.elim
  | resize size => exact h.elim

/-- Rows with the characters of a picture at their places are its lines. -/
theorem lines_eq (p : Picture) {row : Nat → List Char}
    (hrow : ∀ x y, (row y)[x]? = (p.cell? x y).map (·.char)) :
    p.lines = (List.range p.size.rows).map row := by
  refine List.ext_getElem? fun y => ?_
  rw [lines, List.getElem?_ofFn, List.getElem?_map]
  -- row by row, and in a row cell by cell
  by_cases hy : y < p.size.rows
  · rw [dif_pos hy, List.getElem?_range hy, Option.map_some]
    refine congrArg some (List.ext_getElem? fun x => ?_)
    rw [List.getElem?_ofFn, hrow, cell?]
    by_cases hx : x < p.size.columns
    · rw [dif_pos hx, dif_pos ⟨hx, hy⟩, Option.map_some]
    · rw [dif_neg hx, dif_neg fun h => hx h.1, Option.map_none]
  · rw [dif_neg hy, List.getElem?_eq_none (by simpa using hy), Option.map_none]

theorem length_lines (p : Picture) : p.lines.length = p.size.rows :=
  List.length_ofFn

/-- A line is as long as the picture is wide. -/
theorem length_of_mem_lines {line : List Char} (h : line ∈ p.lines) :
    line.length = p.size.columns := by
  obtain ⟨y, rfl⟩ := List.mem_ofFn.mp h
  exact List.length_ofFn

end Picture

namespace Grid

variable {g g' : Grid}

/-- What a grid shows. -/
def picture (g : Grid) : Picture :=
  ⟨g.size, fun x y =>
    have inBounds : y * g.size.columns + x < g.size.rows * g.size.columns :=
      index_lt ⟨x.isLt, y.isLt⟩
    g.cells[y * g.size.columns + x]⟩

@[simp] theorem cell?_picture (g : Grid) (x y : Nat) : g.picture.cell? x y = g.cell? x y := rfl

/-- A grid is determined by what it shows. -/
theorem picture_injective (h : g.picture = g'.picture) : g = g' := by
  refine ext_cell? (congrArg Picture.size h) fun x y => ?_
  rw [← cell?_picture, h, cell?_picture]

/-- A blank grid shows a blank picture. -/
theorem picture_blank (size : ScreenSize) : (blank size).picture = Picture.blank size := by
  refine Picture.ext_cell? rfl fun x y => ?_
  rw [cell?_picture, cell?_blank, Picture.cell?_blank]

/-- What is written where a text has a character in a column is that character. -/
theorem overwrite_charAt? (x : Int) (text : List Char) (style : Style) (column : Nat) (old : Cell) :
    overwrite style (charAt? x text column) old =
      if h : x ≤ column ∧ column < x + text.length then
        have inText : ((column : Int) - x).toNat < text.length := by omega
        ⟨text[((column : Int) - x).toNat], style⟩
      else old := by
  unfold charAt?
  -- left of the text, within it or right of it
  by_cases hlt : (column : Int) < x
  · rw [if_pos hlt, dif_neg (by omega)]
    rfl
  · rw [if_neg hlt]
    by_cases hend : (column : Int) < x + text.length
    · rw [dif_pos ⟨by omega, hend⟩, List.getElem?_eq_getElem]
      rfl
    · rw [dif_neg (by omega), List.getElem?_eq_none (by omega)]
      rfl

/-- What changes the cells of a grid one by one changes its picture in the same way. -/
theorem picture_eq_of_change (hsize : g'.size = g.size) {f : Nat → Nat → Cell → Cell}
    (hcells : ∀ x y, g'.cell? x y = (g.cell? x y).map (f x y))
    {cell : Fin g.size.columns → Fin g.size.rows → Cell}
    (hcell : ∀ x y, cell x y = f x y (g.picture.cell x y)) : g'.picture = ⟨g.size, cell⟩ := by
  refine Picture.ext_cell? hsize fun x y => ?_
  rw [cell?_picture, hcells, ← cell?_picture]
  exact (Picture.cell?_mk_of_change (p := g.picture) hcell x y).symm

/-- **One change.** A change of a grid is that change of its picture. -/
theorem picture_apply (g : Grid) (change : Change) :
    (change.apply g).picture = g.picture.apply change := by
  cases change with
  | set x y c =>
    exact picture_eq_of_change (size_set g x y c) (cell?_set g x y c) fun _ _ => rfl
  | put x y text style =>
    -- a text changes its row only, where the two descriptions agree
    refine picture_eq_of_change (size_put g x y text style) (cell?_put g x y text style) ?_
    intro x' y'
    rw [overwrite_charAt?]
    by_cases hy : y'.val = y
    · simp [hy]
    · simp [hy]
  | fillRow y style =>
    exact picture_eq_of_change (size_fillRow g y style) (cell?_fillRow g y style) fun _ _ => rfl
  | clear => exact picture_blank g.size
  | resize size => exact picture_blank size

/-- Changes of a grid are the same changes of its picture, one after another. -/
theorem picture_ofChanges (size : ScreenSize) (changes : List Change) :
    (ofChanges size changes).picture = Picture.ofChanges size changes := by
  have hfrom : ∀ g : Grid, (changes.foldl Change.apply g).picture =
      changes.foldl Picture.apply g.picture := by
    induction changes with
    | nil => exact fun _ => rfl
    | cons change changes ih =>
      intro g
      rw [List.foldl_cons, List.foldl_cons, ih, picture_apply]
  rw [ofChanges, hfrom, picture_blank]
  rfl

/-- What lies outside of a grid changes nothing. -/
theorem apply_of_outside {change : Change} (h : change.Outside g.size) : change.apply g = g := by
  apply picture_injective
  rw [picture_apply]
  exact Picture.apply_of_outside h

/-! ### Text -/

/-- The lines of a picture are the rows of the grid. -/
theorem lines_picture (g : Grid) : g.picture.lines = (List.range g.size.rows).map g.rowText := by
  refine Picture.lines_eq g.picture fun x y => ?_
  rw [rowText, List.getElem?_map, getElem?_row, cell?_picture]

/-- The text of a grid is the rows of its picture, each followed by a newline. -/
theorem text_eq_lines (g : Grid) : g.text = g.picture.lines.flatMap (· ++ ['\n']) := by
  rw [lines_picture, List.flatMap_map]
  rfl

/-- **Grids are pictures.** After any changes a grid shows the picture that the same changes make
cell by cell, and reading a place gives the cell that the picture has there, if it has one. What
lies outside of the grid changes nothing. The text has as many lines as the grid has rows, each with
one character per column, followed by a newline; so cutting it at the newlines gives the lines
again, unless a newline has been written into a cell. -/
theorem ofChanges_represents (size : ScreenSize) (changes : List Change) :
    let g := ofChanges size changes
    let p := Picture.ofChanges size changes
    g.picture = p ∧ (∀ x y, g.cell? x y = p.cell? x y) ∧
    (∀ change : Change, change.Outside g.size → change.apply g = g) ∧
    g.text = p.lines.flatMap (· ++ ['\n']) ∧ p.lines.length = p.size.rows ∧
    (∀ line ∈ p.lines, line.length = p.size.columns) ∧
    ((∀ x y, (p.cell x y).char ≠ '\n') →
      Text.cutAt (· == '\n') g.text = p.lines ++ [[]]) := by
  intro g p
  have hpicture : g.picture = p := picture_ofChanges size changes
  have htext : g.text = p.lines.flatMap (· ++ ['\n']) := hpicture ▸ g.text_eq_lines
  refine ⟨hpicture, fun x y => ?_, fun _ => apply_of_outside, htext, p.length_lines,
    fun _ => p.length_of_mem_lines, fun hnewline => ?_⟩
  · rw [← hpicture, cell?_picture]
  · -- a line without line ends is one line of the text
    rw [htext]
    apply Text.cutAt_flatMap_concat
    intro line hline
    obtain ⟨y, rfl⟩ := List.mem_ofFn.mp hline
    rw [List.mem_ofFn]
    rintro ⟨x, hx⟩
    exact hnewline x y hx

/-- A text that begins left of the grid and ends right of it. -/
example : (ofChanges ⟨5, 2⟩ [.put (-2) 0 "abcdefgh".toList {}]).text = "cdefg\n     \n".toList := by
  decide

end Grid

end ImportAtlas
