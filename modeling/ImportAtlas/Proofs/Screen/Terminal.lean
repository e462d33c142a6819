import ImportAtlas.Proofs.Screen.Emulator
import ImportAtlas.Proofs.Screen.Grid

/-!
# A grid on a terminal

What is written for a grid makes a terminal of its size show the grid, whatever it showed before and
in whatever colours it wrote (`Grid.shows_flush`).

* `Terminal.paint` — a cell is shown in its own colours;
* `Terminal.run_drawCells`, `Terminal.run_drawRows` — nothing is lost by leaving out the colours
  that are in force already, because a style is remembered only as long as it is
  (`Terminal.InForce`);
* `Terminal.cells_paintRows` — each of the cells is shown at its own place.
-/

namespace ImportAtlas

/-- A colour that is not given by its number in the palette, where the named ones are as well. -/
def Colour.Unnumbered (c : Colour) : Prop :=
  ∀ n, c ≠ .numbered n

/-- Different colours are shown differently, but for the numbers of those with a name. -/
theorem Colour.eq_of_shade_eq {c c' : Colour} (hc : c.Unnumbered) (hc' : c'.Unnumbered)
    (h : c.shade = c'.shade) : c = c' := by
  cases c with
  | rgb r g b =>
    cases c' with
    | rgb r' g' b' =>
      -- a byte is determined by its number
      obtain ⟨hr, hg, hb⟩ := Shade.mixture.inj h
      rw [UInt8.toNat_inj.mp hr, UInt8.toNat_inj.mp hg, UInt8.toNat_inj.mp hb]
    | _ => exact absurd h (by simp [shade])
  | numbered n => exact absurd rfl (hc n)
  | _ =>
    cases c' with
    | numbered n => exact absurd rfl (hc' n)
    | _ => first | rfl | exact absurd h (by simp [shade])

/-- A style whose two colours are not given by number. -/
def Style.Unnumbered (s : Style) : Prop :=
  s.foreground.Unnumbered ∧ s.background.Unnumbered

/-- What a terminal is to show for a cell. -/
def Cell.glyph (c : Cell) : Glyph :=
  ⟨c.char, c.style.foreground.shade, c.style.background.shade⟩

/-- What is shown of such a cell determines it. -/
theorem Cell.eq_of_glyph_eq {c c' : Cell} (hc : c.style.Unnumbered) (hc' : c'.style.Unnumbered)
    (h : c.glyph = c'.glyph) : c = c' := by
  obtain ⟨char, foreground, background⟩ := c
  obtain ⟨char', foreground', background'⟩ := c'
  obtain ⟨hchar, hforeground, hbackground⟩ := Glyph.mk.inj h
  obtain rfl : char = char' := hchar
  obtain rfl := Colour.eq_of_shade_eq hc.1 hc'.1 hforeground
  obtain rfl := Colour.eq_of_shade_eq hc.2 hc'.2 hbackground
  rfl

namespace Terminal

variable {t : Terminal} {style : Option Style}

/-! ### Colours in force -/

/-- Shows a cell at the cursor, in its own colours. -/
def paint (t : Terminal) (c : Cell) : Terminal :=
  print { t with
    foreground := c.style.foreground.shade
    background := c.style.background.shade } c.char

/-- Painting some cells from the beginning of a row. -/
def paintRow (t : Terminal) (y : Nat) (cells : List Cell) : Terminal :=
  cells.foldl paint (t.moveTo 0 y)

/-- Shows rows of cells, one below the other. -/
def paintRows (t : Terminal) (y : Nat) : List (List Cell) → Terminal
  | [] => t
  | r :: rs => (t.paintRow y r).paintRows (y + 1) rs

/-- The colours that a style asks for are those in which the terminal writes. -/
def InForce (style : Option Style) (t : Terminal) : Prop :=
  ∀ s, style = some s →
    t.foreground = s.foreground.shade ∧ t.background = s.background.shade

/-- After a cell its style is in force. -/
theorem inForce_paint (t : Terminal) (c : Cell) : InForce (some c.style) (t.paint c) := by
  obtain ⟨cells, cursor, hprint⟩ := print_frame _ c.char
  rintro s ⟨rfl⟩
  rw [paint, hprint]
  exact ⟨rfl, rfl⟩

/-- **Colours are left out rightly.** The commands for cells show each of them in its own colours,
and the style they remember is in force after them. -/
theorem run_drawCells (hstyle : InForce style t) (cs : List Cell) :
    t.run (Grid.drawCells style cs).1 = cs.foldl paint t ∧
      InForce (Grid.drawCells style cs).2 (cs.foldl paint t) := by
  induction cs generalizing style t with
  | nil => exact ⟨rfl, hstyle⟩
  | cons c cs ih =>
    obtain ⟨hrun, hlast⟩ := ih (inForce_paint t c)
    refine ⟨?_, hlast⟩
    rw [Grid.drawCells]
    dsimp only
    rw [List.foldl_cons, ← hrun, run_append]
    split
    · -- the colours of the cell are those of the one before
      next hsame =>
      obtain ⟨hforeground, hbackground⟩ := hstyle c.style hsame
      have hpaint : t.print c.char = t.paint c := by
        rw [paint, ← hforeground, ← hbackground]
      show (t.print c.char).run _ = _
      rw [hpaint]
    · rfl

/-- The commands for rows paint the rows. The style is remembered from the end of one to the
beginning of the next. -/
theorem run_drawRows (hstyle : InForce style t) (y : Nat) (rs : List (List Cell)) :
    t.run (Grid.drawRows style y rs) = (t.paintRows y rs).perform .resetColours := by
  induction rs generalizing style t y with
  | nil => rfl
  | cons r rs ih =>
    -- moving the cursor changes no colour
    have hmoved : InForce style (t.moveTo 0 y) := hstyle
    obtain ⟨hrun, hlast⟩ := run_drawCells hmoved r
    calc t.run (Grid.drawRows style y (r :: rs))
      _ = ((t.moveTo 0 y).run (Grid.drawCells style r).1).run
            (Grid.drawRows (Grid.drawCells style r).2 (y + 1) rs) := run_append _ _ _
      _ = (t.paintRow y r).run (Grid.drawRows (Grid.drawCells style r).2 (y + 1) rs) := by
          rw [hrun, paintRow]
      _ = (t.paintRows y (r :: rs)).perform .resetColours := ih hlast (y + 1)

/-! ### Cells in their places -/

/-- Where there is room for it, a cell is shown at the cursor. -/
theorem paint_of_lt (hroom : t.cursor.x < t.size.columns) (c : Cell) :
    (t.paint c).cursor = ⟨t.cursor.x + 1, t.cursor.y⟩ ∧
      ∀ x y, (t.paint c).cells x y =
        if x = t.cursor.x ∧ y = t.cursor.y then c.glyph else t.cells x y := by
  rw [paint, print, if_pos hroom]
  exact ⟨rfl, fun _ _ => rfl⟩

/-- Painting does not change the size. -/
@[simp] theorem size_paint (t : Terminal) (c : Cell) : (t.paint c).size = t.size := by
  obtain ⟨cells, cursor, hprint⟩ := print_frame _ c.char
  rw [paint, hprint]

/-- Painting a row does not change the size. -/
@[simp] theorem size_paintRow (t : Terminal) (y : Nat) (cs : List Cell) :
    (t.paintRow y cs).size = t.size := by
  have hcells : ∀ t : Terminal, (cs.foldl paint t).size = t.size := by
    induction cs with
    | nil => exact fun _ => rfl
    | cons c cs ih => exact fun t => (ih (t.paint c)).trans (size_paint t c)
  exact hcells _

/-- Cells that have room in the line are shown from the cursor on. -/
theorem cells_foldl_paint (cs : List Cell) (hroom : t.cursor.x + cs.length ≤ t.size.columns)
    (x y : Nat) :
    (cs.foldl paint t).cells x y =
      if y = t.cursor.y ∧ t.cursor.x ≤ x then
        (cs[x - t.cursor.x]?.map Cell.glyph).getD (t.cells x y)
      else t.cells x y := by
  induction cs generalizing t with
  | nil => simp
  | cons c cs ih =>
    rw [List.length_cons] at hroom
    obtain ⟨hcursor, hcells⟩ := paint_of_lt (by omega : t.cursor.x < t.size.columns) c
    have hrest : (t.paint c).cursor.x + cs.length ≤ (t.paint c).size.columns := by
      rw [hcursor, size_paint]
      dsimp only
      omega
    rw [List.foldl_cons, ih hrest, hcursor, hcells]
    dsimp only
    by_cases hy : y = t.cursor.y
    · -- left of the cursor, at the cursor, or right of it
      rcases Nat.lt_trichotomy x t.cursor.x with hlt | heq | hgt
      · rw [if_neg (by omega), if_neg (by omega), if_neg (by omega)]
      · rw [if_neg (by omega), if_pos ⟨heq, hy⟩, if_pos ⟨hy, by omega⟩, heq, Nat.sub_self]
        rfl
      · have hnext : x - t.cursor.x = (x - (t.cursor.x + 1)) + 1 := by omega
        rw [if_pos ⟨hy, hgt⟩, if_neg (by omega), if_pos ⟨hy, by omega⟩, hnext,
          List.getElem?_cons_succ]
    · rw [if_neg fun h => hy h.1, if_neg fun h => hy h.2, if_neg fun h => hy h.1]

/-- A row that fits is painted in its place, and the other rows stay. -/
theorem cells_paintRow {row : Nat} (hrow : row < t.size.rows) {cs : List Cell}
    (hcs : cs.length ≤ t.size.columns) (x y : Nat) :
    (t.paintRow row cs).cells x y =
      if y = row then (cs[x]?.map Cell.glyph).getD (t.cells x y) else t.cells x y := by
  have hcursor : (t.moveTo 0 row).cursor = ⟨0, row⟩ := by
    rw [moveTo, Nat.zero_min, Nat.min_eq_left (by omega)]
  have hroom : (t.moveTo 0 row).cursor.x + cs.length ≤ (t.moveTo 0 row).size.columns := by
    rw [hcursor, size_moveTo, Nat.zero_add]
    exact hcs
  rw [paintRow, cells_foldl_paint cs hroom, hcursor]
  simp [moveTo]

/-- Rows that have room on the screen are shown from row `k` on, and nothing else changes. -/
theorem cells_paintRows {k : Nat} {rs : List (List Cell)} (hrows : k + rs.length ≤ t.size.rows)
    (hcolumns : ∀ r ∈ rs, r.length ≤ t.size.columns) (x y : Nat) :
    (t.paintRows k rs).cells x y =
      if k ≤ y then ((rs[y - k]?.bind (·[x]?)).map Cell.glyph).getD (t.cells x y)
      else t.cells x y := by
  induction rs generalizing t k with
  | nil => simp [paintRows]
  | cons r rs ih =>
    obtain ⟨hr, hrs⟩ := List.forall_mem_cons.mp hcolumns
    rw [List.length_cons] at hrows
    rw [paintRows, ih (by rw [size_paintRow]; omega) (by rwa [size_paintRow]),
      cells_paintRow (by omega) hr]
    -- above the row, in it, or below it
    rcases Nat.lt_trichotomy y k with hlt | rfl | hgt
    · rw [if_neg (by omega), if_neg (by omega), if_neg (by omega)]
    · rw [if_neg (by omega), if_pos rfl, if_pos (Nat.le_refl y), Nat.sub_self]
      rfl
    · have hnext : y - k = (y - (k + 1)) + 1 := by omega
      rw [if_pos (Nat.succ_le_of_lt hgt), if_neg (by omega), if_pos (by omega), hnext,
        List.getElem?_cons_succ]

/-- Painting all rows does not change the size. -/
@[simp] theorem size_paintRows (t : Terminal) (y : Nat) (rs : List (List Cell)) :
    (t.paintRows y rs).size = t.size := by
  induction rs generalizing t y with
  | nil => rfl
  | cons r rs ih => rw [paintRows, ih, size_paintRow]

end Terminal

namespace Grid

variable {g : Grid} {style : Option Style} {c : Char}

/-! ### What is written for a grid -/

/-- Only characters of the cells are printed. -/
theorem exists_of_print_mem_drawCells {cs : List Cell}
    (h : .print c ∈ (drawCells style cs).1) : ∃ cell ∈ cs, cell.char = c := by
  induction cs generalizing style with
  | nil => exact absurd h List.not_mem_nil
  | cons cell cs ih =>
    rw [drawCells] at h
    dsimp only at h
    -- the commands before a cell set colours and print nothing
    rcases List.mem_append.mp h with hcolours | hprint
    · split at hcolours <;> simp at hcolours
    · rcases List.mem_cons.mp hprint with heq | hrest
      · exact ⟨cell, List.mem_cons_self, (TerminalCommand.print.inj heq).symm⟩
      · obtain ⟨cell', hmem, hchar⟩ := ih hrest
        exact ⟨cell', List.mem_cons_of_mem _ hmem, hchar⟩

/-- Only characters of the cells of the rows are printed. -/
theorem exists_of_print_mem_drawRows {y : Nat} {rs : List (List Cell)}
    (h : .print c ∈ drawRows style y rs) : ∃ r ∈ rs, ∃ cell ∈ r, cell.char = c := by
  induction rs generalizing style y with
  | nil => exact absurd (List.mem_singleton.mp h) (by simp)
  | cons r rs ih =>
    rw [drawRows] at h
    dsimp only at h
    rcases List.mem_append.mp h with hrow | hrest
    · rcases List.mem_cons.mp hrow with hmove | hcell
      · exact absurd hmove (by simp)
      · exact ⟨r, List.mem_cons_self, exists_of_print_mem_drawCells hcell⟩
    · obtain ⟨r', hmem, hcell⟩ := ih hrest
      exact ⟨r', List.mem_cons_of_mem _ hmem, hcell⟩

/-- Only characters of the grid are written to be shown. -/
theorem exists_cell?_of_print_mem_flush (h : .print c ∈ g.flush) :
    ∃ x y cell, g.cell? x y = some cell ∧ cell.char = c := by
  obtain ⟨r, hr, cell, hcell, hchar⟩ := exists_of_print_mem_drawRows h
  obtain ⟨y, -, rfl⟩ := mem_rows.mp hr
  obtain ⟨x, hx⟩ := List.mem_iff_getElem?.mp hcell
  exact ⟨x, y, cell, (getElem?_row g x y).symm.trans hx, hchar⟩

/-- What a terminal has read before does not matter, since a control sequence comes first. -/
theorem receive_flush (g : Grid) (t : Terminal)
    (hchars : ∀ x y c, g.cell? x y = some c → ¬ IsControl c.char) :
    t.receive (g.flush.flatMap TerminalCommand.text) =
      (t.ready.paintRows 0 g.rows).perform .resetColours := by
  have hprint : ∀ c, .print c ∈ g.flush → ¬ IsControl c := by
    intro c hc
    obtain ⟨x, y, cell, hcell, rfl⟩ := exists_cell?_of_print_mem_flush hc
    exact hchars x y cell hcell
  -- the first command is no character, so it is understood in the midst of a sequence too
  have hfirst : ∃ command commands, g.flush = command :: commands ∧
      ∀ c, command ≠ .print c := by
    unfold flush
    cases g.rows with
    | nil => exact ⟨_, _, rfl, by simp⟩
    | cons r rs => exact ⟨_, _, rfl, by simp⟩
  have hready : t.ready.InForce none := fun s hs => absurd hs (by simp)
  -- whatever the terminal was reading, it is ready; then command by command; then row by row
  calc t.receive (g.flush.flatMap TerminalCommand.text)
    _ = t.ready.receive (g.flush.flatMap TerminalCommand.text) := by
        obtain ⟨command, commands, hflush, hcommand⟩ := hfirst
        rw [hflush, List.flatMap_cons, Terminal.receive_append, Terminal.receive_append,
          Terminal.receive_text t command fun c hc => absurd hc (hcommand c),
          Terminal.receive_text t.ready command fun c hc => absurd hc (hcommand c)]
        rfl
    _ = t.ready.run g.flush := Terminal.receive_flatMap_text rfl g.flush hprint
    _ = (t.ready.paintRows 0 g.rows).perform .resetColours := Terminal.run_drawRows hready 0 g.rows

/-- **A grid is shown.** Whatever a terminal of the size of a grid shows and in whatever colours it
writes, after reading what is written for the grid it shows each cell of the grid at its place, with
its character and in its two colours. No other cell would look like it, but for those the colours of
which are given by their numbers. -/
theorem shows_flush (g : Grid) (hchars : ∀ x y c, g.cell? x y = some c → ¬ IsControl c.char)
    (t : Terminal) (hsize : t.size = g.size) :
    let shown := t.receive (g.flush.flatMap TerminalCommand.text)
    shown.size = g.size ∧
      (∀ x y, shown.glyph? x y = (g.cell? x y).map Cell.glyph) ∧
      ((∀ x y c, g.cell? x y = some c → c.style.Unnumbered) → ∀ x y c, c.style.Unnumbered →
        (shown.glyph? x y = some c.glyph ↔ g.cell? x y = some c)) := by
  intro shown
  have hshown : shown = (t.ready.paintRows 0 g.rows).perform .resetColours :=
    receive_flush g t hchars
  have hshown_size : shown.size = g.size := by
    rw [hshown, ← hsize]
    exact Terminal.size_paintRows _ _ _
  -- the rows fit on the terminal, so nothing is written beyond it
  have hrows : 0 + g.rows.length ≤ t.ready.size.rows := by
    rw [Nat.zero_add, length_rows, ← hsize]
    exact Nat.le_refl _
  have hcolumns : ∀ r ∈ g.rows, r.length ≤ t.ready.size.columns := by
    intro r hr
    obtain ⟨y, -, rfl⟩ := mem_rows.mp hr
    exact hsize ▸ length_row_le g y
  have hglyph : ∀ x y, shown.glyph? x y = (g.cell? x y).map Cell.glyph := by
    intro x y
    have hcells : shown.cells x y = ((g.cell? x y).map Cell.glyph).getD (t.cells x y) := by
      rw [hshown, ← getElem?_rows]
      exact Terminal.cells_paintRows hrows hcolumns x y
    rw [Terminal.glyph?, hshown_size, hcells]
    -- inside, every cell is painted; outside, nothing is shown on either side
    by_cases hinside : x < g.size.columns ∧ y < g.size.rows
    · obtain ⟨c, hc⟩ := Option.isSome_iff_exists.mp (isSome_cell?.mpr hinside)
      rw [if_pos hinside, hc]
      rfl
    · rw [if_neg hinside, cell?_of_not_inside hinside]
      rfl
  refine ⟨hshown_size, hglyph, fun hstyles x y c hc => ?_⟩
  rw [hglyph, Option.map_eq_some_iff]
  constructor
  · -- colours without numbers are told apart by what the terminal shows
    rintro ⟨c', hcell, hsame⟩
    rw [hcell, Cell.eq_of_glyph_eq (hstyles x y c' hcell) hc hsame]
  · exact fun hcell => ⟨c, hcell, rfl⟩

/-- A red letter on a mixed colour and a blank, on a terminal in the middle of a line of other
things. -/
theorem shows_flush_of_red :
    let g := (blank ⟨2, 1⟩).set 0 0 ⟨'x', .red, .rgb 1 2 255⟩
    let t : Terminal :=
      ⟨⟨2, 1⟩, fun _ _ => ⟨'#', .palette 1, .palette 2⟩, ⟨1, 0⟩, .palette 4, .own, .escape⟩
    let shown := t.receive (g.flush.flatMap TerminalCommand.text)
    shown.glyph? 0 0 = some ⟨'x', .palette 9, .mixture 1 2 255⟩ ∧
      shown.glyph? 1 0 = some ⟨' ', .own, .own⟩ := by
  intro g t shown
  have hchars : ∀ x y c, g.cell? x y = some c → ¬ IsControl c.char := by
    intro x y c hc
    rw [cell?_set, cell?_blank] at hc
    obtain ⟨old, hold, rfl⟩ := Option.map_eq_some_iff.mp hc
    obtain ⟨-, ⟨⟩⟩ := Option.ite_none_right_eq_some.mp hold
    split
    · decide
    · decide
  obtain ⟨-, hglyph, -⟩ := shows_flush g hchars t rfl
  exact ⟨(hglyph 0 0).trans (by decide), (hglyph 1 0).trans (by decide)⟩

end Grid

end ImportAtlas
