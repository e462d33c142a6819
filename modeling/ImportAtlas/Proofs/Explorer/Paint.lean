import ImportAtlas.Explorer.Paint
import ImportAtlas.Proofs.Explorer.Reachable
import ImportAtlas.Proofs.Screen.Grid

/-!
# What the explorer shows

The painted grid is a picture of the state, cell by cell, whatever was in the grid before
(`paint_of_reachable`).

* `Grid.prepare_eq` — painting begins with a blank grid;
* `Explorer.cell?_paintBody` — each row of the body shows the label of one module, from the column
  of its row on (`Explorer.charOf?`);
* `Explorer.cell?_paintStatus` — the status line covers the row below the body and no other.

These hold of every state whose modules have one row each. That the selection is among what is shown
is a matter of the states that can be reached: there it is in view (`Layout.InView`).
-/

namespace ImportAtlas

namespace Grid

/-- Nothing of the old grid is left, be it of the size or not. -/
theorem prepare_eq (g : Grid) (size : ScreenSize) : g.prepare size = blank size := by
  unfold prepare
  split
  · next h =>
    subst h
    rfl
  · rfl

end Grid

namespace Explorer

variable {g : ModuleGraph} {entry : Path} {e : Explorer}

/-- The character that the label of a row has in a column of the screen: it begins at the
indentation of the row, less what is scrolled away. -/
def charOf? (e : Explorer) (r : Path × Nat) (x : Nat) : Option Char :=
  Grid.charAt? (((r.2 * Layout.indent : Nat) : Int) - e.offset.x) (e.label r.1) x

/-- The cell that a row shows in a column: of its label, or else a blank. -/
def rowCell (e : Explorer) (r : Path × Nat) (x : Nat) : Cell :=
  Grid.overwrite (e.rowStyle r.1) (e.charOf? r x) {}

/-- Where a row has a character, the cell has it in the style of the row. -/
theorem rowCell_of_some {r : Path × Nat} {x : Nat} {char : Char} (h : e.charOf? r x = some char) :
    e.rowCell r x = ⟨char, e.rowStyle r.1⟩ := by
  rw [rowCell, h, Grid.overwrite]

/-- Elsewhere the cell is blank. -/
theorem rowCell_of_none {r : Path × Nat} {x : Nat} (h : e.charOf? r x = none) :
    e.rowCell r x = {} := by
  rw [rowCell, h, Grid.overwrite]

/-- The mark in front of a module is the first character of its label. -/
theorem charOf?_marker {r : Path × Nat} {x : Nat} (hx : e.offset.x + x = r.2 * Layout.indent) :
    e.charOf? r x = some (e.marker r.1) := by
  have hcolumn : ((r.2 * Layout.indent : Nat) : Int) - e.offset.x = x := by omega
  rw [charOf?, hcolumn, Grid.charAt?, if_neg (Int.lt_irrefl _), Int.sub_self]
  rfl

/-- Only the selected module is inverted. -/
theorem rowStyle_eq_inverted {id : Path} : e.rowStyle id = .inverted ↔ id.same e.selected := by
  unfold rowStyle
  constructor
  · intro h
    split at h
    · assumption
    · split at h
      · exact absurd h (by decide)
      · split at h <;> exact absurd h (by decide)
  · intro h
    exact if_pos h

/-- A blank is not inverted, and neither is the label of another module. -/
theorem rowCell_inverted {r : Path × Nat} {x : Nat} :
    (∃ char, e.rowCell r x = ⟨char, .inverted⟩) ↔
      r.1.same e.selected ∧ (e.charOf? r x).isSome := by
  cases hchar : e.charOf? r x with
  | none => simp [rowCell_of_none hchar, Style.inverted]
  | some c => simp [rowCell_of_some hchar, rowStyle_eq_inverted]

/-! ### The two parts of the screen -/

/-- The rows of the body are those from the offset on. -/
theorem getElem?_bodyView {y : Nat} (hy : y < Layout.bodyRows e.size) :
    e.bodyView[y]? = e.rows[e.offset.y + y]? := by
  rw [bodyView, List.getElem?_take_of_lt hy, List.getElem?_drop]

/-- Painting the body keeps the size. -/
@[simp] theorem size_paintBody (e : Explorer) (grid : Grid) :
    (e.paintBody grid).size = grid.size := by
  unfold paintBody
  apply Grid.size_foldl
  intro grid r
  dsimp only
  split
  · rfl
  · exact Grid.size_put _ _ _ _ _

/-- Each row of the body shows the label of the module that stands there, over what was painted
before. -/
theorem cell?_paintBody (hspread : Layout.Spread e.rows) (grid : Grid) (x y : Nat) :
    (e.paintBody grid).cell? x y = (grid.cell? x y).map fun old =>
      match e.bodyView[y]? with
      | some r => Grid.overwrite (e.rowStyle r.1) (e.charOf? r x) old
      | none => old := by
  unfold paintBody
  rw [Grid.cell?_foldl_zipIdx fun r x old => Grid.overwrite (e.rowStyle r.1) (e.charOf? r x) old]
  · simp only [Nat.not_lt_zero, if_false, Nat.sub_zero]
    cases e.bodyView[y]? with
    | none => rfl
    | some r => rfl
  · intro r hr grid row x y
    -- the module of a row stands in that row
    obtain ⟨i, hi⟩ := List.mem_iff_getElem?.mp (List.mem_of_mem_drop (List.mem_of_mem_take hr))
    dsimp only
    rw [hspread.place?_eq hi]
    exact Grid.cell?_put _ _ _ _ _ _ _

/-- Painting the status line keeps the size of the screen. -/
@[simp] theorem size_paintStatus (e : Explorer) (grid : Grid) :
    (e.paintStatus grid).size = grid.size := by
  unfold paintStatus
  split
  · rw [Grid.size_put, Grid.size_fillRow]
  · rfl

/-- The status line fills the row below the body, and leaves the body as it is. -/
theorem cell?_paintStatus (e : Explorer) (grid : Grid) (x y : Nat) :
    (e.paintStatus grid).cell? x y = (grid.cell? x y).map fun old =>
      if 2 ≤ e.size.rows ∧ y = e.size.rows - 1 then
        Grid.overwrite .inverted (Grid.charAt? 0 e.statusLine.toList x) ⟨' ', .inverted⟩
      else old := by
  unfold paintStatus
  by_cases hrows : 2 ≤ e.size.rows
  · rw [if_pos hrows, Grid.cell?_put, Grid.cell?_fillRow, Option.map_map]
    congr 1
    funext old
    by_cases hy : y = e.size.rows - 1 <;> simp [hrows, hy]
  · simp [hrows]

/-! ### Messages over the screen -/

/-- Whether there are messages over the screen is left to the events that are about them. -/
theorem showErrors_handle (e : Explorer) {event : InputEvent}
    (hother : event ≠ .toggleErrors ∧ event ≠ .deselect) :
    (e.handle event).1.showErrors = e.showErrors := by
  unfold handle
  split
  · rfl
  · change (e.apply event).showErrors = e.showErrors
    -- moving and scrolling set other fields, and the rest says so by itself
    cases event with
    | moveUp =>
      obtain ⟨selected, heq⟩ := moveSelection_eq e false
      rw [apply, heq]
    | moveDown =>
      obtain ⟨selected, heq⟩ := moveSelection_eq e true
      rw [apply, heq]
    | scrollUp =>
      obtain ⟨selected, offset, heq⟩ := scroll_eq e false
      rw [apply, heq]
    | scrollDown =>
      obtain ⟨selected, offset, heq⟩ := scroll_eq e true
      rw [apply, heq]
    | toggleExpand =>
      rw [apply, toggleExpand]
      split <;> rfl
    | deselect => exact absurd rfl hother.2
    | toggleErrors => exact absurd rfl hother.1
    | select => rfl
    | toggleOverview => rfl
    | resize size => rfl
    | quit => rfl

/-- Without messages over the screen, it shows the body and the status line. -/
theorem paint_eq (hclosed : ¬ (e.showErrors ∧ e.hasErrors e.selected)) (grid : Grid) :
    e.paint grid = e.paintStatus (e.paintBody (Grid.blank e.size)) := by
  unfold paint
  split
  · next ms hshown hms =>
    refine absurd ⟨hshown, ?_⟩ hclosed
    rw [hasErrors, hms, Option.isSome_some]
  · rw [Grid.prepare_eq]

/-! ### The picture of a state -/

/-- A cell of the body is that of the row which is shown there, or else blank. -/
theorem cell?_paint (hspread : Layout.Spread e.rows)
    (hclosed : ¬ (e.showErrors ∧ e.hasErrors e.selected)) (grid : Grid) {x y : Nat}
    (hx : x < e.size.columns) (hy : y < Layout.bodyRows e.size) :
    (e.paint grid).cell? x y =
      some ((e.rows[e.offset.y + y]?.map (e.rowCell · x)).getD {}) := by
  -- the status line is below the body
  have hstatus : y < e.size.rows ∧ ¬ (2 ≤ e.size.rows ∧ y = e.size.rows - 1) := by
    unfold Layout.bodyRows at hy
    split at hy <;> omega
  have hblank : (Grid.blank e.size).cell? x y = some {} := by
    rw [Grid.cell?_blank, if_pos ⟨hx, hstatus.1⟩]
  -- painting begins with a blank grid, so that nothing of the old one is left
  rw [paint_eq hclosed, cell?_paintStatus, cell?_paintBody hspread, hblank, Option.map_some,
    Option.map_some, if_neg hstatus.2, getElem?_bodyView hy]
  cases e.rows[e.offset.y + y]? with
  | none => rfl
  | some r => rfl

/-- **The picture.** In every state that can be reached, on a screen with a row and a column and
without messages over it, painting gives one and the same grid, whatever grid it is given. It has
the size of the screen. A row of the body shows the module that stands in the layout that far below
the first one in view, by its label from its column on; all other cells of the body are blank.
Inverted are the cells of the selected module's label, and the first character of that is on the
screen. -/
theorem paint_of_reachable (hg : g.Joined) (hentry : g.contains entry) (h : Reachable g entry e)
    (hcolumns : 0 < e.size.columns) (hrows : 0 < e.size.rows)
    (hclosed : ¬ (e.showErrors ∧ e.hasErrors e.selected)) :
    ∃ picture : Grid, (∀ grid, e.paint grid = picture) ∧ picture.size = e.size ∧
      e.rows = Layout.visible g e.view e.expanded e.root ∧
      (∀ x < e.size.columns, ∀ y < Layout.bodyRows e.size,
        (∀ r, e.rows[e.offset.y + y]? = some r →
          Layout.place? e.rows r.1 = some ⟨r.2 * Layout.indent, e.offset.y + y⟩ ∧
          (∀ char, e.charOf? r x = some char →
            picture.cell? x y = some ⟨char, e.rowStyle r.1⟩) ∧
          (e.charOf? r x = none → picture.cell? x y = some {})) ∧
        (e.rows[e.offset.y + y]? = none → picture.cell? x y = some {}) ∧
        ((∃ char, picture.cell? x y = some ⟨char, .inverted⟩) ↔
          ∃ r, e.rows[e.offset.y + y]? = some r ∧ r.1.same e.selected ∧ (e.charOf? r x).isSome)) ∧
      ∃ x < e.size.columns, ∃ y < Layout.bodyRows e.size, ∃ r,
        e.rows[e.offset.y + y]? = some r ∧ r.1.same e.selected ∧
        e.offset.x + x = r.2 * Layout.indent ∧ (e.label r.1).head? = some (e.marker r.1) ∧
        picture.cell? x y = some ⟨e.marker r.1, .inverted⟩ := by
  have hvalid := h.valid hg hentry
  have hvisible : e.rows = Layout.visible g e.view e.expanded e.root := by
    rw [hvalid.rows_eq, hvalid.graph_eq]
  have hspread : Layout.Spread e.rows := hvalid.spread
  refine ⟨e.paint (Grid.blank e.size), fun grid => ?_, ?_, hvisible, ?_, ?_⟩
  · rw [paint_eq hclosed, paint_eq hclosed]
  · rw [paint_eq hclosed, size_paintStatus, size_paintBody]
    rfl
  · intro x hx y hy
    rw [cell?_paint hspread hclosed _ hx hy]
    cases hr : e.rows[e.offset.y + y]? with
    | none => simp [Style.inverted]
    | some r =>
      simp only [Option.map_some, Option.getD_some, Option.some.injEq, reduceCtorEq,
        false_implies, true_and, forall_eq', exists_eq_left']
      exact ⟨⟨hspread.place?_eq hr, fun char => rowCell_of_some, rowCell_of_none⟩,
        rowCell_inverted⟩
  · -- the selection has a row in view, and its column is in view too
    obtain ⟨place, hplace, hview⟩ := hvalid.inView
    obtain ⟨r, hr, hsame, hx⟩ := Layout.place?_eq_some hplace
    have hbody : 0 < Layout.bodyRows e.size := by
      unfold Layout.bodyRows
      split <;> omega
    obtain ⟨hxle, hxlt⟩ := hview.columns hcolumns
    obtain ⟨hyle, hylt⟩ := hview.rows hbody
    have hrow : e.rows[e.offset.y + (place.y - e.offset.y)]? = some r := by
      rwa [Nat.add_sub_cancel' hyle]
    have hcolumn : e.offset.x + (place.x - e.offset.x) = r.2 * Layout.indent := by
      rw [Nat.add_sub_cancel' hxle, hx]
    refine ⟨place.x - e.offset.x, by omega, place.y - e.offset.y, by omega, r, hrow, hsame, hcolumn,
      rfl, ?_⟩
    rw [cell?_paint hspread hclosed _ (by omega) (by omega), hrow, Option.map_some,
      Option.getD_some, rowCell_of_some (charOf?_marker hcolumn), rowStyle_eq_inverted.mpr hsame]

/-- A dependency is selected that a narrow screen shows from its mark on, the module above it being
out of sight. -/
theorem paint_of_two_modules :
    let a : Path := ⟨"/p/a"⟩
    let b : Path := ⟨"/p/b"⟩
    let g := ModuleGraph.ofChanges ⟨"/p"⟩ [.addNode { id := a, language := "python" },
      .addNode { id := b, language := "python" }, .addEdge { source := a, target := b }]
    let e := ((start g a ⟨20, 4⟩).handle .moveDown).1
    let e' := (e.handle (.resize ⟨3, 2⟩)).1
    g.Joined ∧ g.contains a ∧ Reachable g a e' ∧ 0 < e'.size.columns ∧ 0 < e'.size.rows ∧
    ¬ (e'.showErrors ∧ e'.hasErrors e'.selected) ∧
    ∃ picture : Grid, (∀ grid, e'.paint grid = picture) ∧ picture.size = e'.size := by
  intro a b g e e'
  have hg : g.Joined := (ModuleGraph.sound_ofChanges _ _).toJoined
  have ha : g.contains a := by decide
  have he : Reachable g a e' := ((Reachable.start ⟨20, 4⟩).handle _).handle _
  have hclosed : ¬ (e'.showErrors ∧ e'.hasErrors e'.selected) := by
    rw [showErrors_handle e (by simp), showErrors_handle (start g a ⟨20, 4⟩) (by simp)]
    exact fun h => Bool.false_ne_true h.1
  obtain ⟨picture, hpicture, hsize, -⟩ :=
    paint_of_reachable hg ha he (Nat.succ_pos 2) (Nat.succ_pos 1) hclosed
  exact ⟨hg, ha, he, Nat.succ_pos 2, Nat.succ_pos 1, hclosed, picture, hpicture, hsize⟩

end Explorer

end ImportAtlas
