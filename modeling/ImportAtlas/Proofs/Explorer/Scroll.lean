import ImportAtlas.Proofs.Explorer.Reachable

/-!
# Scrolling

Scrolling moves the view by one row and takes the selection along where it would leave the screen.
Then the layout is made anew, and the view is scrolled to the selection. That this does not take the
first step back is the main statement here (`Explorer.scroll_of_reachable`): the selection that
scrolling leaves is in view from the new offset (`Explorer.Valid.exists_scroll_eq`), and an offset
from which the selection is in view is kept (`Layout.clampOffset_y_eq`).
-/

namespace ImportAtlas

namespace Explorer

variable {g : ModuleGraph} {entry : Path} {e : Explorer}

/-- The view moved by one row, as far as there are rows. The selection is where it was. -/
def shifted (e : Explorer) (down : Bool) : Explorer :=
  let y := min (if down then e.offset.y + 1 else e.offset.y - 1)
    (e.rows.length - Layout.bodyRows e.size)
  { e with offset := { e.offset with y } }

/-- The row on the screen that is nearest to a row. -/
def nearestRow (e : Explorer) (row : Nat) : Nat :=
  Layout.clamp e.offset.y (e.offset.y + Layout.bodyRows e.size - 1) row

/-- The body does not go beyond the last row. -/
theorem shifted_offset_le (e : Explorer) (down : Bool) :
    (e.shifted down).offset.y ≤ e.rows.length - Layout.bodyRows e.size :=
  Nat.min_le_right _ _

theorem scroll_eq_shifted (hbody : 0 < Layout.bodyRows e.size) (down : Bool) {place : Point}
    (hplace : Layout.place? e.rows e.selected = some place) :
    e.scroll down =
      if (e.shifted down).nearestRow place.y = place.y then e.shifted down
      else (e.shifted down).selectRow ((e.shifted down).nearestRow place.y) := by
  have hrow : (e.shifted down).selectedRow?.getD 0 = place.y := by
    change ((Layout.place? e.rows e.selected).map (·.y)).getD 0 = place.y
    rw [hplace]
    rfl
  -- with a body of at least one row its last row is not above the first
  have hmax : max ((e.shifted down).offset.y + Layout.bodyRows e.size - 1)
      (e.shifted down).offset.y = (e.shifted down).offset.y + Layout.bodyRows e.size - 1 := by
    omega
  have hscroll : e.scroll down =
      let row := (e.shifted down).selectedRow?.getD 0
      let nearest := Layout.clamp (e.shifted down).offset.y
        (max ((e.shifted down).offset.y + Layout.bodyRows e.size - 1) (e.shifted down).offset.y) row
      if nearest = row then e.shifted down else (e.shifted down).selectRow nearest := rfl
  rw [hscroll, hrow, hmax]
  rfl

/-- A row that is there can be selected. -/
theorem exists_selectRow_eq (hspread : Layout.Spread e.rows) {row : Nat}
    (hrow : row < e.rows.length) :
    ∃ selected place, e.selectRow row = { e with selected } ∧
      Layout.place? e.rows selected = some place ∧ place.y = row := by
  obtain ⟨r, hr⟩ : ∃ r, e.rows[row]? = some r := ⟨_, List.getElem?_eq_getElem hrow⟩
  refine ⟨r.1, _, ?_, hspread.place?_eq hr, rfl⟩
  rw [selectRow, hr]

/-- What scrolling does where modules are shown: the selection goes to the row on the screen that is
nearest to its own. -/
theorem Valid.exists_scroll_eq (h : Valid g entry e) (hbody : 0 < Layout.bodyRows e.size)
    (down : Bool) {place : Point} (hplace : Layout.place? e.rows e.selected = some place) :
    ∃ selected place', e.scroll down = { e.shifted down with selected } ∧
      Layout.place? e.rows selected = some place' ∧
      place'.y = (e.shifted down).nearestRow place.y ∧
      (place'.y = place.y → selected = e.selected) := by
  have hplace_lt : place.y < e.rows.length := Layout.y_lt_of_place? hplace
  have hle := e.shifted_offset_le down
  rw [scroll_eq_shifted hbody down hplace]
  split
  · next hnearest => exact ⟨e.selected, place, rfl, hplace, hnearest.symm, fun _ => rfl⟩
  · next hnearest =>
    -- a row on the screen is there, since the view does not go beyond the last one
    have hlt : (e.shifted down).nearestRow place.y < (e.shifted down).rows.length := by
      change Layout.clamp _ ((e.shifted down).offset.y + Layout.bodyRows e.size - 1) _ <
        e.rows.length
      unfold Layout.clamp
      split
      · omega
      · split <;> omega
    have hspread : Layout.Spread (e.shifted down).rows := h.spread
    obtain ⟨selected, place', heq, hplace', hy⟩ := exists_selectRow_eq hspread hlt
    exact ⟨selected, place', heq, hplace', hy, fun hsame => absurd (hy.symm.trans hsame) hnearest⟩

/-- **Scrolling by one row.** In every state that can be reached, on a screen that shows modules,
the events for scrolling move the view by one row, as far as there are rows. The selection stays if
its row is still on the screen, and otherwise goes to the row on the screen that is nearest. What
else there is stays as it is. -/
theorem scroll_of_reachable (hg : g.Joined) (hentry : g.contains entry) (h : Reachable g entry e)
    (hbody : 0 < Layout.bodyRows e.size) (down : Bool) :
    let e' := (e.handle (if down then .scrollDown else .scrollUp)).1
    let body := Layout.bodyRows e.size
    e'.offset.y =
      (if down then min (e.offset.y + 1) (e.rows.length - body) else e.offset.y - 1) ∧
    (∃ place place', Layout.place? e.rows e.selected = some place ∧
      Layout.place? e'.rows e'.selected = some place' ∧
      (e'.offset.y ≤ place'.y ∧ place'.y < e'.offset.y + body) ∧
      (e'.offset.y ≤ place.y ∧ place.y < e'.offset.y + body → e'.selected = e.selected) ∧
      ∀ row, e'.offset.y ≤ row ∧ row < e'.offset.y + body →
        Nat.dist place.y place'.y ≤ Nat.dist place.y row) ∧
    e'.rows = e.rows ∧ e'.root = e.root ∧ e'.mode = e.mode ∧ e'.view = e.view ∧
    e'.size = e.size ∧ e'.expanded = e.expanded ∧ e'.showErrors = e.showErrors := by
  intro e' body
  have hvalid := h.valid hg hentry
  obtain ⟨place, hplace, -⟩ := hvalid.inView
  obtain ⟨selected, place', hscroll, hplace', hy, hkept⟩ :=
    hvalid.exists_scroll_eq hbody down hplace
  have he' : e' = relayout { e.shifted down with selected } := by
    rw [← hscroll]
    cases down <;> exact handle_of_ne_quit e (by simp)
  have hrows : e'.rows = e.rows := by
    rw [he', hvalid.rows_eq]
    rfl
  have hselected : e'.selected = selected := by
    rw [he'] at hrows ⊢
    refine relayout_selected ?_
    change (Layout.place? _ selected).isSome
    rw [hrows, hplace', Option.isSome_some]
  have hfound : Layout.place? e'.rows e'.selected = some place' := by
    rw [hrows, hselected, hplace']
  -- the nearest row is in view from the new offset, which is so kept
  have hle : (e.shifted down).offset.y ≤ e.rows.length - body := e.shifted_offset_le down
  have hbounds : (e.shifted down).offset.y ≤ (e.shifted down).offset.y + body - 1 := by omega
  have hlow : (e.shifted down).offset.y ≤ place'.y := hy ▸ Layout.le_clamp hbounds place.y
  have hhigh : place'.y ≤ (e.shifted down).offset.y + body - 1 :=
    hy ▸ Layout.clamp_le hbounds place.y
  have hlt : place'.y < (e.shifted down).offset.y + body := by omega
  have hoffset : e'.offset.y = (e.shifted down).offset.y := by
    rw [he'] at hfound hrows ⊢
    obtain ⟨labelWidth, heq⟩ := exists_relayout_offset hfound
    rw [heq, hrows]
    exact Layout.clampOffset_y_eq _ hlow hlt hle
  refine ⟨?_, ⟨place, place', hplace, hfound, by omega, ?_, ?_⟩, hrows, ?_⟩
  · rw [hoffset]
    cases down with
    | true => rfl
    | false => exact Nat.min_eq_left (Nat.le_trans (Nat.sub_le _ _) hvalid.offset_le)
  · rintro ⟨htop, hbottom⟩
    rw [hselected]
    refine hkept (hy.trans (Layout.clamp_eq_self (by omega) ?_))
    change place.y ≤ (e.shifted down).offset.y + body - 1
    omega
  · rintro row ⟨htop, hbottom⟩
    rw [hy]
    refine Layout.dist_clamp_le (by omega) ?_ _
    change row ≤ (e.shifted down).offset.y + body - 1
    omega
  · rw [he']
    exact ⟨rfl, rfl, rfl, rfl, rfl, rfl⟩

/-- The view goes down by one row, and the selection goes with it, since it was in the first one. -/
theorem scroll_of_four :
    let a : Path := ⟨"/p/a"⟩
    let b : Path := ⟨"/p/b"⟩
    let c : Path := ⟨"/p/c"⟩
    let d : Path := ⟨"/p/d"⟩
    let g := ModuleGraph.ofChanges ⟨"/p"⟩ [.addNode { id := a, language := "python" },
      .addNode { id := b, language := "python" }, .addNode { id := c, language := "python" },
      .addNode { id := d, language := "python" }, .addEdge { source := a, target := b },
      .addEdge { source := a, target := c }, .addEdge { source := a, target := d }]
    let e := start g a ⟨20, 3⟩
    let e' := (e.handle .scrollDown).1
    g.Joined ∧ g.contains a ∧ Reachable g a e ∧ 0 < Layout.bodyRows e.size ∧
    e'.offset.y = min (e.offset.y + 1) (e.rows.length - Layout.bodyRows e.size) ∧
    e'.offset.y = 1 ∧ e.selected = a ∧ e'.selected = b ∧ e'.rows = e.rows := by
  intro a b c d g e e'
  have hg : g.Joined := (ModuleGraph.sound_ofChanges _ _).toJoined
  have ha : g.contains a := by decide
  have he : Reachable g a e := .start ⟨20, 3⟩
  have hbody : 0 < Layout.bodyRows e.size := by decide
  have hscroll := scroll_of_reachable hg ha he hbody true
  simp only [if_true] at hscroll
  obtain ⟨hoffset, -, hrows, -⟩ := hscroll
  exact ⟨hg, ha, he, hbody, hoffset, by decide, by decide, by decide, hrows⟩

end Explorer

end ImportAtlas
