import ImportAtlas.Explorer.Basic
import ImportAtlas.Proofs.Explorer.Layout

/-!
# The states of the explorer

Whatever events come, and in whatever order, the explorer shows the layout of what it has in focus,
and the selection is a row that is in sight (`inView_of_reachable`).

The invariant comes in two parts, as a state does. What is in focus is changed by events:

* `Explorer.Rooted` — the graph and the entry are those of the start, the module in focus is a node,
  and it is the entry while nothing is selected.

The rest is made anew by `Explorer.relayout`, whatever it was before:

* `Explorer.Shown` — the rows are the layout of the state, and the selection is in view.

So an event has to keep the first part only (`Rooted.apply`), for which it may use that the
selection was a node.
-/

namespace ImportAtlas

namespace Explorer

/-! ### The invariant -/

/-- The module in focus is a node of the graph, and the entry while nothing is selected. -/
structure Rooted (g : ModuleGraph) (entry : Path) (e : Explorer) : Prop where
  graph_eq : e.graph = g
  entry_eq : e.entry = entry
  contains_root : g.contains e.root
  root_eq : e.mode = .browsing → e.root = entry

/-- The rows are the layout of the state. The selection has a row, and that is in view. -/
structure Shown (e : Explorer) : Prop where
  rows_eq : e.rows = Layout.visible e.graph e.view e.expanded e.root
  offset_le : e.offset.y ≤ e.rows.length - Layout.bodyRows e.size
  inView : ∃ place, Layout.place? e.rows e.selected = some place ∧
    Layout.InView e.size e.offset place

/-- A state that is in order: what is in focus, and what is shown of it. -/
structure Valid (g : ModuleGraph) (entry : Path) (e : Explorer) : Prop
    extends Rooted g entry e, Shown e

variable {g : ModuleGraph} {entry : Path} {e : Explorer}

/-- The rows of a valid state are of different modules. -/
theorem Valid.spread (h : Valid g entry e) : Layout.Spread e.rows := by
  rw [h.rows_eq]
  exact Layout.spread_visible _ _ _ _

/-- The selection is a node, since all rows are. -/
theorem Valid.contains_selected (h : Valid g entry e) (hg : g.Joined) : g.contains e.selected := by
  obtain ⟨place, hplace, -⟩ := h.inView
  obtain ⟨r, hr, hsame, -⟩ := Layout.place?_eq_some hplace
  have hmem := List.mem_of_getElem? hr
  rw [h.rows_eq, h.graph_eq] at hmem
  rw [← ModuleGraph.contains_congr hsame]
  exact Layout.contains_of_mem_visible hg r hmem

/-! ### The layout made anew -/

@[simp] theorem relayout_graph (e : Explorer) : e.relayout.graph = e.graph := rfl

@[simp] theorem relayout_entry (e : Explorer) : e.relayout.entry = e.entry := rfl

@[simp] theorem relayout_size (e : Explorer) : e.relayout.size = e.size := rfl

@[simp] theorem relayout_mode (e : Explorer) : e.relayout.mode = e.mode := rfl

@[simp] theorem relayout_view (e : Explorer) : e.relayout.view = e.view := rfl

@[simp] theorem relayout_root (e : Explorer) : e.relayout.root = e.root := rfl

@[simp] theorem relayout_expanded (e : Explorer) : e.relayout.expanded = e.expanded := rfl

@[simp] theorem relayout_showErrors (e : Explorer) : e.relayout.showErrors = e.showErrors := rfl

theorem relayout_rows (e : Explorer) :
    e.relayout.rows = Layout.visible e.graph e.view e.expanded e.root := rfl

/-- A selection that has a row keeps it. -/
theorem relayout_selected (h : (Layout.place? e.relayout.rows e.selected).isSome) :
    e.relayout.selected = e.selected :=
  if_pos h

/-- The view is scrolled to the place of the selection. -/
theorem exists_relayout_offset {place : Point}
    (h : Layout.place? e.relayout.rows e.relayout.selected = some place) :
    ∃ labelWidth, e.relayout.offset =
      Layout.clampOffset e.offset place (Layout.labelEnd place.x labelWidth)
        e.relayout.rows.length e.size := by
  have hplace : (Layout.place? e.relayout.rows e.relayout.selected).getD {} = place := by
    rw [h, Option.getD_some]
  rw [← hplace]
  exact ⟨_, rfl⟩

/-- Making the layout anew changes nothing of what is in focus. -/
theorem Rooted.relayout (h : Rooted g entry e) : Rooted g entry e.relayout :=
  ⟨h.graph_eq, h.entry_eq, h.contains_root, h.root_eq⟩

/-- **Restoration.** The layout made anew shows the selection, whatever was shown before. -/
theorem Rooted.shown_relayout (h : Rooted g entry e) (hg : g.Joined) : Shown e.relayout := by
  have hroot : (Layout.place? e.relayout.rows e.root).isSome := by
    rw [Layout.place?_isSome]
    change e.root.among ((Layout.visible e.graph e.view e.expanded e.root).map (·.1))
    rw [h.graph_eq]
    exact Layout.among_visible hg.toIndexed h.contains_root
  -- either the selection was visible already, or it goes to the root, which always is
  have hselected : (Layout.place? e.relayout.rows e.relayout.selected).isSome := by
    by_cases hvisible : (Layout.place? e.relayout.rows e.selected).isSome
    · rwa [relayout_selected hvisible]
    · have hmoved : e.relayout.selected = e.root := if_neg hvisible
      rwa [hmoved]
  obtain ⟨place, hplace⟩ := Option.isSome_iff_exists.mp hselected
  obtain ⟨labelWidth, hoffset⟩ := exists_relayout_offset hplace
  obtain ⟨hle, hview⟩ := Layout.clampOffset_inView e.offset labelWidth e.size
    (Layout.y_lt_of_place? hplace)
  rw [← hoffset] at hle hview
  exact ⟨rfl, hle, place, hplace, hview⟩

/-- Laying out makes valid whatever has a root: rows, selection and offset are all set there. -/
theorem Rooted.valid_relayout (h : Rooted g entry e) (hg : g.Joined) :
    Valid g entry e.relayout where
  toRooted := h.relayout
  toShown := h.shown_relayout hg

/-! ### Events -/

/-- After all events but one the layout is made anew. -/
theorem handle_of_ne_quit (e : Explorer) {event : InputEvent} (h : event ≠ .quit) :
    (e.handle event).1 = (e.apply event).relayout := by
  rw [handle, if_neg h]

/-- Selecting a row changes nothing but the selection. -/
theorem selectRow_eq (e : Explorer) (row : Nat) :
    ∃ selected, e.selectRow row = { e with selected } := by
  unfold selectRow
  split
  · exact ⟨_, rfl⟩
  · exact ⟨e.selected, rfl⟩

/-- Moving and scrolling change the selection and the offset only. -/
theorem moveSelection_eq (e : Explorer) (down : Bool) :
    ∃ selected, e.moveSelection down = { e with selected } := by
  unfold moveSelection
  split
  · exact ⟨e.selected, rfl⟩
  · exact selectRow_eq e _

/-- Scrolling changes nothing but the selection and the offset. -/
theorem scroll_eq (e : Explorer) (down : Bool) :
    ∃ selected offset, e.scroll down = { e with selected, offset } := by
  unfold scroll
  dsimp only
  generalize min (if down then e.offset.y + 1 else e.offset.y - 1)
    (e.rows.length - Layout.bodyRows e.size) = y
  split
  · exact ⟨e.selected, _, rfl⟩
  · obtain ⟨selected, heq⟩ := selectRow_eq { e with offset := { e.offset with y } } _
    exact ⟨selected, _, heq⟩

/-- What an event puts into focus is a node: the selection, the entry, or what was in focus. -/
theorem Rooted.apply (h : Rooted g entry e) (hentry : g.contains entry)
    (hselected : g.contains e.selected) (event : InputEvent) : Rooted g entry (e.apply event) := by
  cases event with
  | moveUp =>
    obtain ⟨selected, heq⟩ := moveSelection_eq e false
    rw [Explorer.apply, heq]
    exact ⟨h.graph_eq, h.entry_eq, h.contains_root, h.root_eq⟩
  | moveDown =>
    obtain ⟨selected, heq⟩ := moveSelection_eq e true
    rw [Explorer.apply, heq]
    exact ⟨h.graph_eq, h.entry_eq, h.contains_root, h.root_eq⟩
  | scrollUp =>
    obtain ⟨selected, offset, heq⟩ := scroll_eq e false
    rw [Explorer.apply, heq]
    exact ⟨h.graph_eq, h.entry_eq, h.contains_root, h.root_eq⟩
  | scrollDown =>
    obtain ⟨selected, offset, heq⟩ := scroll_eq e true
    rw [Explorer.apply, heq]
    exact ⟨h.graph_eq, h.entry_eq, h.contains_root, h.root_eq⟩
  | select =>
    -- from here on something is selected
    exact ⟨h.graph_eq, h.entry_eq, hselected, fun hmode => nomatch hmode⟩
  | deselect =>
    rw [Explorer.apply, Explorer.deselect]
    split
    · exact ⟨h.graph_eq, h.entry_eq, h.contains_root, h.root_eq⟩
    · -- the entry is put into focus again
      refine ⟨h.graph_eq, h.entry_eq, ?_, fun _ => h.entry_eq⟩
      change g.contains e.entry
      rwa [h.entry_eq]
  | toggleExpand =>
    rw [Explorer.apply, Explorer.toggleExpand]
    split <;> exact ⟨h.graph_eq, h.entry_eq, h.contains_root, h.root_eq⟩
  | toggleErrors => exact ⟨h.graph_eq, h.entry_eq, h.contains_root, h.root_eq⟩
  | toggleOverview => exact ⟨h.graph_eq, h.entry_eq, h.contains_root, h.root_eq⟩
  | resize size => exact ⟨h.graph_eq, h.entry_eq, h.contains_root, h.root_eq⟩
  | quit => exact h

/-! ### Runs -/

/-- The states that can be reached from a start at a node: with other views and weightings, and
after events. -/
inductive Reachable (g : ModuleGraph) (entry : Path) : Explorer → Prop where
  | start (size : ScreenSize) : Reachable g entry (start g entry size)
  | withView {e : Explorer} (h : Reachable g entry e) (view : ViewMode) :
    Reachable g entry (e.withView view)
  | withWeighting {e : Explorer} (h : Reachable g entry e) (weighting : Weighting) :
    Reachable g entry (e.withWeighting weighting)
  | handle {e : Explorer} (h : Reachable g entry e) (event : InputEvent) :
    Reachable g entry (e.handle event).1

/-- **Invariant preservation.** Every event leads from a state in order to one in order. -/
theorem Valid.handle (h : Valid g entry e) (hg : g.Joined) (hentry : g.contains entry)
    (event : InputEvent) : Valid g entry (e.handle event).1 := by
  unfold Explorer.handle
  split
  · exact h
  · exact (h.toRooted.apply hentry (h.contains_selected hg) event).valid_relayout hg

/-- **Invariant.** Whatever the events have been, the state is valid: it begins so, and each event
ends with a layout. -/
theorem Reachable.valid (h : Reachable g entry e) (hg : g.Joined) (hentry : g.contains entry) :
    Valid g entry e := by
  induction h with
  | start size =>
    refine Rooted.valid_relayout ?_ hg
    exact ⟨rfl, rfl, hentry, fun _ => rfl⟩
  | withView _ view ih =>
    refine Rooted.valid_relayout ?_ hg
    exact ⟨ih.graph_eq, ih.entry_eq, ih.contains_root, ih.root_eq⟩
  | withWeighting _ weighting ih =>
    -- the layout is not made anew, and does not depend on entropies
    exact ⟨⟨ih.graph_eq, ih.entry_eq, ih.contains_root, ih.root_eq⟩,
      ih.rows_eq, ih.offset_le, ih.inView⟩
  | handle _ event ih => exact ih.handle hg hentry event

/-- **The selection stays in sight.** In every state that can be reached, the module in focus and
the selection are nodes, and the selection has a row. The rows are the layout of the state as it is,
each at its own place, and nothing but the entry is in focus while nothing is selected. The view
does not go beyond the last row. As far as the screen has rows and columns, the selection is among
them. -/
theorem inView_of_reachable (hg : g.Joined) (hentry : g.contains entry)
    (h : Reachable g entry e) :
    g.contains e.root ∧ g.contains e.selected ∧ e.selected.among (e.rows.map (·.1)) ∧
    e.rows = Layout.visible g e.view e.expanded e.root ∧
    (∀ (i : Nat) (r : Path × Nat), e.rows[i]? = some r →
      Layout.place? e.rows r.1 = some ⟨r.2 * Layout.indent, i⟩) ∧
    (e.mode = .browsing → e.root = entry) ∧
    e.offset.y ≤ e.rows.length - Layout.bodyRows e.size ∧
    ∃ place, Layout.place? e.rows e.selected = some place ∧
      (0 < Layout.bodyRows e.size →
        e.offset.y ≤ place.y ∧ place.y < e.offset.y + Layout.bodyRows e.size) ∧
      (0 < e.size.columns → e.offset.x ≤ place.x ∧ place.x < e.offset.x + e.size.columns) := by
  have hvalid := h.valid hg hentry
  -- all of it is read off the invariant of reachable states
  have hrows : e.rows = Layout.visible g e.view e.expanded e.root := by
    rw [hvalid.rows_eq, hvalid.graph_eq]
  obtain ⟨place, hplace, hview⟩ := hvalid.inView
  refine ⟨hvalid.contains_root, hvalid.contains_selected hg, ?_, hrows, ?_, hvalid.root_eq,
    hvalid.offset_le, place, hplace, hview.rows, hview.columns⟩
  · rw [← Layout.place?_isSome, hplace, Option.isSome_some]
  · intro i r hr
    exact hvalid.spread.place?_eq hr

/-- Two modules in the overview, the second selected, on a screen that has shrunk to two rows. -/
theorem inView_of_two_modules :
    let a : Path := ⟨"/p/a"⟩
    let b : Path := ⟨"/p/b"⟩
    let g := ModuleGraph.ofChanges ⟨"/p"⟩ [.addNode { id := a, language := "python" },
      .addNode { id := b, language := "python" }, .addEdge { source := a, target := b }]
    let e := ((start g a ⟨20, 4⟩).withView .overview).handle .moveDown
    let e' := (e.1.handle (.resize ⟨3, 2⟩)).1
    g.Joined ∧ g.contains a ∧ Reachable g a e' ∧
    ∃ place, Layout.place? e'.rows e'.selected = some place ∧
      (0 < Layout.bodyRows e'.size →
        e'.offset.y ≤ place.y ∧ place.y < e'.offset.y + Layout.bodyRows e'.size) ∧
      (0 < e'.size.columns → e'.offset.x ≤ place.x ∧ place.x < e'.offset.x + e'.size.columns) := by
  intro a b g e e'
  have hg : g.Joined := (ModuleGraph.sound_ofChanges _ _).toJoined
  have ha : g.contains a := by decide
  have he : Reachable g a e' := (((Reachable.start ⟨20, 4⟩).withView .overview).handle _).handle _
  obtain ⟨-, -, -, -, -, -, -, hplace⟩ := inView_of_reachable hg ha he
  exact ⟨hg, ha, he, hplace⟩

end Explorer

end ImportAtlas
