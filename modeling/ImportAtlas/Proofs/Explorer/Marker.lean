import ImportAtlas.Proofs.Explorer.Distance
import ImportAtlas.Proofs.Explorer.Expand
import ImportAtlas.Proofs.Explorer.Paint

/-!
# The mark of a row

Whether the dependencies of a module are shown is asked twice. The walk that makes the rows asks for
the view, for what is expanded, and whether the distance of the row is zero (`Layout.isOpen`). The
mark in front of a module knows of no distance and asks whether it is the one in focus
(`Explorer.marker`). Both come to the same (`Explorer.marker_of_reachable`), by two facts about the
rows of a view:

* `Layout.depth_eq_zero_iff` — in focus, the row at no distance is that of the module in focus;
* `Layout.among_visible_of_isOpen` — the dependencies of an open row have rows.

What the mark promises is kept by the events: `Explorer.Valid.exists_moves` leads the selection to
any row, events that move it leave the layout alone (`Explorer.SameLayout`), and the module that is
expanded there shows its dependencies (`Explorer.Valid.toggleExpand_opens`).
-/

namespace ImportAtlas

namespace Layout

variable {g : ModuleGraph} {view : ViewMode} {expanded : List Path} {root : Path} {r : Path × Nat}

/-- In focus, only the module in focus has a row at no distance. -/
theorem depth_eq_zero_iff (hg : g.Joined) (hroot : g.contains root)
    (hr : r ∈ visible g .focus expanded root) : r.2 = 0 ↔ r.1.same root := by
  obtain ⟨hpass, -⟩ := visible_passes hg hroot expanded
  obtain ⟨-, hway, hleast⟩ :=
    (hpass.exists_row_iff r.1 r.2).mp ⟨r, hr, Path.same_refl _, rfl⟩
  constructor
  · intro hzero
    rw [hzero] at hway
    -- a way of no steps ends where it begins
    cases hway with
    | here h => exact Path.same_symm h
  · intro hsame
    exact Nat.le_zero.mp (hleast (.here (Path.same_symm hsame)))

/-- The question of the walk about a row, put without its distance. -/
theorem isOpen_iff (hg : g.Joined) (hroot : g.contains root)
    (hr : r ∈ visible g view expanded root) :
    isOpen view expanded r.1 r.2 ↔
      view = .overview ∨ r.1.same root ∨ r.1.among expanded := by
  cases view with
  | overview => exact iff_of_true (isOpen_overview _ _ _) (.inl rfl)
  | focus =>
    rw [isOpen_focus, depth_eq_zero_iff hg hroot hr]
    simp

/-- The dependencies of an open row have rows. -/
theorem among_visible_of_isOpen (hg : g.Joined) (hroot : g.contains root)
    (hr : r ∈ visible g view expanded root) (hopen : isOpen view expanded r.1 r.2) :
    ∀ q ∈ g.dependencies r.1, q.among ((visible g view expanded root).map (·.1)) := by
  intro q hq
  obtain ⟨hpass, -, hall, -⟩ := visible_passes hg hroot expanded
  cases view with
  | overview => exact (hall q).mpr (contains_dependency hg r.1 q hq)
  | focus =>
    -- the way to the row goes on to the dependency, whose shortest way is that of a row
    have hway : Way g (fun p => p.among expanded) root r.2 r.1 :=
      ((hpass.exists_row_iff r.1 r.2).mp ⟨r, hr, Path.same_refl _, rfl⟩).2.1
    have hlead : g.Leads r.1 q := (leads_iff hg).mpr (Path.among_of_mem hq)
    obtain ⟨n, hleast⟩ := (hway.step ((isOpen_focus _ _ _).mp hopen) hlead).exists_isLeast
    obtain ⟨t, ht, hsame, -⟩ := (hpass.exists_row_iff q n).mpr ⟨by simp, hleast⟩
    exact Path.among_iff.mpr ⟨t.1, List.mem_map_of_mem ht, hsame⟩

end Layout

/-- The event moves the selection or the view, and does nothing else. -/
def InputEvent.Moves : InputEvent → Prop
  | moveUp | moveDown | scrollUp | scrollDown => True
  | _ => False

namespace Explorer

variable {g : ModuleGraph} {entry : Path} {e e' : Explorer} {r : Path × Nat} {id : Path}

/-! ### What a mark says -/

/-- No mark is shown where nothing is imported. -/
theorem marker_eq_blank : e.marker id = ' ' ↔ e.graph.dependencies id = [] := by
  unfold marker
  split
  · next h => simpa using h
  · next h => split <;> simpa using h

/-- A minus is shown where the dependencies are rows too. -/
theorem marker_eq_minus : e.marker id = '-' ↔ e.graph.dependencies id ≠ [] ∧
    (e.view = .overview ∨ id.same e.root ∨ id.among e.expanded) := by
  unfold marker
  split
  · next h => simp [List.isEmpty_iff.mp h]
  · next h =>
    have hne : e.graph.dependencies id ≠ [] := by simpa using h
    split
    · next hopen => exact iff_of_true rfl ⟨hne, hopen⟩
    · next hclosed => exact iff_of_false (by decide) fun hopen => hclosed hopen.2

/-- A plus is shown where they may be hidden. The three marks exclude each other. -/
theorem marker_eq_plus : e.marker id = '+' ↔ e.graph.dependencies id ≠ [] ∧
    ¬ (e.view = .overview ∨ id.same e.root ∨ id.among e.expanded) := by
  unfold marker
  split
  · next h => simp [List.isEmpty_iff.mp h]
  · next h =>
    have hne : e.graph.dependencies id ≠ [] := by simpa using h
    split
    · next hopen => exact iff_of_false (by decide) fun hclosed => hclosed.2 hopen
    · next hclosed => exact iff_of_true rfl ⟨hne, hclosed⟩

/-- The layout asks of a row what the mark of its module says. -/
theorem Valid.isOpen_iff (h : Valid g entry e) (hg : g.Joined) (hr : r ∈ e.rows) :
    Layout.isOpen e.view e.expanded r.1 r.2 ↔
      e.view = .overview ∨ r.1.same e.root ∨ r.1.among e.expanded := by
  refine Layout.isOpen_iff hg h.contains_root ?_
  rwa [← h.graph_eq, ← h.rows_eq]

/-- The dependencies of an open row are rows. -/
theorem Valid.among_rows_of_isOpen (h : Valid g entry e) (hg : g.Joined) (hr : r ∈ e.rows)
    (hopen : Layout.isOpen e.view e.expanded r.1 r.2) :
    ∀ q ∈ g.dependencies r.1, q.among (e.rows.map (·.1)) := by
  rw [h.rows_eq, h.graph_eq] at hr ⊢
  exact Layout.among_visible_of_isOpen hg h.contains_root hr hopen

/-! ### Moving the selection -/

/-- The state after events. -/
def after (e : Explorer) (events : List InputEvent) : Explorer :=
  events.foldl (fun e event => (e.handle event).1) e

/-- Two states that lay out the same graph in the same way. -/
structure SameLayout (e e' : Explorer) : Prop where
  graph_eq : e'.graph = e.graph
  view_eq : e'.view = e.view
  root_eq : e'.root = e.root
  expanded_eq : e'.expanded = e.expanded

/-- What two states share with a third they share. -/
theorem SameLayout.trans {e'' : Explorer} (h : SameLayout e e') (h' : SameLayout e' e'') :
    SameLayout e e'' where
  graph_eq := h'.graph_eq.trans h.graph_eq
  view_eq := h'.view_eq.trans h.view_eq
  root_eq := h'.root_eq.trans h.root_eq
  expanded_eq := h'.expanded_eq.trans h.expanded_eq

/-- States of one layout show the same rows. -/
theorem SameLayout.rows_eq (h : SameLayout e e') (he : Shown e) (he' : Shown e') :
    e'.rows = e.rows := by
  rw [he'.rows_eq, h.graph_eq, h.view_eq, h.expanded_eq, h.root_eq, he.rows_eq]

theorem SameLayout.marker_eq (h : SameLayout e e') (id : Path) : e'.marker id = e.marker id := by
  rw [marker, marker, h.graph_eq, h.view_eq, h.root_eq, h.expanded_eq]

theorem sameLayout_handle (e : Explorer) {event : InputEvent} (hmoves : event.Moves) :
    SameLayout e (e.handle event).1 := by
  -- moving changes the selection only, and scrolling the offset besides
  have hmove : ∀ down, SameLayout e (relayout (e.moveSelection down)) := by
    intro down
    obtain ⟨selected, heq⟩ := moveSelection_eq e down
    rw [heq]
    exact ⟨rfl, rfl, rfl, rfl⟩
  have hscroll : ∀ down, SameLayout e (relayout (e.scroll down)) := by
    intro down
    obtain ⟨selected, offset, heq⟩ := scroll_eq e down
    rw [heq]
    exact ⟨rfl, rfl, rfl, rfl⟩
  cases event with
  | moveUp => rw [handle_of_ne_quit e (by simp)]; exact hmove false
  | moveDown => rw [handle_of_ne_quit e (by simp)]; exact hmove true
  | scrollUp => rw [handle_of_ne_quit e (by simp)]; exact hscroll false
  | scrollDown => rw [handle_of_ne_quit e (by simp)]; exact hscroll true
  | _ => exact hmoves.elim

/-- A run of events that move the selection ends in a state in order, with the layout of the first
one. -/
theorem Valid.after_moves (h : Valid g entry e) (hg : g.Joined) (hentry : g.contains entry)
    {events : List InputEvent} (hmoves : ∀ event ∈ events, event.Moves) :
    Valid g entry (e.after events) ∧ SameLayout e (e.after events) := by
  induction events generalizing e with
  | nil => exact ⟨h, rfl, rfl, rfl, rfl⟩
  | cons event events ih =>
    obtain ⟨hevent, hmoves⟩ := List.forall_mem_cons.mp hmoves
    obtain ⟨hvalid, hsame⟩ := ih (h.handle hg hentry event) hmoves
    exact ⟨hvalid, (sameLayout_handle e hevent).trans hsame⟩

/-- The selection goes to the row below its own, or to the row above, if there is one. -/
theorem Valid.selected_move (h : Valid g entry e) {place : Point}
    (hplace : Layout.place? e.rows e.selected = some place) (down : Bool)
    (hr : e.rows[if down then place.y + 1 else place.y - 1]? = some r) :
    (e.handle (if down then .moveDown else .moveUp)).1.selected = r.1 := by
  have hlt : (if down then place.y + 1 else place.y - 1) < e.rows.length :=
    (List.getElem?_eq_some_iff.mp hr).1
  have hrow : e.selectedRow? = some place.y := by
    rw [selectedRow?, hplace, Option.map_some]
  have hmove : e.moveSelection down = { e with selected := r.1 } := by
    rw [moveSelection, hrow]
    dsimp only
    rw [Nat.min_eq_left (by omega), selectRow, hr]
  have hhandle : (e.handle (if down then .moveDown else .moveUp)).1 =
      relayout { e with selected := r.1 } := by
    rw [← hmove]
    cases down <;> exact handle_of_ne_quit e (by simp)
  rw [hhandle]
  -- the row is still there after the layout has been made anew
  refine relayout_selected ?_
  show (Layout.place? (relayout { e with selected := r.1 }).rows r.1).isSome
  rw [relayout_rows, ← h.rows_eq, h.spread.place?_eq hr, Option.isSome_some]

/-- The selection can be moved to any row. -/
theorem Valid.exists_moves (h : Valid g entry e) (hg : g.Joined) (hentry : g.contains entry)
    {i : Nat} (hr : e.rows[i]? = some r) :
    ∃ events : List InputEvent, (∀ event ∈ events, event.Moves) ∧
      (e.after events).selected.same r.1 := by
  obtain ⟨place, hplace, -⟩ := h.inView
  -- by induction on how far the selection is away from the row
  induction hn : Nat.dist place.y i generalizing e place with
  | zero =>
    obtain ⟨t, ht, hsame, -⟩ := Layout.place?_eq_some hplace
    rw [Nat.eq_of_dist_eq_zero hn, hr] at ht
    obtain rfl : r = t := Option.some.inj ht
    exact ⟨[], by simp, Path.same_symm hsame⟩
  | succ n ih =>
    obtain ⟨down, hnear⟩ : ∃ down : Bool,
        Nat.dist (if down then place.y + 1 else place.y - 1) i = n := by
      rcases Nat.lt_or_ge place.y i with hbelow | habove
      · exact ⟨true, by simp only [Nat.dist, if_true] at hn ⊢; omega⟩
      · exact ⟨false, by simp only [Nat.dist, Bool.false_eq_true, if_false] at hn ⊢; omega⟩
    -- the next row in that direction is there, as it is not beyond the one that is meant
    have hi : i < e.rows.length := (List.getElem?_eq_some_iff.mp hr).1
    have hy : place.y < e.rows.length := Layout.y_lt_of_place? hplace
    obtain ⟨t, ht⟩ : ∃ t, e.rows[if down then place.y + 1 else place.y - 1]? = some t := by
      refine ⟨_, List.getElem?_eq_getElem ?_⟩
      unfold Nat.dist at hn hnear
      split at hnear <;> simp only [*, if_true, Bool.false_eq_true, if_false] <;> omega
    have hevent : (if down then InputEvent.moveDown else .moveUp).Moves := by
      cases down <;> exact trivial
    have hvalid := h.handle hg hentry (if down then .moveDown else .moveUp)
    have hrows := (sameLayout_handle e hevent).rows_eq h.toShown hvalid.toShown
    have hplace' : Layout.place? (e.handle (if down then .moveDown else .moveUp)).1.rows
        (e.handle (if down then .moveDown else .moveUp)).1.selected =
          some ⟨t.2 * Layout.indent, if down then place.y + 1 else place.y - 1⟩ := by
      rw [h.selected_move hplace down ht, hrows, h.spread.place?_eq ht]
    obtain ⟨events, hmoves, hselected⟩ := ih hvalid (hrows ▸ hr) _ hplace' hnear
    exact ⟨_ :: events, List.forall_mem_cons.mpr ⟨hevent, hmoves⟩, hselected⟩

/-! ### Expanding a row -/

/-- A selected module that was marked as closed shows its dependencies after the event, in the row
that it had. -/
theorem Valid.toggleExpand_opens (h : Valid g entry e) (hg : g.Joined) (hentry : g.contains entry)
    (hr : r ∈ e.rows) (hselected : e.selected.same r.1) (hplus : e.marker r.1 = '+') :
    let e' := (e.handle .toggleExpand).1
    r ∈ e'.rows ∧ (∀ q ∈ g.dependencies r.1, q.among (e'.rows.map (·.1))) ∧
      e'.marker r.1 = '-' := by
  intro e'
  have hvalid : Valid g entry e' := h.handle hg hentry .toggleExpand
  obtain ⟨hne, hclosed⟩ := marker_eq_plus.mp hplus
  obtain ⟨hview, hother, hhidden⟩ : ¬ e.view = .overview ∧ ¬ r.1.same e.root ∧
      ¬ r.1.among e.expanded := by
    simpa only [not_or] using hclosed
  -- it was not among the expanded modules, and so it is now
  have hexpanded : r.1.among e'.expanded := by
    show r.1.among (e.handle .toggleExpand).1.expanded
    rw [handle_toggleExpand, relayout_expanded, among_toggleExpand, Path.same_symm hselected,
      Bool.eq_false_iff.mpr hhidden, Bool.xor_false]
  have hrow : r ∈ e'.rows := by
    obtain ⟨i, hi⟩ := List.mem_iff_getElem?.mp hr
    obtain ⟨place, hplace, -, hrows⟩ := h.exists_place_toggleExpand
    rw [Layout.place?_congr _ hselected, h.spread.place?_eq hi, Option.some.injEq] at hplace
    subst hplace
    -- the rows down to that of the selection have stayed
    refine List.mem_of_mem_take (i := i + 1) ?_
    rw [hrows]
    exact List.mem_of_getElem? (by rwa [List.getElem?_take_of_lt (Nat.lt_succ_self i)])
  have hopen := (hvalid.isOpen_iff hg hrow).mpr (.inr (.inr hexpanded))
  refine ⟨hrow, hvalid.among_rows_of_isOpen hg hrow hopen, ?_⟩
  refine marker_eq_minus.mpr ⟨?_, .inr (.inr hexpanded)⟩
  rwa [hvalid.graph_eq, ← h.graph_eq]

/-- **The mark of a row.** In every state that can be reached, what is painted in front of a module
tells what the layout has done with its row. It is a blank for a module without dependencies, `-`
where the layout has opened the row, and `+` where it has not. All dependencies behind a `-` have
rows. Behind a `+`, the selection can be moved to the row, and however that is done, the event that
expands the selection then gives rows to all dependencies and turns the mark into `-`. -/
theorem marker_of_reachable (hg : g.Joined) (hentry : g.contains entry) (h : Reachable g entry e)
    (hr : r ∈ e.rows) :
    (¬ (e.showErrors ∧ e.hasErrors e.selected) → ∀ (grid : Grid) (x y : Nat),
      x < e.size.columns → y < Layout.bodyRows e.size → e.rows[e.offset.y + y]? = some r →
      e.offset.x + x = r.2 * Layout.indent →
      (e.paint grid).cell? x y = some ⟨e.marker r.1, e.rowStyle r.1⟩) ∧
    (e.marker r.1 = ' ' ↔ g.dependencies r.1 = []) ∧
    (e.marker r.1 = '-' ↔
      g.dependencies r.1 ≠ [] ∧ Layout.isOpen e.view e.expanded r.1 r.2) ∧
    (e.marker r.1 = '+' ↔
      g.dependencies r.1 ≠ [] ∧ ¬ Layout.isOpen e.view e.expanded r.1 r.2) ∧
    (e.marker r.1 = '-' → ∀ q ∈ g.dependencies r.1, q.among (e.rows.map (·.1))) ∧
    (e.marker r.1 = '+' →
      (∃ events : List InputEvent, (∀ event ∈ events, event.Moves) ∧
        (e.after events).selected.same r.1) ∧
      ∀ events : List InputEvent, (∀ event ∈ events, event.Moves) →
        (e.after events).selected.same r.1 →
        let e' := ((e.after events).handle .toggleExpand).1
        r ∈ e'.rows ∧ (∀ q ∈ g.dependencies r.1, q.among (e'.rows.map (·.1))) ∧
          e'.marker r.1 = '-') := by
  have hvalid := h.valid hg hentry
  have hopen := hvalid.isOpen_iff hg hr
  have hminus : e.marker r.1 = '-' ↔
      g.dependencies r.1 ≠ [] ∧ Layout.isOpen e.view e.expanded r.1 r.2 := by
    rw [marker_eq_minus, hvalid.graph_eq, hopen]
  refine ⟨?_, ?_, hminus, ?_, ?_, ?_⟩
  · -- the first character of a row is its mark
    intro hclosed grid x y hx hy hrow hcolumn
    rw [cell?_paint hvalid.spread hclosed grid hx hy, hrow, Option.map_some, Option.getD_some]
    exact congrArg some (rowCell_of_some (charOf?_marker hcolumn))
  · rw [marker_eq_blank, hvalid.graph_eq]
  · rw [marker_eq_plus, hvalid.graph_eq, hopen]
  · intro hmark
    exact hvalid.among_rows_of_isOpen hg hr (hminus.mp hmark).2
  · intro hplus
    -- moving to the row changes neither the rows nor the mark, so it may be opened from there
    obtain ⟨i, hi⟩ := List.mem_iff_getElem?.mp hr
    refine ⟨hvalid.exists_moves hg hentry hi, ?_⟩
    intro events hmoves hselected
    obtain ⟨hvalid', hsame⟩ := hvalid.after_moves hg hentry hmoves
    refine hvalid'.toggleExpand_opens hg hentry ?_ hselected ?_
    · rwa [hsame.rows_eq hvalid.toShown hvalid'.toShown]
    · rwa [hsame.marker_eq]

/-- In a chain of three modules the second one is marked as closed, until it is selected and
expanded. -/
theorem marker_of_chain :
    let a : Path := ⟨"/p/a"⟩
    let b : Path := ⟨"/p/b"⟩
    let c : Path := ⟨"/p/c"⟩
    let g := ModuleGraph.ofChanges ⟨"/p"⟩ [.addNode { id := a, language := "python" },
      .addNode { id := b, language := "python" }, .addNode { id := c, language := "python" },
      .addEdge { source := a, target := b }, .addEdge { source := b, target := c }]
    let e := start g a ⟨20, 4⟩
    let e' := ((e.after [.moveDown]).handle .toggleExpand).1
    g.Joined ∧ g.contains a ∧ Reachable g a e ∧ (b, 1) ∈ e.rows ∧ e.marker b = '+' ∧
    (e.after [.moveDown]).selected.same b ∧ e.rows.map (·.1) = [a, b] ∧
    (∀ q ∈ g.dependencies b, q.among (e'.rows.map (·.1))) ∧ e'.marker b = '-' := by
  intro a b c g e e'
  have hg : g.Joined := (ModuleGraph.sound_ofChanges _ _).toJoined
  have ha : g.contains a := by decide
  have he : Reachable g a e := .start ⟨20, 4⟩
  have hb : (b, 1) ∈ e.rows := by decide
  have hplus : e.marker b = '+' := by decide
  have hselected : (e.after [.moveDown]).selected.same b := by decide
  obtain ⟨-, -, -, -, -, hopens⟩ := marker_of_reachable hg ha he hb
  obtain ⟨-, hrows, hmark⟩ := (hopens hplus).2 [.moveDown] (by simp [InputEvent.Moves]) hselected
  exact ⟨hg, ha, he, hb, hplus, hselected, by decide, hrows, hmark⟩

end Explorer

end ImportAtlas
