import ImportAtlas.Proofs.Explorer.Paint

/-!
# Leaving

One event leaves what is shown last: the messages over the screen, or else the selection. What
there is to leave is told by a flag alone, while painting also asks whether the selected module has
errors. So there are three kinds of states, and the event does in each of them something else
(`Explorer.deselect_of_reachable`):

* the messages are shown (`Explorer.paint_messages`): they are taken away;
* the flag is down: the entry comes into focus again (`Explorer.Valid.deselect_of_down`);
* the flag is up, and nothing is shown of it: it is lowered, and that cannot be seen. Such states
  can be reached (`Explorer.deselect_unseen`), since the flag stays up when the selection moves to a
  module without errors (`Explorer.showErrors_handle`).
-/

namespace ImportAtlas

namespace Explorer

variable {g : ModuleGraph} {entry : Path} {e : Explorer}

/-- With the flag up, and errors at the selection, the screen shows nothing but their messages. -/
theorem paint_messages (hshown : e.showErrors ∧ e.hasErrors e.selected) :
    ∃ messages, e.messages? e.selected = some messages ∧
      ∀ grid : Grid, e.paint grid = grid.paintErrors messages e.size := by
  obtain ⟨messages, hmessages⟩ := Option.isSome_iff_exists.mp hshown.2
  refine ⟨messages, hmessages, fun grid => ?_⟩
  unfold paint
  rw [hshown.1, hmessages]

/-! ### The flag up -/

/-- With the errors shown, deselecting only hides them. -/
theorem handle_deselect_of_up (h : e.showErrors) :
    (e.handle .deselect).1 = relayout { e with showErrors := false } := by
  rw [handle_of_ne_quit e (by simp), apply, deselect, if_pos h]

/-- Lowering the flag changes nothing else of what is shown. -/
theorem Valid.deselect_of_up (h : Valid g entry e) (hup : e.showErrors) :
    let e' := (e.handle .deselect).1
    e'.showErrors = false ∧ e'.mode = e.mode ∧ e'.root = e.root ∧ e'.rows = e.rows ∧
      e'.selected = e.selected := by
  intro e'
  have he' : e' = relayout { e with showErrors := false } := handle_deselect_of_up hup
  -- the rows do not depend on the errors, so the layout gives the same ones
  have hrows : e'.rows = e.rows := by
    rw [he', h.rows_eq]
    rfl
  refine ⟨by rw [he']; rfl, by rw [he']; rfl, by rw [he']; rfl, hrows, ?_⟩
  obtain ⟨place, hplace, -⟩ := h.inView
  rw [he'] at hrows ⊢
  -- the selection is one of the rows, so it stays
  refine relayout_selected ?_
  rw [hrows]
  exact Option.isSome_iff_exists.mpr ⟨place, hplace⟩

/-! ### The flag down -/

/-- The entry comes into focus again, and nothing is selected. -/
theorem Valid.deselect_of_down (h : Valid g entry e) (hdown : e.showErrors = false) :
    (e.handle .deselect).1.mode = .browsing ∧ (e.handle .deselect).1.root = entry := by
  have hdown' : ¬ e.showErrors := by simp [hdown]
  rw [handle_of_ne_quit e (by simp), apply, deselect, if_neg hdown', relayout_mode, relayout_root]
  exact ⟨rfl, h.entry_eq⟩

/-! ### Both -/

/-- **What the event leaves.** In a state that can be reached, the event takes away the messages
that are over the screen, and leaves the focus where it is. If there are none, the entry comes into
focus exactly if the flag for messages is down, or nothing was selected. Otherwise the event lowers
the flag and does nothing that can be seen, and only a second one brings the entry into focus. -/
theorem deselect_of_reachable (hg : g.Joined) (hentry : g.contains entry)
    (h : Reachable g entry e) :
    let e' := (e.handle .deselect).1
    let e'' := (e'.handle .deselect).1
    (e.showErrors ∧ e.hasErrors e.selected →
      (∃ messages, e.messages? e.selected = some messages ∧
        ∀ grid : Grid, e.paint grid = grid.paintErrors messages e.size) ∧
      (∀ grid, e'.paint grid = e'.paintStatus (e'.paintBody (Grid.blank e'.size))) ∧
      e'.mode = e.mode ∧ e'.root = e.root) ∧
    (¬ (e.showErrors ∧ e.hasErrors e.selected) →
      (∀ grid, e.paint grid = e.paintStatus (e.paintBody (Grid.blank e.size))) ∧
      (e'.mode = .browsing ∧ e'.root = entry ↔ e.showErrors = false ∨ e.mode = .browsing) ∧
      (e.showErrors → e'.showErrors = false ∧ e'.mode = e.mode ∧ e'.root = e.root ∧
        e'.rows = e.rows ∧ e'.selected = e.selected ∧
        e''.mode = .browsing ∧ e''.root = entry)) := by
  intro e' e''
  have hvalid := h.valid hg hentry
  refine ⟨fun hshown => ?_, fun hclosed => ⟨paint_eq hclosed, ?_, fun hup => ?_⟩⟩
  · obtain ⟨hdown, hmode, hroot, -⟩ := hvalid.deselect_of_up hshown.1
    refine ⟨paint_messages hshown, paint_eq ?_, hmode, hroot⟩
    rintro ⟨hup, -⟩
    exact Bool.false_ne_true (hdown.symm.trans hup)
  · cases hflag : e.showErrors with
    | false => exact iff_of_true (hvalid.deselect_of_down hflag) (.inl rfl)
    | true =>
      obtain ⟨-, hmode, hroot, -⟩ := hvalid.deselect_of_up hflag
      -- the focus is as it was, and that of browsing is the entry
      constructor
      · rintro ⟨hbrowsing, -⟩
        exact .inr (hmode.symm.trans hbrowsing)
      · intro hbrowsing
        have hbrowsing : e.mode = .browsing := hbrowsing.resolve_left (by simp)
        exact ⟨hmode.trans hbrowsing, hroot.trans (hvalid.root_eq hbrowsing)⟩
  · obtain ⟨hdown, hmode, hroot, hrows, hselected⟩ := hvalid.deselect_of_up hup
    have hvalid' : Valid g entry e' := hvalid.handle hg hentry .deselect
    exact ⟨hdown, hmode, hroot, hrows, hselected, hvalid'.deselect_of_down hdown⟩

/-- The messages of a module are shown, and go away. -/
theorem deselect_of_messages :
    let a : Path := ⟨"/p/a"⟩
    let b : Path := ⟨"/p/b"⟩
    let g := ModuleGraph.ofChanges ⟨"/p"⟩
      [.addNode { id := a, language := "python", errors := [⟨.read, "gone"⟩] },
      .addNode { id := b, language := "python" }, .addEdge { source := a, target := b }]
    let e := ((start g a ⟨20, 4⟩).handle .toggleErrors).1
    let e' := (e.handle .deselect).1
    g.Joined ∧ g.contains a ∧ Reachable g a e ∧ (e.showErrors ∧ e.hasErrors e.selected) ∧
    (∃ messages, e.messages? e.selected = some messages ∧
      ∀ grid : Grid, e.paint grid = grid.paintErrors messages e.size) ∧
    (∀ grid, e'.paint grid = e'.paintStatus (e'.paintBody (Grid.blank e'.size))) ∧
    e'.mode = e.mode ∧ e'.root = e.root := by
  intro a b g e e'
  have hg : g.Joined := (ModuleGraph.sound_ofChanges _ _).toJoined
  have ha : g.contains a := by decide
  have he : Reachable g a e := (Reachable.start ⟨20, 4⟩).handle _
  have hshown : e.showErrors ∧ e.hasErrors e.selected := by decide
  exact ⟨hg, ha, he, hshown, (deselect_of_reachable hg ha he).1 hshown⟩

/-- The messages of the entry are asked for, and the module below it is selected and put into focus.
No messages are over the screen then, but the event does not bring the entry into focus. -/
theorem deselect_unseen :
    let a : Path := ⟨"/p/a"⟩
    let b : Path := ⟨"/p/b"⟩
    let g := ModuleGraph.ofChanges ⟨"/p"⟩
      [.addNode { id := a, language := "python", errors := [⟨.read, "gone"⟩] },
      .addNode { id := b, language := "python" }, .addEdge { source := a, target := b }]
    let e := ((((start g a ⟨20, 4⟩).handle .toggleErrors).1.handle .moveDown).1.handle .select).1
    let e' := (e.handle .deselect).1
    g.Joined ∧ g.contains a ∧ Reachable g a e ∧
    (∀ grid, e.paint grid = e.paintStatus (e.paintBody (Grid.blank e.size))) ∧
    e'.mode = .selected ∧ e'.root = b := by
  intro a b g e e'
  have hg : g.Joined := (ModuleGraph.sound_ofChanges _ _).toJoined
  have ha : g.contains a := by decide
  have he : Reachable g a e := (((Reachable.start ⟨20, 4⟩).handle _).handle _).handle _
  -- the list of errors was left when the selection went to a module without one
  have hclosed : ¬ (e.showErrors ∧ e.hasErrors e.selected) := by decide
  exact ⟨hg, ha, he, paint_eq hclosed, by decide, by decide⟩

end Explorer

end ImportAtlas
