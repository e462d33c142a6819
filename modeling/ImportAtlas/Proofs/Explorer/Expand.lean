import ImportAtlas.Proofs.Explorer.Reachable

/-!
# Showing and hiding dependencies

Expanding a module changes the layout below its row only: that the module is open matters for the
first time when its row has been made. So the walks with and without it make the same rows up to
that one, and then part (`walk_forks`).

* `Layout.Forks` — two lists of rows that part behind the row of a module;
* `Explorer.among_toggleExpand` — an event changes for one module whether it is expanded, the one
  that is selected;
* `Explorer.toggleExpand_of_reachable` — the selection keeps its place, and the rows above it stay;
  a second event takes the first one back.
-/

namespace ImportAtlas

namespace Layout

variable {g : ModuleGraph} {isOpen isOpen' : Path → Nat → Bool} {rows rows' : List (Path × Nat)}
  {p q s : Path}

/-! ### Rows that part -/

/-- Two lists of rows are the same down to the row of a module. -/
def Forks (s : Path) (rows rows' : List (Path × Nat)) : Prop :=
  ∃ front r tail tail', rows = front ++ r :: tail ∧ rows' = front ++ r :: tail' ∧ r.1.same s

/-- Rows above two layouts that fork do not change where they fork. -/
theorem Forks.append_left (h : Forks s rows rows') (above : List (Path × Nat)) :
    Forks s (above ++ rows) (above ++ rows') := by
  obtain ⟨front, r, tail, tail', rfl, rfl, hr⟩ := h
  exact ⟨above ++ front, r, tail, tail', by simp, by simp, hr⟩

/-- Rows below two layouts that fork, which may be others on each side, do not change where they
fork. -/
theorem Forks.append_right (h : Forks s rows rows') (below below' : List (Path × Nat)) :
    Forks s (rows ++ below) (rows' ++ below') := by
  obtain ⟨front, r, tail, tail', rfl, rfl, hr⟩ := h
  exact ⟨front, r, tail ++ below, tail' ++ below', by simp, by simp, hr⟩

/-- A place is asked for by what the path leads to, not by its text. -/
theorem place?_congr (rows : List (Path × Nat)) (h : p.same q) :
    place? rows p = place? rows q := by
  simp only [place?, Path.same_congr_right h]

/-- The module where rows part has the same place in both, and the same rows above it. -/
theorem Forks.place?_eq (h : Forks s rows rows') (hrows : Spread rows) (hrows' : Spread rows')
    {place : Point} (hplace : place? rows s = some place) :
    place? rows' s = some place ∧ rows'.take (place.y + 1) = rows.take (place.y + 1) := by
  obtain ⟨front, r, tail, tail', rfl, rfl, hr⟩ := h
  have hmiddle : ∀ tail : List (Path × Nat), (front ++ r :: tail)[front.length]? = some r := by
    simp
  rw [← place?_congr _ hr, hrows.place?_eq (hmiddle tail), Option.some.injEq] at hplace
  subst hplace
  rw [← place?_congr _ hr, hrows'.place?_eq (hmiddle tail')]
  exact ⟨rfl, by simp [List.take_append]⟩

/-! ### Walks that part -/

/-- Two walks that differ in one module, whether it is open, part behind its row. If it has none,
they are the same. -/
theorem walk_forks (hopen : ∀ p d, ¬ p.same s → isOpen p d = isOpen' p d) (n : Nat)
    (queue : List (Path × Nat)) (seen : List Path) :
    walk g isOpen n queue seen = walk g isOpen' n queue seen ∨
      Forks s (walk g isOpen n queue seen).1 (walk g isOpen' n queue seen).1 := by
  induction n generalizing queue seen with
  | zero => exact .inl rfl
  | succ n ih =>
    cases queue with
    | nil => exact .inl rfl
    | cons first queue =>
      obtain ⟨id, depth⟩ := first
      by_cases hid : id.same s
      · exact .inr ⟨[], (id, depth), _, _, rfl, rfl, hid⟩
      · -- the same is put into the queue
        have hfresh : fresh g isOpen id depth seen = fresh g isOpen' id depth seen := by
          rw [fresh, fresh, hopen id depth hid]
        rw [walk_cons, walk_cons, hfresh]
        refine (ih _ _).imp (fun heq => ?_) fun hforks => hforks.append_left [(id, depth)]
        rw [heq]

/-- Two ways to say what is open, which differ at `s` only, give the same rows or rows that fork at
`s`: what comes after may have changed altogether. -/
theorem walkAll_forks (hopen : ∀ p d, ¬ p.same s → isOpen p d = isOpen' p d) (starts : List Path)
    (seen : List Path) :
    walkAll g isOpen seen starts = walkAll g isOpen' seen starts ∨
      Forks s (walkAll g isOpen seen starts) (walkAll g isOpen' seen starts) := by
  induction starts generalizing seen with
  | nil => exact .inl rfl
  | cons p starts ih =>
    simp only [walkAll]
    split
    · exact ih seen
    · rcases walk_forks (g := g) hopen (bound g) [(p, 0)] (seen ++ [p]) with heq | hforks
      · -- the walks from this start are the same, so what follows begins alike
        rw [heq]
        exact (ih _).imp (fun h => by rw [h]) fun h => h.append_left _
      · exact .inr (hforks.append_right _ _)

variable {view : ViewMode} {expanded expanded' : List Path} {root : Path}

/-- Layouts that differ in one module, whether it is expanded, part behind its row. -/
theorem visible_forks (g : ModuleGraph) (view : ViewMode) (root : Path)
    (hother : ∀ p : Path, ¬ p.same s → p.among expanded = p.among expanded') :
    visible g view expanded root = visible g view expanded' root ∨
      Forks s (visible g view expanded root) (visible g view expanded' root) := by
  unfold visible
  split
  · exact .inl rfl
  · exact walkAll_forks (fun p d hp => by simp only [isOpen, hother p hp]) _ _

/-- The layout depends on which modules are expanded, and not on how they are written. -/
theorem visible_congr (h : ∀ p : Path, p.among expanded = p.among expanded') :
    visible g view expanded root = visible g view expanded' root := by
  have hopen : isOpen view expanded = isOpen view expanded' := by
    funext p d
    simp only [isOpen, h p]
  unfold visible
  rw [hopen]

end Layout

namespace Explorer

variable {g : ModuleGraph} {entry : Path} {e : Explorer} {p : Path}

/-- What is expanded changes for the selected module, and for no other. -/
theorem among_toggleExpand (e : Explorer) (p : Path) :
    p.among e.toggleExpand.expanded = xor (p.same e.selected) (p.among e.expanded) := by
  unfold toggleExpand
  split
  · next hselected =>
    change p.among (e.expanded.filter (!·.same e.selected)) = _
    -- it is expanded and closes
    rw [Path.among_filter_not_same]
    cases hp : p.same e.selected with
    | false => simp
    | true => simp [Path.among_congr hp e.expanded, hselected]
  · next hselected =>
    change p.among (Path.distinct (e.expanded ++ [e.selected])) = _
    -- it is closed and expands
    rw [Path.among_distinct, Path.among_append, Path.among_cons, Path.among_nil, Bool.or_false,
      Path.same_comm e.selected p]
    cases hp : p.same e.selected with
    | false => simp
    | true => simp [Path.among_congr hp e.expanded, hselected]

/-- Expanding changes nothing but what is expanded. -/
theorem toggleExpand_eq (e : Explorer) :
    e.toggleExpand = { e with expanded := e.toggleExpand.expanded } := by
  unfold toggleExpand
  split <;> rfl

/-- What is shown after the event: the layout of the same view, from the same module on. -/
theorem handle_toggleExpand (e : Explorer) :
    (e.handle .toggleExpand).1 =
      relayout { e with expanded := e.toggleExpand.expanded } := by
  rw [handle_of_ne_quit e (by simp), apply, ← toggleExpand_eq]

/-- The selected module keeps its place, and the rows down to it stay. -/
theorem Valid.exists_place_toggleExpand (h : Valid g entry e) :
    ∃ place, Layout.place? e.rows e.selected = some place ∧
      Layout.place? (e.handle .toggleExpand).1.rows e.selected = some place ∧
      (e.handle .toggleExpand).1.rows.take (place.y + 1) = e.rows.take (place.y + 1) := by
  obtain ⟨place, hplace, -⟩ := h.inView
  refine ⟨place, hplace, ?_⟩
  rw [handle_toggleExpand, relayout_rows]
  -- only the selection opens or closes
  have hother : ∀ p : Path, ¬ p.same e.selected →
      p.among e.expanded = p.among e.toggleExpand.expanded := by
    intro p hp
    rw [among_toggleExpand, Bool.eq_false_iff.mpr hp, Bool.false_xor]
  rcases Layout.visible_forks e.graph e.view e.root hother with heq | hforks
  · rw [← heq, ← h.rows_eq]
    exact ⟨hplace, rfl⟩
  · rw [← h.rows_eq] at hforks
    -- the layouts fork at the selection, so that the rows down to it are the same
    exact hforks.place?_eq h.spread (Layout.spread_visible _ _ _ _) hplace

/-- The selection is still a row, so it stays. -/
theorem Valid.selected_toggleExpand (h : Valid g entry e) :
    (e.handle .toggleExpand).1.selected = e.selected := by
  obtain ⟨place, -, hplace, -⟩ := h.exists_place_toggleExpand
  rw [handle_toggleExpand] at hplace ⊢
  exact relayout_selected (Option.isSome_iff_exists.mpr ⟨place, hplace⟩)

/-- Expanding and hiding a module again leaves all as it was. -/
theorem Valid.among_toggleExpand_twice (h : Valid g entry e) (p : Path) :
    p.among ((e.handle .toggleExpand).1.handle .toggleExpand).1.expanded =
      p.among e.expanded := by
  have hexpanded : ∀ e : Explorer, (e.handle .toggleExpand).1.expanded = e.toggleExpand.expanded :=
    fun e => by rw [handle_toggleExpand, relayout_expanded]
  rw [hexpanded, among_toggleExpand, h.selected_toggleExpand, hexpanded, among_toggleExpand,
    ← Bool.xor_assoc, Bool.xor_self, Bool.false_xor]

/-- The rows are those of the layout with the new expansions. -/
theorem rows_toggleExpand (e : Explorer) :
    (e.handle .toggleExpand).1.rows =
      Layout.visible e.graph e.view (e.handle .toggleExpand).1.expanded e.root := by
  rw [handle_toggleExpand]
  rfl

/-- The layout is that of the first state again, since the same modules are expanded. -/
theorem Valid.rows_toggleExpand_twice (h : Valid g entry e) :
    ((e.handle .toggleExpand).1.handle .toggleExpand).1.rows = e.rows := by
  rw [rows_toggleExpand, Layout.visible_congr h.among_toggleExpand_twice, handle_toggleExpand]
  exact h.rows_eq.symm

/-- **Expanding in place.** In every state that can be reached, the event that shows or hides the
dependencies of the selection changes for no other module whether it is expanded. The selection
stays, and the rows down to it are the same. A second event restores what was expanded, and all
rows. -/
theorem toggleExpand_of_reachable (hg : g.Joined) (hentry : g.contains entry)
    (h : Reachable g entry e) :
    let e' := (e.handle .toggleExpand).1
    let e'' := (e'.handle .toggleExpand).1
    e'.selected = e.selected ∧
    (∀ p : Path, p.among e'.expanded = xor (p.same e.selected) (p.among e.expanded)) ∧
    (∃ place, Layout.place? e.rows e.selected = some place ∧
      Layout.place? e'.rows e'.selected = some place ∧
      e'.rows.take (place.y + 1) = e.rows.take (place.y + 1)) ∧
    (∀ p : Path, p.among e''.expanded = p.among e.expanded) ∧
    e''.rows = e.rows ∧ e''.selected = e.selected := by
  intro e' e''
  have hvalid := h.valid hg hentry
  have hvalid' : Valid g entry e' := (h.handle .toggleExpand).valid hg hentry
  have hselected : e'.selected = e.selected := hvalid.selected_toggleExpand
  refine ⟨hselected, fun p => ?_, ?_, hvalid.among_toggleExpand_twice,
    hvalid.rows_toggleExpand_twice, hvalid'.selected_toggleExpand.trans hselected⟩
  · change p.among (e.handle .toggleExpand).1.expanded = _
    rw [handle_toggleExpand, relayout_expanded, among_toggleExpand]
  · -- the rows part behind the selected one, so those before it stay
    rw [hselected]
    exact hvalid.exists_place_toggleExpand

/-- The second module of a chain is selected and shows the third, which stands below it. -/
theorem toggleExpand_of_chain :
    let a : Path := ⟨"/p/a"⟩
    let b : Path := ⟨"/p/b"⟩
    let c : Path := ⟨"/p/c"⟩
    let g := ModuleGraph.ofChanges ⟨"/p"⟩ [.addNode { id := a, language := "python" },
      .addNode { id := b, language := "python" }, .addNode { id := c, language := "python" },
      .addEdge { source := a, target := b }, .addEdge { source := b, target := c }]
    let e := ((start g a ⟨20, 4⟩).handle .moveDown).1
    let e' := (e.handle .toggleExpand).1
    g.Joined ∧ g.contains a ∧ Reachable g a e ∧
    e.rows = [(a, 0), (b, 1)] ∧ e'.rows = [(a, 0), (b, 1), (c, 2)] ∧ e'.selected = e.selected ∧
    (e'.handle .toggleExpand).1.rows = e.rows := by
  intro a b c g e e'
  have hg : g.Joined := (ModuleGraph.sound_ofChanges _ _).toJoined
  have ha : g.contains a := by decide
  have he : Reachable g a e := (Reachable.start ⟨20, 4⟩).handle _
  obtain ⟨hselected, -, -, -, hrows, -⟩ := toggleExpand_of_reachable hg ha he
  exact ⟨hg, ha, he, by decide, by decide, hselected, hrows⟩

end Explorer

end ImportAtlas
