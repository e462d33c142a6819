import ImportAtlas.Explorer.Layout
import ImportAtlas.Proofs.Graph.Invariant
import Mathlib.Data.Nat.Dist

/-!
# The layout of a graph

What a layout has, whatever the view and whatever is expanded:

* `Layout.spread_visible` — each module has one row, so `Layout.place?` finds the row of a module
  (`Spread.place?_eq`);
* `Layout.contains_of_mem_visible`, `Layout.among_visible` — the rows are nodes, and the module in
  focus is the first of them;
* `Layout.clampOffset_inView` — a selection that has a row is in view after scrolling, and the rows
  fill the screen as far as there are any; an offset with which it is so stays
  (`clampOffset_y_eq`).

A walk is judged by what waits in its queue and what has been seen: the queue is seen, and has each
module once (`walk_spread`). That it keeps to modules of one kind is a statement about any property
that passes along dependencies (`mem_walk`).
-/

namespace ImportAtlas

namespace Layout

variable {g : ModuleGraph} {isOpen : Path → Nat → Bool} {rows : List (Path × Nat)} {p : Path}

/-- No module has two rows. -/
def Spread (rows : List (Path × Nat)) : Prop :=
  rows.Pairwise fun r t => ¬ r.1.same t.1

/-! ### Where a module stands -/

/-- A place is that of a row of the same module, with the column given by its distance. -/
theorem place?_eq_some {place : Point} (h : place? rows p = some place) :
    ∃ r, rows[place.y]? = some r ∧ r.1.same p ∧ place.x = r.2 * indent := by
  obtain ⟨x, hfind, rfl⟩ := Option.map_eq_some_iff.mp h
  have hsame : x.1.1.same p := by simpa using List.find?_some hfind
  have hget := List.mem_zipIdx_iff_getElem?.mp (List.mem_of_find?_eq_some hfind)
  exact ⟨x.1, hget, hsame, rfl⟩

/-- A module has a place exactly if it is one of the rows. -/
theorem place?_isSome : (place? rows p).isSome ↔ p.among (rows.map (·.1)) := by
  rw [place?, Option.isSome_map, List.find?_isSome, Path.among_iff]
  constructor
  · rintro ⟨x, hx, hsame⟩
    exact ⟨x.1.1, List.mem_map_of_mem (List.fst_mem_of_mem_zipIdx hx), hsame⟩
  · rintro ⟨q, hq, hsame⟩
    obtain ⟨r, hr, rfl⟩ := List.mem_map.mp hq
    obtain ⟨i, hi⟩ := List.mem_iff_getElem?.mp hr
    exact ⟨(r, i), List.mem_zipIdx_iff_getElem?.mpr hi, hsame⟩

/-- The row in which a module stands is one of the rows. -/
theorem y_lt_of_place? {place : Point} (h : place? rows p = some place) :
    place.y < rows.length := by
  obtain ⟨r, hr, -⟩ := place?_eq_some h
  exact (List.getElem?_eq_some_iff.mp hr).1

/-- Of two rows for one module there would be an earlier and a later one. -/
theorem Spread.index_eq (h : Spread rows) {i j : Nat} {r t : Path × Nat} (hr : rows[i]? = some r)
    (ht : rows[j]? = some t) (hsame : r.1.same t.1) : i = j := by
  obtain ⟨hi, rfl⟩ := List.getElem?_eq_some_iff.mp hr
  obtain ⟨hj, rfl⟩ := List.getElem?_eq_some_iff.mp ht
  rcases Nat.lt_trichotomy i j with hlt | heq | hgt
  · exact absurd hsame (List.pairwise_iff_getElem.mp h _ _ hi hj hlt)
  · exact heq
  · exact absurd (Path.same_symm hsame) (List.pairwise_iff_getElem.mp h _ _ hj hi hgt)

/-- A module has one row. -/
theorem Spread.eq_of_same (h : Spread rows) {r t : Path × Nat} (hr : r ∈ rows) (ht : t ∈ rows)
    (hsame : r.1.same t.1) : r = t := by
  obtain ⟨i, hi⟩ := List.mem_iff_getElem?.mp hr
  obtain ⟨j, hj⟩ := List.mem_iff_getElem?.mp ht
  rw [h.index_eq hi hj hsame, hj] at hi
  exact (Option.some.inj hi).symm

/-- Where each module has one row, a row is where its module stands. -/
theorem Spread.place?_eq (h : Spread rows) {i : Nat} {r : Path × Nat} (hr : rows[i]? = some r) :
    place? rows r.1 = some ⟨r.2 * indent, i⟩ := by
  have hsome : (place? rows r.1).isSome :=
    place?_isSome.mpr (Path.among_of_mem (List.mem_map_of_mem (List.mem_of_getElem? hr)))
  obtain ⟨place, hplace⟩ := Option.isSome_iff_exists.mp hsome
  obtain ⟨t, ht, hsame, hx⟩ := place?_eq_some hplace
  obtain rfl : place.y = i := h.index_eq ht hr hsame
  obtain rfl : r = t := Option.some.inj (hr.symm.trans ht)
  rw [hplace, ← hx]

/-! ### Walks -/

/-- What a row adds to the queue. -/
def fresh (g : ModuleGraph) (isOpen : Path → Nat → Bool) (id : Path) (depth : Nat)
    (seen : List Path) : List Path :=
  if isOpen id depth then (g.dependencies id).filter (!·.among seen) else []

/-- The walk lists the first of the queue and puts what is new behind the others. -/
theorem walk_cons (n : Nat) (id : Path) (depth : Nat) (queue : List (Path × Nat))
    (seen : List Path) :
    let new := fresh g isOpen id depth seen
    let rest := walk g isOpen n (queue ++ new.map (·, depth + 1)) (seen ++ new)
    walk g isOpen (n + 1) ((id, depth) :: queue) seen = ((id, depth) :: rest.1, rest.2) := rfl

/-- What a module leads to is new if the module is open and it has not been listed. -/
theorem mem_fresh {id : Path} {depth : Nat} {seen : List Path} :
    p ∈ fresh g isOpen id depth seen ↔
      isOpen id depth ∧ p ∈ g.dependencies id ∧ ¬ p.among seen := by
  unfold fresh
  split
  · next hopen => simp [hopen]
  · next hopen => simp [hopen]

/-- A row adds each module once. -/
theorem fresh_spread (g : ModuleGraph) (isOpen : Path → Nat → Bool) (id : Path) (depth : Nat)
    (seen : List Path) :
    (fresh g isOpen id depth seen).Pairwise fun p q => ¬ p.same q := by
  have hsublist : (fresh g isOpen id depth seen).Sublist (g.dependencies id) := by
    unfold fresh
    split
    · exact List.filter_sublist
    · exact List.nil_sublist _
  exact ((Path.ascending_distinct _).sublist hsublist).imp Path.not_same_of_lt

/-- What holds of the modules that wait, at their distances, holds of all rows, if it passes from
the open ones to their dependencies one step further. -/
theorem mem_walk {P : Path → Nat → Prop}
    (hP : ∀ p d, P p d → isOpen p d → ∀ q ∈ g.dependencies p, P q (d + 1)) {n : Nat}
    {queue : List (Path × Nat)} {seen : List Path} (hqueue : ∀ q ∈ queue, P q.1 q.2) :
    ∀ r ∈ (walk g isOpen n queue seen).1, P r.1 r.2 := by
  induction n generalizing queue seen with
  | zero => simp [walk]
  | succ n ih =>
    cases queue with
    | nil => simp [walk]
    | cons first queue =>
      obtain ⟨id, depth⟩ := first
      have hid : P id depth := hqueue (id, depth) List.mem_cons_self
      intro r hr
      rw [walk_cons] at hr
      rcases List.mem_cons.mp hr with rfl | hr
      · exact hid
      · refine ih ?_ r hr
        intro q hq
        rcases List.mem_append.mp hq with hq | hq
        · exact hqueue q (List.mem_cons_of_mem _ hq)
        · -- what is put into the queue are dependencies of an open module
          obtain ⟨d, hd, rfl⟩ := List.mem_map.mp hq
          obtain ⟨hopen, hd, -⟩ := mem_fresh.mp hd
          exact hP id depth hid hopen d hd

/-- A walk gives each module one row. Its rows are of modules that waited or had not been seen, and
it remembers them beside what had been seen. -/
theorem walk_spread (g : ModuleGraph) (isOpen : Path → Nat → Bool) (n : Nat)
    {queue : List (Path × Nat)} {seen : List Path} (hspread : Spread queue)
    (hseen : ∀ q ∈ queue, q.1.among seen) :
    let rows := (walk g isOpen n queue seen).1
    let seen' := (walk g isOpen n queue seen).2
    Spread rows ∧ (∀ p : Path, p.among seen → p.among seen') ∧
      ∀ r ∈ rows, r.1.among seen' ∧ ((∃ q ∈ queue, q.1.same r.1) ∨ ¬ r.1.among seen) := by
  induction n generalizing queue seen with
  | zero => simp [walk, Spread]
  | succ n ih =>
    cases queue with
    | nil => simp [walk, Spread]
    | cons first queue =>
      obtain ⟨id, depth⟩ := first
      obtain ⟨hid, hqueue⟩ := List.pairwise_cons.mp hspread
      have hid_seen : id.among seen := hseen (id, depth) List.mem_cons_self
      have hnew := fresh_spread g isOpen id depth seen
      have hunseen : ∀ p ∈ fresh g isOpen id depth seen, ¬ p.among seen :=
        fun p hp => (mem_fresh.mp hp).2.2
      rw [walk_cons]
      generalize fresh g isOpen id depth seen = new at hnew hunseen ⊢
      -- what is new has not been seen, unlike what waits
      have hspread' : Spread (queue ++ new.map (·, depth + 1)) := by
        refine List.pairwise_append.mpr ⟨hqueue, List.pairwise_map.mpr hnew, ?_⟩
        intro q hq d hd hsame
        obtain ⟨p, hp, rfl⟩ := List.mem_map.mp hd
        exact hunseen p hp (Path.among_congr hsame seen ▸ hseen q (List.mem_cons_of_mem _ hq))
      have hseen' : ∀ q ∈ queue ++ new.map (·, depth + 1), q.1.among (seen ++ new) := by
        intro q hq
        rw [Path.among_append, Bool.or_eq_true]
        rcases List.mem_append.mp hq with hq | hq
        · exact .inl (hseen q (List.mem_cons_of_mem _ hq))
        · obtain ⟨p, hp, rfl⟩ := List.mem_map.mp hq
          exact .inr (Path.among_of_mem hp)
      obtain ⟨hrows, hgrows, hmem⟩ := ih hspread' hseen'
      have hkept : ∀ p : Path, p.among seen → p.among (seen ++ new) := fun p hp => by
        rw [Path.among_append, hp, Bool.true_or]
      -- a row further down is of a module that waits behind, or had not been seen
      have hlater : ∀ r ∈ (walk g isOpen n (queue ++ new.map (·, depth + 1)) (seen ++ new)).1,
          (∃ q ∈ queue, q.1.same r.1) ∨ ¬ r.1.among seen := by
        intro r hr
        rcases (hmem r hr).2 with ⟨q, hq, hsame⟩ | hnot
        · rcases List.mem_append.mp hq with hq | hq
          · exact .inl ⟨q, hq, hsame⟩
          · obtain ⟨p, hp, rfl⟩ := List.mem_map.mp hq
            exact .inr fun hr => hunseen p hp (Path.among_congr hsame seen ▸ hr)
        · exact .inr fun hr => hnot (hkept _ hr)
      refine ⟨List.pairwise_cons.mpr ⟨fun r hr hsame => ?_, hrows⟩, fun p hp => ?_, fun r hr => ?_⟩
      · rcases hlater r hr with ⟨q, hq, hqr⟩ | hnot
        · exact hid q hq (Path.same_trans hsame (Path.same_symm hqr))
        · exact hnot (Path.among_congr hsame seen ▸ hid_seen)
      · exact hgrows p (hkept p hp)
      · rcases List.mem_cons.mp hr with rfl | hr
        · exact ⟨hgrows _ (hkept _ hid_seen), .inl ⟨_, List.mem_cons_self, Path.same_refl _⟩⟩
        · refine ⟨(hmem r hr).1, (hlater r hr).imp_left ?_⟩
          rintro ⟨q, hq, hsame⟩
          exact ⟨q, List.mem_cons_of_mem _ hq, hsame⟩

theorem mem_walkAll {P : Path → Nat → Prop}
    (hP : ∀ p d, P p d → isOpen p d → ∀ q ∈ g.dependencies p, P q (d + 1))
    {starts seen : List Path} (hstarts : ∀ p ∈ starts, P p 0) :
    ∀ r ∈ walkAll g isOpen seen starts, P r.1 r.2 := by
  induction starts generalizing seen with
  | nil => simp [walkAll]
  | cons p starts ih =>
    obtain ⟨hp, hstarts⟩ := List.forall_mem_cons.mp hstarts
    rw [walkAll]
    split
    · exact ih hstarts
    · -- the walk from one start keeps the property, whatever has been listed before
      have hwalk : ∀ r ∈ (walk g isOpen (bound g) [(p, 0)] (seen ++ [p])).1, P r.1 r.2 :=
        mem_walk hP (by simpa using hp)
      intro r hr
      rcases List.mem_append.mp hr with hr | hr
      · exact hwalk r hr
      · exact ih hstarts r hr

/-- Walks from several starts in turn give each module one row, and none to what had been seen. -/
theorem walkAll_spread (starts seen : List Path) :
    Spread (walkAll g isOpen seen starts) ∧
      ∀ r ∈ walkAll g isOpen seen starts, ¬ r.1.among seen := by
  induction starts generalizing seen with
  | nil => simp [walkAll, Spread]
  | cons p starts ih =>
    rw [walkAll]
    split
    · exact ih seen
    · next hp =>
      have hone : Spread [(p, 0)] := List.pairwise_singleton _ _
      have hqueue : ∀ q ∈ [(p, 0)], q.1.among (seen ++ [p]) := by simp
      obtain ⟨hrows, hgrows, hmem⟩ := walk_spread g isOpen (bound g) hone hqueue
      obtain ⟨hrest, hunseen⟩ := ih (walk g isOpen (bound g) [(p, 0)] (seen ++ [p])).2
      have hkept : ∀ q : Path, q.among seen → q.among (seen ++ [p]) := fun q hq => by
        rw [Path.among_append, hq, Bool.true_or]
      refine ⟨List.pairwise_append.mpr ⟨hrows, hrest, fun r hr t ht hsame => ?_⟩, fun r hr => ?_⟩
      · -- the later walks keep off what this one has seen
        exact hunseen t ht (Path.among_congr hsame _ ▸ (hmem r hr).1)
      · rcases List.mem_append.mp hr with hr | hr
        · rcases (hmem r hr).2 with ⟨q, hq, hsame⟩ | hnot
          · rw [List.mem_singleton.mp hq] at hsame
            exact fun hr => hp (Path.among_congr hsame seen ▸ hr)
          · exact fun hr => hnot (hkept _ hr)
        · exact fun hseen => hunseen r hr (hgrows _ (hkept _ hseen))

/-! ### The visible rows -/

variable {view : ViewMode} {expanded : List Path} {root : Path}

/-- No module has two rows. -/
theorem spread_visible (g : ModuleGraph) (view : ViewMode) (expanded : List Path) (root : Path) :
    Spread (visible g view expanded root) := by
  unfold visible
  split
  · exact List.Pairwise.nil
  · exact (walkAll_spread _ _).1

/-- A node is kept at its own path. -/
theorem contains_id (hg : g.Indexed) {k : Path} {node : ModuleNode} (h : (k, node) ∈ g.nodes) :
    g.contains node.id := by
  have hid : node.id = k := hg.keyed (k, node) h
  rw [hid, ModuleGraph.contains, Keyed.holds_iff_among]
  exact Path.among_of_mem (List.mem_map_of_mem h)

/-- Dependencies are nodes. -/
theorem contains_dependency (hg : g.Joined) (p : Path) :
    ∀ q ∈ g.dependencies p, g.contains q := by
  intro q hq
  obtain ⟨e, he, -, htarget⟩ := (hg.among_dependencies p q).mp (Path.among_of_mem hq)
  rw [← ModuleGraph.contains_congr htarget]
  exact hg.target_mem e he

/-- The node that is found for a path has the same path. -/
theorem mem_of_node? (hg : g.Indexed) {node : ModuleNode} (h : g.node? root = some node) :
    (node.id, node) ∈ g.nodes ∧ node.id.same root := by
  obtain ⟨k, hk, hmem⟩ := Keyed.mem_of_value? h
  have hid : node.id = k := hg.keyed _ hmem
  rw [hid]
  exact ⟨hmem, hk⟩

/-- All rows are of nodes. -/
theorem contains_of_mem_visible (hg : g.Joined) :
    ∀ r ∈ visible g view expanded root, g.contains r.1 := by
  unfold visible
  split
  · simp
  · next node hnode =>
    -- the walks begin at nodes, and go on to nodes
    refine mem_walkAll (P := fun p _ => g.contains p)
      (fun p _ _ _ => contains_dependency hg p) ?_
    intro p hp
    rcases List.mem_cons.mp hp with rfl | hp
    · exact contains_id hg.toIndexed (mem_of_node? hg.toIndexed hnode).1
    · cases view with
      | focus => exact absurd hp List.not_mem_nil
      | overview =>
        obtain ⟨⟨k, other⟩, hkn, rfl⟩ := List.mem_map.mp hp
        exact contains_id hg.toIndexed hkn

/-- The first row is the module in focus. -/
theorem visible_eq_cons (hg : g.Indexed) (view : ViewMode) (expanded : List Path)
    (hroot : g.contains root) :
    ∃ id rows, visible g view expanded root = (id, 0) :: rows ∧ id.same root := by
  rw [ModuleGraph.contains, Keyed.holds_eq] at hroot
  obtain ⟨node, hnode⟩ := Option.isSome_iff_exists.mp hroot
  have hnode' : g.node? root = some node := hnode
  unfold visible
  rw [hnode']
  exact ⟨node.id, _, rfl, (mem_of_node? hg hnode).2⟩

/-- The root is one of the rows. -/
theorem among_visible (hg : g.Indexed) (hroot : g.contains root) :
    root.among ((visible g view expanded root).map (·.1)) := by
  obtain ⟨id, rows, heq, hsame⟩ := visible_eq_cons hg view expanded hroot
  rw [heq, List.map_cons, Path.among_cons, hsame, Bool.true_or]

/-! ### Scrolling -/

/-- A place is on the part of the screen that shows modules. An empty screen shows nothing, which is
no fault of the offset. -/
structure InView (size : ScreenSize) (offset place : Point) : Prop where
  rows : 0 < bodyRows size → offset.y ≤ place.y ∧ place.y < offset.y + bodyRows size
  columns : 0 < size.columns → offset.x ≤ place.x ∧ place.x < offset.x + size.columns

/-- A clamped number is not below the bounds. -/
theorem le_clamp {lo hi : Nat} (h : lo ≤ hi) (n : Nat) : lo ≤ clamp lo hi n := by
  unfold clamp
  split
  · exact Nat.le_refl _
  · split
    · exact h
    · omega

/-- A clamped number is not above the bounds. -/
theorem clamp_le {lo hi : Nat} (h : lo ≤ hi) (n : Nat) : clamp lo hi n ≤ hi := by
  unfold clamp
  split
  · exact h
  · split
    · exact Nat.le_refl _
    · omega

/-- A number within the bounds stays. -/
theorem clamp_eq_self {lo hi n : Nat} (hlo : lo ≤ n) (hhi : n ≤ hi) : clamp lo hi n = n := by
  unfold clamp
  rw [if_neg (Nat.not_lt.mpr hlo), if_neg (Nat.not_lt.mpr hhi)]

/-- Any other number between the bounds is further. -/
theorem dist_clamp_lt {lo hi j n : Nat} (hlo : lo ≤ j) (hhi : j ≤ hi) (hne : j ≠ clamp lo hi n) :
    Nat.dist n (clamp lo hi n) < Nat.dist n j := by
  unfold Nat.dist
  unfold clamp at hne ⊢
  by_cases hbelow : n < lo
  · rw [if_pos hbelow] at hne ⊢
    omega
  · rw [if_neg hbelow] at hne ⊢
    by_cases habove : hi < n
    · rw [if_pos habove] at hne ⊢
      omega
    · -- between the bounds `n` itself is the nearest, and `j` is another number
      rw [if_neg habove] at hne ⊢
      omega

/-- Among all numbers within the bounds the clamped one is nearest. -/
theorem dist_clamp_le {lo hi j : Nat} (hlo : lo ≤ j) (hhi : j ≤ hi) (n : Nat) :
    Nat.dist n (clamp lo hi n) ≤ Nat.dist n j := by
  by_cases heq : j = clamp lo hi n
  · exact Nat.le_of_eq (congrArg (Nat.dist n) heq.symm)
  · exact Nat.le_of_lt (dist_clamp_lt hlo hhi heq)

/-- With a body the first row is kept between its bounds. -/
theorem clampOffset_y {size : ScreenSize} (offset selected : Point) (labelEnd rows : Nat)
    (hbody : bodyRows size ≠ 0) :
    (clampOffset offset selected labelEnd rows size).y =
      clamp (rowBounds selected.y rows (bodyRows size)).lo
        (rowBounds selected.y rows (bodyRows size)).hi offset.y :=
  if_neg hbody

/-- The column of the offset, on a screen that has columns. -/
theorem clampOffset_x {size : ScreenSize} (offset selected : Point) (labelEnd rows : Nat)
    (hcolumns : size.columns ≠ 0) :
    (clampOffset offset selected labelEnd rows size).x =
      clamp (columnBounds selected.x labelEnd size.columns).lo
        (columnBounds selected.x labelEnd size.columns).hi offset.x :=
  if_neg hcolumns

/-- The bounds of the rows are in order, by the maximum in the upper one. -/
theorem rowBounds_lo_le_hi (selected rows body : Nat) :
    (rowBounds selected rows body).lo ≤ (rowBounds selected rows body).hi :=
  Nat.le_max_right _ _

/-- Those of the columns too, by the minimum in the lower one: this is what a label that is wider
than the screen needs. -/
theorem columnBounds_lo_le_hi (selected labelEnd columns : Nat) :
    (columnBounds selected labelEnd columns).lo ≤ (columnBounds selected labelEnd columns).hi :=
  Nat.min_le_right _ _

/-- An offset that shows the selection, and nothing below the last row, is kept. -/
theorem clampOffset_y_eq {offset selected : Point} {rows : Nat} (labelEnd : Nat)
    {size : ScreenSize} (hle : offset.y ≤ selected.y)
    (hlt : selected.y < offset.y + bodyRows size) (hend : offset.y ≤ rows - bodyRows size) :
    (clampOffset offset selected labelEnd rows size).y = offset.y := by
  rw [clampOffset_y _ _ _ _ (by omega)]
  dsimp only [rowBounds]
  exact clamp_eq_self (by omega) (by omega)

/-- After scrolling a selection that has a row is in view, and the last row is not above the end of
the screen. -/
theorem clampOffset_inView (offset : Point) {selected : Point} {rows : Nat} (labelWidth : Nat)
    (size : ScreenSize) (hselected : selected.y < rows) :
    let new := clampOffset offset selected (labelEnd selected.x labelWidth) rows size
    new.y ≤ rows - bodyRows size ∧ InView size new selected := by
  intro new
  refine ⟨?_, fun hbody => ?_, fun hcolumns => ?_⟩
  · -- without a body nothing is shown, and the offset is none
    by_cases hbody : bodyRows size = 0
    · have hy : new.y = 0 := if_pos hbody
      omega
    · have hy : new.y = _ := clampOffset_y offset selected _ rows hbody
      have hle := clamp_le (rowBounds_lo_le_hi selected.y rows (bodyRows size)) offset.y
      rw [← hy] at hle
      dsimp only [rowBounds] at hle
      omega
  · have hy : new.y = _ :=
      clampOffset_y offset selected _ rows (Nat.ne_of_gt hbody)
    have hbounds := rowBounds_lo_le_hi selected.y rows (bodyRows size)
    have hle := clamp_le hbounds offset.y
    have hge := le_clamp hbounds offset.y
    rw [← hy] at hle hge
    dsimp only [rowBounds] at hle hge
    exact ⟨by omega, by omega⟩
  · have hx : new.x = _ :=
      clampOffset_x offset selected _ rows (Nat.ne_of_gt hcolumns)
    have hbounds := columnBounds_lo_le_hi selected.x (labelEnd selected.x labelWidth) size.columns
    have hle := clamp_le hbounds offset.x
    have hge := le_clamp hbounds offset.x
    rw [← hx] at hle hge
    dsimp only [columnBounds, labelEnd] at hle hge
    exact ⟨by omega, by omega⟩

end Layout

end ImportAtlas
