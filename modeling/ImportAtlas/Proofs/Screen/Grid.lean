import ImportAtlas.Screen.Grid
import Mathlib.Data.List.Basic
import Mathlib.Data.List.Induction

/-!
# What stands in a grid

A grid is the cells at its places: two grids of one size with the same cells are equal
(`Grid.ext_cell?`), and each writer has one equation about the cell at a place.

* `Grid.getElem?_row`, `Grid.getElem?_rows` — a row, and all of them;
* `Grid.cell?_set` — one cell is written, if the place is in the grid;
* `Grid.cell?_put` — a text is written, as far as it lies in the grid (`Grid.charAt?`);
* `Grid.cell?_fillRow` — a row is filled;
* `Grid.cell?_foldl_zipIdx` — one thing after the other is drawn, each into a row of its own.

All of them leave the size as it is. So what is outside of the grid stays outside, and the equations
say only what becomes of a cell that is there.
-/

namespace ImportAtlas

namespace Grid

variable {g g' : Grid} {x y x' y' : Nat} {c : Cell}

/-! ### Cells -/

/-- Inside, a cell stands in its row. -/
theorem cell?_of_inside (h : g.inside x y) :
    g.cell? x y = g.cells[y * g.size.columns + x]? := by
  rw [cell?, dif_pos h, Vector.getElem?_eq_getElem (index_lt h)]

theorem cell?_of_not_inside (h : ¬ g.inside x y) : g.cell? x y = none :=
  dif_neg h

/-- There is a cell exactly where the place is inside. -/
theorem isSome_cell? : (g.cell? x y).isSome ↔ g.inside x y := by
  by_cases h : g.inside x y
  · simp [cell?, h]
  · simp [cell?, h]

/-- Different places have different indices. -/
theorem index_inj (h : g.inside x y) (h' : g.inside x' y')
    (heq : y * g.size.columns + x = y' * g.size.columns + x') : x = x' ∧ y = y' := by
  have hpos : 0 < g.size.columns := Nat.lt_of_le_of_lt (Nat.zero_le x) h.1
  have hdiv := congrArg (· / g.size.columns) heq
  have hmod := congrArg (· % g.size.columns) heq
  simp only [Nat.mul_comm _ g.size.columns, Nat.mul_add_div hpos, Nat.mul_add_mod,
    Nat.div_eq_of_lt h.1, Nat.div_eq_of_lt h'.1, Nat.mod_eq_of_lt h.1, Nat.mod_eq_of_lt h'.1,
    Nat.add_zero] at hdiv hmod
  exact ⟨hmod, hdiv⟩

/-- **Extensionality.** A grid is its size and the cells at its places. -/
theorem ext_cell? (hsize : g.size = g'.size) (hcells : ∀ x y, g.cell? x y = g'.cell? x y) :
    g = g' := by
  obtain ⟨size, cells⟩ := g
  obtain ⟨size', cells'⟩ := g'
  obtain rfl : size = size' := hsize
  refine congrArg (Grid.mk size) (Vector.ext fun i hi => ?_)
  -- an index is that of the place with its quotient and remainder
  have hpos : 0 < size.columns := by
    rcases Nat.eq_zero_or_pos size.columns with hzero | hpos
    · rw [hzero, Nat.mul_zero] at hi
      exact absurd hi (Nat.not_lt_zero i)
    · exact hpos
  have hinside : i % size.columns < size.columns ∧ i / size.columns < size.rows :=
    ⟨Nat.mod_lt _ hpos, Nat.div_lt_of_lt_mul (Nat.mul_comm _ _ ▸ hi)⟩
  have hcell := hcells (i % size.columns) (i / size.columns)
  rw [cell?_of_inside (g := ⟨size, cells⟩) hinside,
    cell?_of_inside (g := ⟨size, cells'⟩) hinside] at hcell
  simp only [Nat.div_add_mod'] at hcell
  rw [Vector.getElem?_eq_getElem hi, Vector.getElem?_eq_getElem hi] at hcell
  exact Option.some.inj hcell

/-- A blank grid has blank cells. -/
theorem cell?_blank (size : ScreenSize) (x y : Nat) :
    (blank size).cell? x y = if x < size.columns ∧ y < size.rows then some {} else none := by
  by_cases h : (blank size).inside x y
  · rw [if_pos (by exact h), cell?_of_inside h]
    exact Vector.getElem?_replicate_of_lt (index_lt h)
  · rw [if_neg (by exact h), cell?_of_not_inside h]

/-! ### Rows -/

/-- The cells of a row are those at its places. -/
theorem getElem?_row (g : Grid) (x y : Nat) : (g.row y)[x]? = g.cell? x y := by
  by_cases hy : y < g.size.rows
  · have hcell : ∀ x < g.size.columns, g.cell? x y = some ((g.cell? x y).getD {}) := by
      intro x hx
      obtain ⟨c, hc⟩ := Option.isSome_iff_exists.mp (isSome_cell?.mpr ⟨hx, hy⟩)
      rw [hc, Option.getD_some]
    have hrow : g.row y = (List.range g.size.columns).map fun x => (g.cell? x y).getD {} :=
      List.filterMap_eq_map_iff_forall_eq_some.mpr fun x hx => hcell x (List.mem_range.mp hx)
    rw [hrow, List.getElem?_map]
    by_cases hx : x < g.size.columns
    · rw [List.getElem?_range hx, Option.map_some]
      exact (hcell x hx).symm
    · rw [List.getElem?_eq_none (by simpa using hx), Option.map_none,
        cell?_of_not_inside fun h => hx h.1]
  · -- below the grid there are no cells
    have hout : ∀ x, g.cell? x y = none := fun x => cell?_of_not_inside fun h => hy h.2
    have hrow : g.row y = [] := List.filterMap_eq_nil_iff.mpr fun x _ => hout x
    rw [hrow, hout, List.getElem?_nil]

theorem length_rows (g : Grid) : g.rows.length = g.size.rows := by
  rw [rows, List.length_map, List.length_range]

theorem mem_rows {r : List Cell} : r ∈ g.rows ↔ ∃ y < g.size.rows, g.row y = r := by
  simp [rows]

/-- A row has no more cells than there are columns. -/
theorem length_row_le (g : Grid) (y : Nat) : (g.row y).length ≤ g.size.columns := by
  rw [← List.getElem?_eq_none_iff, getElem?_row]
  exact cell?_of_not_inside fun h => Nat.lt_irrefl _ h.1

/-- The rows together hold all cells. -/
theorem getElem?_rows (g : Grid) (x y : Nat) : (g.rows[y]?.bind (·[x]?)) = g.cell? x y := by
  by_cases hy : y < g.size.rows
  · rw [rows, List.getElem?_map, List.getElem?_range hy]
    exact getElem?_row g x y
  · rw [rows, List.getElem?_eq_none (by simpa using hy), cell?_of_not_inside fun h => hy h.2]
    rfl

/-! ### Writing -/

/-- Setting a cell keeps the size. -/
@[simp] theorem size_set (g : Grid) (x y : Nat) (c : Cell) : (g.set x y c).size = g.size := by
  unfold set
  split <;> rfl

/-- One cell is set, the others stay. Places are different when their indexes are, since a column is
below the number of columns. -/
theorem cell?_set (g : Grid) (x y : Nat) (c : Cell) (x' y' : Nat) :
    (g.set x y c).cell? x' y' =
      (g.cell? x' y').map fun old => if x' = x ∧ y' = y then c else old := by
  by_cases h' : g.inside x' y'
  · by_cases h : g.inside x y
    · have hset : g.set x y c =
          { g with cells := g.cells.set (y * g.size.columns + x) c (index_lt h) } := dif_pos h
      have hcell : (g.set x y c).cell? x' y' =
          (g.cells.set (y * g.size.columns + x) c (index_lt h))[y' * g.size.columns + x']? := by
        rw [hset]
        exact cell?_of_inside h'
      rw [hcell, cell?_of_inside h', Vector.getElem?_set, Vector.getElem?_eq_getElem (index_lt h')]
      by_cases heq : x' = x ∧ y' = y
      · obtain ⟨rfl, rfl⟩ := heq
        simp
      · have hne : y * g.size.columns + x ≠ y' * g.size.columns + x' := fun hindex =>
          heq ((index_inj h h' hindex).imp Eq.symm Eq.symm)
        rw [if_neg hne, Option.map_some, if_neg heq]
    · -- nothing is written, and the place that was meant is not this one
      have hset : g.set x y c = g := dif_neg h
      have hne : ¬ (x' = x ∧ y' = y) := fun ⟨hx, hy⟩ => h (hx ▸ hy ▸ h')
      simp [hset, hne]
  · have hout : ¬ (g.set x y c).inside x' y' := by
      rwa [inside, size_set]
    rw [cell?_of_not_inside h', cell?_of_not_inside hout, Option.map_none]

/-- The character that a text has in a column when it begins in column `x`. -/
def charAt? (x : Int) (text : List Char) (column : Nat) : Option Char :=
  if (column : Int) < x then none else text[((column : Int) - x).toNat]?

/-- A cell in which a character is written, if there is one to write. -/
def overwrite (style : Style) (char : Option Char) (old : Cell) : Cell :=
  match char with
  | some c => ⟨c, style⟩
  | none => old

/-- The characters of a text from a column on, which may be left of the grid. -/
theorem charAt?_cons (x : Int) (c : Char) (text : List Char) (column : Nat) :
    charAt? x (c :: text) column =
      if (column : Int) = x then some c else charAt? (x + 1) text column := by
  unfold charAt?
  by_cases hx : (column : Int) = x
  · rw [if_neg (by omega), if_pos hx, hx, Int.sub_self]
    rfl
  · rw [if_neg hx]
    -- left of the text there is no character, right of its start one place is gone
    by_cases hlt : (column : Int) < x
    · rw [if_pos hlt, if_pos (by omega)]
    · have hsucc : ((column : Int) - x).toNat = ((column : Int) - (x + 1)).toNat + 1 := by omega
      rw [if_neg hlt, if_neg (by omega), hsucc, List.getElem?_cons_succ]

/-- Writing a text keeps the size of the grid. -/
@[simp] theorem size_put (g : Grid) (x : Int) (y : Nat) (text : List Char) (style : Style) :
    (g.put x y text style).size = g.size := by
  induction text generalizing g x with
  | nil => rfl
  | cons c rest ih =>
    rw [put]
    split
    · exact ih g (x + 1)
    · split
      · rfl
      · rw [ih, size_set]

/-- A text is written from its column on; what lies outside of the grid is dropped. -/
theorem cell?_put (g : Grid) (x : Int) (y : Nat) (text : List Char) (style : Style)
    (x' y' : Nat) :
    (g.put x y text style).cell? x' y' =
      (g.cell? x' y').map fun old =>
        if y' = y then overwrite style (charAt? x text x') old else old := by
  induction text generalizing g x with
  | nil => simp [put, charAt?, overwrite]
  | cons c rest ih =>
    rw [put, charAt?_cons]
    by_cases hneg : x < 0
    · -- the character lies left of the grid, in no column
      rw [if_pos hneg, ih, if_neg (by omega)]
    · rw [if_neg hneg]
      by_cases hend : g.size.columns ≤ x
      · -- writing stops, and a cell of the grid is in a column before `x`
        rw [if_pos hend]
        by_cases hinside : g.inside x' y'
        · have hcolumn : (x' : Int) < x := by
            have hx' := hinside.1
            omega
          have hnone : charAt? (x + 1) rest x' = none := if_pos (by omega)
          rw [if_neg (by omega), hnone]
          simp [overwrite]
        · rw [cell?_of_not_inside hinside, Option.map_none]
      · rw [if_neg hend, ih, cell?_set, Option.map_map]
        congr 1
        funext old
        dsimp only [Function.comp_apply]
        by_cases hy : y' = y
        · by_cases hx : (x' : Int) = x
          · -- what comes later in the text is written behind this column
            have hlater : charAt? (x + 1) rest x' = none := if_pos (by omega)
            have hx' : x' = x.toNat := by omega
            rw [if_pos hy, if_pos ⟨hx', hy⟩, if_pos hx, if_pos hy, hlater]
            rfl
          · have hx' : ¬ x' = x.toNat := by omega
            rw [if_pos hy, if_neg (fun h => hx' h.1), if_pos hy, if_neg hx]
        · rw [if_neg hy, if_neg (fun h => hy h.2), if_neg hy]

/-- Filling a row keeps the size of the grid. -/
@[simp] theorem size_fillRow (g : Grid) (y : Nat) (style : Style) :
    (g.fillRow y style).size = g.size := by
  unfold fillRow
  induction List.range g.size.columns using List.reverseRecOn with
  | nil => rfl
  | append_singleton xs x ih =>
    rw [List.foldl_append, List.foldl_cons, List.foldl_nil, size_set, ih]

/-- The cells of the row are filled, the others stay. -/
theorem cell?_fillRow (g : Grid) (y : Nat) (style : Style) (x' y' : Nat) :
    (g.fillRow y style).cell? x' y' =
      (g.cell? x' y').map fun old => if y' = y then ⟨' ', style⟩ else old := by
  have hcolumns : ∀ xs : List Nat,
      (xs.foldl (fun g x => g.set x y ⟨' ', style⟩) g).cell? x' y' =
        (g.cell? x' y').map fun old => if x' ∈ xs ∧ y' = y then ⟨' ', style⟩ else old := by
    intro xs
    induction xs using List.reverseRecOn with
    | nil => simp
    | append_singleton xs x ih =>
      rw [List.foldl_append, List.foldl_cons, List.foldl_nil, cell?_set, ih, Option.map_map]
      congr 1
      funext old
      by_cases hy : y' = y
      · by_cases hx : x' = x <;> simp [hy, hx]
      · simp [hy]
  rw [fillRow, hcolumns]
  -- a cell that is there is in one of the columns
  by_cases h : g.inside x' y'
  · have hx : x' ∈ List.range g.size.columns := List.mem_range.mpr h.1
    simp [hx]
  · rw [cell?_of_not_inside h, Option.map_none, Option.map_none]

/-! ### Drawing row by row -/

/-- Things are drawn into one row after the other, from row `k` on. -/
theorem cell?_foldl_zipIdx {α : Type} {draw : Grid → α × Nat → Grid}
    (look : α → Nat → Cell → Cell) (as : List α)
    (hdraw : ∀ a ∈ as, ∀ g row x y, (draw g (a, row)).cell? x y =
      (g.cell? x y).map fun old => if y = row then look a x old else old)
    (k : Nat) (g : Grid) (x y : Nat) :
    ((as.zipIdx k).foldl draw g).cell? x y =
      (g.cell? x y).map fun old =>
        if y < k then old
        else
          match as[y - k]? with
          | some a => look a x old
          | none => old := by
  induction as generalizing g k with
  | nil => simp
  | cons a as ih =>
    obtain ⟨hhead, htail⟩ := List.forall_mem_cons.mp hdraw
    rw [List.zipIdx_cons, List.foldl_cons, ih htail, hhead, Option.map_map]
    congr 1
    funext old
    -- a row above the first, the first one, or one of the others
    rcases Nat.lt_trichotomy y k with hlt | rfl | hgt
    · simp [hlt, Nat.lt_succ_of_lt hlt, Nat.ne_of_lt hlt]
    · simp
    · have hk : y - k = (y - (k + 1)) + 1 := by omega
      have hnot : ¬ y < k := by omega
      have hnot' : ¬ y < k + 1 := by omega
      simp [hnot, hnot', Nat.ne_of_gt hgt, hk]

/-- Drawing many things keeps the size, when drawing each does. -/
theorem size_foldl {α : Type} {draw : Grid → α → Grid} (hdraw : ∀ g a, (draw g a).size = g.size)
    (as : List α) (g : Grid) : (as.foldl draw g).size = g.size := by
  induction as generalizing g with
  | nil => rfl
  | cons a as ih => rw [List.foldl_cons, ih, hdraw]

end Grid

end ImportAtlas
