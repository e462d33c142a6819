import ImportAtlas.Proofs.Explorer.Paint
import ImportAtlas.Proofs.Text.Wrap

/-!
# Messages over the screen

Messages are wrapped to the width of the screen and fill it row by row, whatever was on it before
(`Grid.paintErrors_rows`). If they do not fit, the last row says so.

* `Grid.rowText_eq_rightpad` — a row is the text that stands on it, and blanks;
* `Grid.errorLine` — the text that a row is to show;
* `Grid.cell?_paintErrors` — each cell shows a character of it, or else a blank.
-/

namespace ImportAtlas

namespace Grid

variable {g : Grid} {lines : List (List Char)} {size : ScreenSize} {x y : Nat}

/-! ### Rows as texts -/

/-- A row that shows a text from its first column on is that text and blanks. -/
theorem rowText_eq_rightpad (text : List Char) (hle : text.length ≤ g.size.columns)
    (h : ∀ x < g.size.columns, (g.cell? x y).map (·.char) = some (text[x]?.getD ' ')) :
    g.rowText y = text.rightpad g.size.columns ' ' := by
  apply List.ext_getElem?
  intro x
  rw [rowText, List.getElem?_map, getElem?_row]
  by_cases hx : x < g.size.columns
  · rw [h x hx, List.rightpad]
    by_cases htext : x < text.length
    · rw [List.getElem?_append_left htext, List.getElem?_eq_getElem htext, Option.getD_some]
    · rw [List.getElem?_append_right (Nat.not_lt.mp htext),
        List.getElem?_replicate_of_lt (by omega), List.getElem?_eq_none (Nat.not_lt.mp htext),
        Option.getD_none]
  · -- both end at the last column
    have hlength : (text.rightpad g.size.columns ' ').length ≤ x := by
      rw [List.length_rightpad]
      omega
    rw [cell?_of_not_inside fun h => hx h.1, Option.map_none, List.getElem?_eq_none hlength]

/-- Text that begins at the left edge has its characters at their own places. -/
theorem charAt?_zero (text : List Char) (x : Nat) : charAt? 0 text x = text[x]? := by
  rw [charAt?, if_neg (by omega)]
  simp

/-- What is written over a blank cell in default style. -/
theorem overwrite_blank (char : Option Char) : overwrite {} char {} = ⟨char.getD ' ', {}⟩ := by
  cases char <;> rfl

/-! ### The rows of messages -/

/-- The end of a line that is cut short for the sake of what does not fit: an ellipsis in its last
columns. -/
def cutShort (columns : Nat) (line : List Char) : List Char :=
  (line.take (columns - 3) ++ "...".toList).take columns

/-- What a row of a screen shows of lines: a line each, as long as there are any. If there are more
lines than rows, the line in the last row is cut short. -/
def errorLine (lines : List (List Char)) (size : ScreenSize) (y : Nat) : List Char :=
  if size.rows < lines.length ∧ y = size.rows - 1 then cutShort size.columns (lines.getD y [])
  else lines.getD y []

/-- A line that is cut short ends with the ellipsis, or with as much of that as there is room
for. -/
theorem cutShort_eq (columns : Nat) (line : List Char) :
    cutShort columns line = line.take (columns - ellipsis.length) ++ ellipsis.take columns := by
  have hlength : ellipsis.length = 3 := rfl
  have hellipsis : "...".toList = ellipsis := by decide
  rw [cutShort, hellipsis, hlength]
  by_cases hwide : 3 ≤ columns
  · -- the line and the ellipsis both fit
    have hline : (line.take (columns - 3)).length ≤ columns - 3 := List.length_take_le _ _
    have hboth : (line.take (columns - 3) ++ ellipsis).length ≤ columns := by
      rw [List.length_append, hlength]
      omega
    have hellipsis_le : ellipsis.length ≤ columns := hlength ▸ hwide
    rw [List.take_of_length_le hboth, List.take_of_length_le hellipsis_le]
  · have hzero : columns - 3 = 0 := by omega
    rw [hzero, List.take_zero, List.nil_append, List.nil_append]

/-- No line is wider than the screen, so that none is cut off while it is drawn. -/
theorem length_errorLine_le (hlines : ∀ line ∈ lines, line.length ≤ size.columns) (y : Nat) :
    (errorLine lines size y).length ≤ size.columns := by
  unfold errorLine
  split
  · exact List.length_take_le _ _
  · rw [List.getD_eq_getElem?_getD]
    cases hline : lines[y]? with
    | none => exact Nat.zero_le _
    | some line => exact hlines line (List.mem_of_getElem? hline)

/-- Messages in lines over a screen: each cell shows a character of the line in its row, or else a
blank. -/
theorem cell?_paintErrors (g : Grid) (messages : List String) (hx : x < size.columns)
    (hy : y < size.rows) :
    let lines := Text.wrap ("\n".intercalate messages).toList size.columns
    (g.paintErrors messages size).cell? x y =
      some ⟨(errorLine lines size y)[x]?.getD ' ', {}⟩ := by
  intro lines
  have hblank : (blank size).cell? x y = some {} := by
    rw [cell?_blank, if_pos ⟨hx, hy⟩]
  -- the lines that fit are written one below the other
  have hshown : ∀ draw : Grid → List Char × Nat → Grid,
      (∀ g line row, draw g (line, row) = g.put 0 row line {}) →
      ((lines.take size.rows).zipIdx.foldl draw (g.prepare size)).cell? x y =
        some ⟨(lines.getD y [])[x]?.getD ' ', {}⟩ := by
    intro draw hdraw
    rw [prepare_eq, cell?_foldl_zipIdx fun line x old => overwrite {} (charAt? 0 line x) old]
    · rw [hblank, Option.map_some, if_neg (Nat.not_lt_zero y), Nat.sub_zero,
        List.getElem?_take_of_lt hy, List.getD_eq_getElem?_getD]
      cases lines[y]? with
      | none => rfl
      | some line =>
        dsimp only [Option.getD_some]
        rw [charAt?_zero, overwrite_blank]
    · intro line _ g row x y
      rw [hdraw]
      exact cell?_put _ _ _ _ _ _ _
  unfold paintErrors
  dsimp only
  by_cases hmany : size.rows < lines.length
  · -- the last row is filled anew
    rw [if_pos ⟨hmany, by omega⟩, cell?_put, cell?_fillRow, hshown _ fun _ _ _ => rfl,
      Option.map_some, Option.map_some, ← cutShort_eq]
    by_cases hlast : y = size.rows - 1
    · rw [if_pos hlast, if_pos hlast, charAt?_zero, overwrite_blank, errorLine,
        if_pos ⟨hmany, hlast⟩, hlast]
    · rw [if_neg hlast, if_neg hlast, errorLine, if_neg fun h => hlast h.2]
  · rw [if_neg fun h => hmany h.1, hshown _ fun _ _ _ => rfl, errorLine,
      if_neg fun h => hmany h.1]

@[simp] theorem size_paintErrors (g : Grid) (messages : List String) (size : ScreenSize) :
    (g.paintErrors messages size).size = size := by
  -- however the lines are drawn one by one, the size is that of the screen
  have hshown : ∀ (draw : Grid → List Char × Nat → Grid) (lines : List (List Char)),
      (∀ g line row, draw g (line, row) = g.put 0 row line {}) →
      (lines.zipIdx.foldl draw (g.prepare size)).size = size := by
    intro draw lines hdraw
    rw [size_foldl, prepare_eq]
    · rfl
    · intro g place
      obtain ⟨line, row⟩ := place
      rw [hdraw, size_put]
  unfold paintErrors
  dsimp only
  split
  · rw [size_put, size_fillRow, hshown _ _ fun _ _ _ => rfl]
  · exact hshown _ _ fun _ _ _ => rfl

/-- **Messages over the screen.** The messages of the selected module, if it has any, are shown on a
grid of the size of the screen, in default style, and nothing of the old grid is left. They are
wrapped to the width of the screen, and each row shows a line of them, filled up with blanks. The
rows below the last line are blank. If there are more lines than rows, the last row shows the
beginning of its line and an ellipsis, as far as there are columns for it. -/
theorem paintErrors_rows (messages? : Option (List String)) (size : ScreenSize) :
    let messages := messages?.getD []
    let lines := Text.wrap ("\n".intercalate messages).toList size.columns
    ∃ picture : Grid, (∀ g : Grid, g.paintErrors messages size = picture) ∧ picture.size = size ∧
      (∀ x y c, picture.cell? x y = some c → c.style = {}) ∧
      (∀ y < size.rows, ∀ line, lines[y]? = some line →
        (size.rows < lines.length → y ≠ size.rows - 1) →
        picture.rowText y = line.rightpad size.columns ' ') ∧
      (∀ y < size.rows, lines.length ≤ y →
        picture.rowText y = List.replicate size.columns ' ') ∧
      (0 < size.rows → size.rows < lines.length →
        ∃ line, lines[size.rows - 1]? = some line ∧
          picture.rowText (size.rows - 1) =
            ((line.take (size.columns - 3) ++ "...".toList).take size.columns).rightpad
              size.columns ' ') := by
  intro messages lines
  have hlines : ∀ line ∈ lines, line.length ≤ size.columns := fun line =>
    Text.length_le_of_mem_wrap
  -- every cell of the screen is overwritten, so nothing of the old grid is left
  have hcell : ∀ (g : Grid) (x y : Nat), (g.paintErrors messages size).cell? x y =
      if x < size.columns ∧ y < size.rows then
        some ⟨(errorLine lines size y)[x]?.getD ' ', {}⟩ else none := by
    intro g x y
    split
    · next hinside => exact cell?_paintErrors g messages hinside.1 hinside.2
    · next hout =>
      refine cell?_of_not_inside ?_
      rwa [inside, size_paintErrors]
  have hrow : ∀ y < size.rows, ((blank size).paintErrors messages size).rowText y =
      (errorLine lines size y).rightpad size.columns ' ' := by
    intro y hy
    have hsize := size_paintErrors (blank size) messages size
    rw [rowText_eq_rightpad (errorLine lines size y), hsize]
    · rw [hsize]
      exact length_errorLine_le hlines y
    · intro x hx
      rw [hsize] at hx
      rw [hcell, if_pos ⟨hx, hy⟩, Option.map_some]
  refine ⟨(blank size).paintErrors messages size, ?_, size_paintErrors _ _ _, ?_, ?_, ?_, ?_⟩
  · intro g
    refine ext_cell? (by rw [size_paintErrors, size_paintErrors]) fun x y => ?_
    rw [hcell, hcell]
  · intro x y c hc
    rw [hcell] at hc
    split at hc
    · rw [← Option.some.inj hc]
    · exact absurd hc (by simp)
  · -- a row with a line of its own
    intro y hy line hline hlast
    rw [hrow y hy, errorLine, if_neg fun h => hlast h.1 h.2, List.getD_eq_getElem?_getD, hline,
      Option.getD_some]
  · -- a row below the last line
    intro y hy hbelow
    have hmany : ¬ (size.rows < lines.length ∧ y = size.rows - 1) := by omega
    rw [hrow y hy, errorLine, if_neg hmany, List.getD_eq_getElem?_getD,
      List.getElem?_eq_none hbelow, Option.getD_none]
    simp [List.rightpad]
  · -- the last row when there are more lines than rows
    intro hpos hmany
    have hlast : size.rows - 1 < lines.length := by omega
    refine ⟨lines[size.rows - 1], List.getElem?_eq_getElem hlast, ?_⟩
    rw [hrow _ (by omega), errorLine, if_pos ⟨hmany, rfl⟩, List.getD_eq_getElem?_getD,
      List.getElem?_eq_getElem hlast, Option.getD_some, cutShort]

/-- Two lines on a screen of one row, and of four columns. -/
example : ((blank ⟨4, 1⟩).paintErrors ["abc def"] ⟨4, 1⟩).rowText 0 = "a...".toList := by decide

end Grid

end ImportAtlas
