import ImportAtlas.Proofs.Text.Chars
import ImportAtlas.Text.Table
import Mathlib.Algebra.Ring.Nat

/-!
# The columns of a table

However long the rows of a table are, its lines have one length, and each column begins and ends at
the same place in all of them (`Text.Table.columnStart`). What stands in a column is a cell as it
is, with blanks on one side of it.

* `Text.Table.length_cell_le_width`, `Text.Table.exists_length_cell_eq_width` — a column is as wide
  as its longest text;
* `Text.Table.field_line` — the cell of a row stands in its own column, padded;
* `Text.Table.render_columns` — the lines of a table.

That a column is wide enough for every one of its texts is all that the layout rests on: padding is
never cut short then, and each column takes its width and three characters more.
-/

namespace ImportAtlas

namespace Text

namespace Table

variable {t : Table} {row : List (List Char)} {text : List Char} {c w : Nat}

/-! ### Widths -/

/-- The width of a column is found by a fold. It is at least where the fold began and at least the
length of each cell, and it is one of these. -/
theorem foldl_max_spec (rows : List (List (List Char))) (c w : Nat) :
    let most := rows.foldl (fun w row => max w (cell row c).length) w
    w ≤ most ∧ (∀ row ∈ rows, (cell row c).length ≤ most) ∧
      (most = w ∨ ∃ row ∈ rows, (cell row c).length = most) := by
  induction rows generalizing w with
  | nil => simp
  | cons row rows ih =>
    obtain ⟨hle, hall, hmet⟩ := ih (max w (cell row c).length)
    rw [List.foldl_cons]
    refine ⟨Nat.le_trans (Nat.le_max_left _ _) hle, ?_, ?_⟩
    · exact List.forall_mem_cons.mpr ⟨Nat.le_trans (Nat.le_max_right _ _) hle, hall⟩
    · -- what the rest of the fold met is a later cell, or the larger of the beginning and this cell
      rcases hmet with heq | ⟨row', hrow', heq⟩
      · rcases Nat.le_total (cell row c).length w with hshort | hlong
        · exact .inl (by rw [heq, Nat.max_eq_left hshort])
        · exact .inr ⟨row, List.mem_cons_self, by rw [heq, Nat.max_eq_right hlong]⟩
      · exact .inr ⟨row', List.mem_cons_of_mem _ hrow', heq⟩

/-- No text of a column is longer than the column is wide. -/
theorem length_cell_le_width (h : row ∈ t.headers :: t.rows) (c : Nat) :
    (cell row c).length ≤ t.width c :=
  (foldl_max_spec _ c 0).2.1 row h

/-- A text of each column is as long as the column is wide. The header is one when the column is
empty. -/
theorem exists_length_cell_eq_width (t : Table) (c : Nat) :
    ∃ row ∈ t.headers :: t.rows, (cell row c).length = t.width c := by
  rcases (foldl_max_spec (t.headers :: t.rows) c 0).2.2 with hzero | hmet
  · -- a column of width zero has an empty header
    have hheader : (cell t.headers c).length ≤ t.width c :=
      length_cell_le_width List.mem_cons_self c
    have hwidth : t.width c = 0 := hzero
    exact ⟨t.headers, List.mem_cons_self, by omega⟩
  · exact hmet

/-! ### Columns -/

/-- The place in a line where a column begins, behind the bar and the blank in front of it. -/
def columnStart (t : Table) (c : Nat) : Nat :=
  2 + ((List.range c).map fun i => t.width i + 3).sum

/-- What stands in a column of a line. -/
def field (t : Table) (line : List Char) (c : Nat) : List Char :=
  (line.drop (t.columnStart c)).take (t.width c)

/-- The length of a line: a bar in front, and behind each column another one, with a blank on both
of its sides. -/
def lineLength (t : Table) : Nat :=
  1 + ((List.range t.headers.length).map fun i => t.width i + 3).sum

/-- A cell is padded to the width of its column. -/
theorem length_padded (h : text.length ≤ w) : (padded text w).length = w := by
  unfold padded
  split <;> simp <;> omega

/-- A text with blanks to pad it, which stand on its left if it is a number. -/
theorem exists_padded_eq (text : List Char) (w : Nat) :
    ∃ pad, (∀ a ∈ pad, a = ' ') ∧
      padded text w = if isNumber text then pad ++ text else text ++ pad :=
  ⟨_, fun _ => List.eq_of_mem_replicate, rfl⟩

/-- A row in a line, between bars. -/
theorem line_eq (t : Table) (row : List (List Char)) :
    line t.widths row = '|' :: (List.range t.headers.length).flatMap fun c =>
      ' ' :: padded (cell row c) (t.width c) ++ [' ', '|'] := by
  have hzip : t.widths.zipIdx = (List.range t.headers.length).map fun c => (t.width c, c) := by
    refine List.ext_getElem (by simp [widths]) fun i _ _ => ?_
    simp [widths]
  rw [line, hzip, List.flatMap_map]

/-- A cell takes its width and three more: a space on both sides and a bar. -/
theorem length_flatMap_columns (hrow : row ∈ t.headers :: t.rows) (c : Nat) :
    ((List.range c).flatMap fun i =>
      ' ' :: padded (cell row i) (t.width i) ++ [' ', '|']).length =
      ((List.range c).map fun i => t.width i + 3).sum := by
  rw [List.length_flatMap]
  congr 1
  refine List.map_congr_left fun i _ => ?_
  simp [length_padded (length_cell_le_width hrow i)]

/-- Each line has the length that the widths add up to. -/
theorem length_line (hrow : row ∈ t.headers :: t.rows) :
    (line t.widths row).length = t.lineLength := by
  rw [line_eq, List.length_cons, length_flatMap_columns hrow, Nat.add_comm, lineLength]

/-- Each rule has the length that the widths add up to. -/
theorem length_rule (t : Table) : (rule t.widths).length = t.lineLength := by
  rw [rule, List.length_cons, List.length_flatMap, Nat.add_comm, widths, List.map_map, lineLength]
  refine congrArg (fun lengths => 1 + lengths.sum) (List.map_congr_left fun c _ => ?_)
  simp

/-- The cell of a row stands in its own column. -/
theorem field_line (hrow : row ∈ t.headers :: t.rows) (hc : c < t.headers.length) :
    t.field (line t.widths row) c = padded (cell row c) (t.width c) := by
  obtain ⟨k, hk⟩ : ∃ k, t.headers.length = c + 1 + k := ⟨_, (Nat.add_sub_of_le hc).symm⟩
  rw [field, line_eq, hk, List.range_add, List.range_succ, List.flatMap_append,
    List.flatMap_append, List.flatMap_singleton]
  -- the columns in front, with their bars, take up what comes before the start of this one
  have hfront : ('|' :: (List.range c).flatMap (fun i =>
      ' ' :: padded (cell row i) (t.width i) ++ [' ', '|']) ++ [' ']).length = t.columnStart c := by
    rw [List.length_append, List.length_cons, length_flatMap_columns hrow, columnStart]
    simp
    omega
  have hwidth : (padded (cell row c) (t.width c)).length = t.width c :=
    length_padded (length_cell_le_width hrow c)
  generalize (List.range c).flatMap _ = front at hfront ⊢
  generalize List.flatMap _ _ = rest
  have hline : '|' :: (front ++ (' ' :: padded (cell row c) (t.width c) ++ [' ', '|']) ++ rest) =
      ('|' :: front ++ [' ']) ++ (padded (cell row c) (t.width c) ++ ([' ', '|'] ++ rest)) := by
    simp
  rw [hline, List.drop_left' hfront, List.take_left' hwidth]

/-- A line shows a row: it has one field per column, between bars, each as wide as its column. A
cell stands in its field as a whole, with blanks on its left if it is a number and otherwise on its
right; where the row has no cell there are only blanks. -/
structure Shows (t : Table) (line : List Char) (row : List (List Char)) : Prop where
  bars : line = '|' :: (List.range t.headers.length).flatMap fun c =>
    ' ' :: t.field line c ++ [' ', '|']
  width : ∀ c < t.headers.length, (t.field line c).length = t.width c
  whole : ∀ c < t.headers.length, ∀ text, row[c]? = some text →
    ∃ pad, (∀ a ∈ pad, a = ' ') ∧
      t.field line c = if isNumber text then pad ++ text else text ++ pad
  missing : ∀ c < t.headers.length, row[c]? = none → ∀ a ∈ t.field line c, a = ' '

theorem shows_line (hrow : row ∈ t.headers :: t.rows) : t.Shows (line t.widths row) row where
  -- between its bars the line has the padded cell of each column
  bars := by
    refine (line_eq t row).trans (congrArg _ (List.flatMap_congr fun c hc => ?_))
    rw [field_line hrow (List.mem_range.mp hc)]
  width c hc := by
    rw [field_line hrow hc]
    exact length_padded (length_cell_le_width hrow c)
  -- a cell of the row is shown whole, with its padding on one side
  whole c hc text htext := by
    have hcell : cell row c = text := by rw [cell, List.getD_eq_getElem?_getD, htext]; rfl
    rw [field_line hrow hc, hcell]
    exact exists_padded_eq text (t.width c)
  -- a cell that the row does not have is shown as blanks
  missing c hc hnone := by
    have hcell : cell row c = [] := by rw [cell, List.getD_eq_getElem?_getD, hnone]; rfl
    obtain ⟨pad, hpad, heq⟩ := exists_padded_eq (cell row c) (t.width c)
    rw [field_line hrow hc, heq, hcell]
    simpa using hpad

/-! ### Lines -/

/-- What stands in a line comes from the cells of its row or is drawn around them. -/
theorem mem_line {a : Char} {ws : List Nat} (h : a ∈ line ws row) :
    a = '|' ∨ a = ' ' ∨ ∃ text ∈ row, a ∈ text := by
  rcases List.mem_cons.mp h with rfl | h
  · exact .inl rfl
  · obtain ⟨⟨w, c⟩, -, h⟩ := List.mem_flatMap.mp h
    simp only [List.mem_append, List.mem_cons, List.not_mem_nil, or_false] at h
    rcases h with (rfl | hpadded) | rfl | rfl
    · exact .inr (.inl rfl)
    · obtain ⟨pad, hpad, heq⟩ := exists_padded_eq (cell row c) w
      have hmem : a ∈ pad ∨ a ∈ cell row c := by
        rw [heq] at hpadded
        split at hpadded
        · exact List.mem_append.mp hpadded
        · exact (List.mem_append.mp hpadded).symm
      rcases hmem with hblank | hcell
      · exact .inr (.inl (hpad a hblank))
      · -- a missing cell has no characters
        cases hget : row[c]? with
        | none =>
          rw [cell, List.getD_eq_getElem?_getD, hget] at hcell
          exact absurd hcell List.not_mem_nil
        | some text =>
          rw [cell, List.getD_eq_getElem?_getD, hget] at hcell
          exact .inr (.inr ⟨text, List.mem_of_getElem? hget, hcell⟩)
    · exact .inr (.inl rfl)
    · exact .inl rfl

/-- A rule consists of plus and minus signs. -/
theorem mem_rule {a : Char} {ws : List Nat} (h : a ∈ rule ws) : a = '+' ∨ a = '-' := by
  rcases List.mem_cons.mp h with rfl | h
  · exact .inl rfl
  · obtain ⟨w, -, h⟩ := List.mem_flatMap.mp h
    rcases List.mem_append.mp h with h | h
    · exact .inr (List.eq_of_mem_replicate h)
    · exact .inl (List.mem_singleton.mp h)

/-- The lines of the table: three of the headers, one for each row, and a rule. -/
theorem render_eq_cons (t : Table) :
    t.render = rule t.widths :: line t.widths t.headers :: rule t.widths ::
      (t.rows.map (line t.widths) ++ [rule t.widths]) := rfl

/-- A line is one of the rules, or that of the headers or of a row. -/
theorem eq_of_mem_render {l : List Char} (h : l ∈ t.render) :
    l = rule t.widths ∨ ∃ row ∈ t.headers :: t.rows, l = line t.widths row := by
  simp only [render_eq_cons, List.mem_cons, List.mem_append, List.mem_map, List.not_mem_nil,
    or_false] at h
  rcases h with h | h | h | ⟨row, hrow, h⟩ | h
  · exact .inl h
  · exact .inr ⟨t.headers, List.mem_cons_self, h⟩
  · exact .inl h
  · exact .inr ⟨row, List.mem_cons_of_mem _ hrow, h.symm⟩
  · exact .inl h

/-- Each line of the table is one line, when no text in it has a line end. -/
theorem newline_not_mem_render (h : ∀ row ∈ t.headers :: t.rows, ∀ text ∈ row, '\n' ∉ text) :
    ∀ l ∈ t.render, '\n' ∉ l := by
  intro l hl hnewline
  rcases eq_of_mem_render hl with rfl | ⟨row, hrow, rfl⟩
  · rcases mem_rule hnewline with h | h <;> exact absurd h (by decide)
  · rcases mem_line hnewline with h' | h' | ⟨text, htext, hmem⟩
    · exact absurd h' (by decide)
    · exact absurd h' (by decide)
    · exact h row hrow text htext hmem

/-! ### Cells that have no header -/

/-- The table without the cells beyond the last header. -/
def trimmed (t : Table) : Table :=
  { t with rows := t.rows.map (·.take t.headers.length) }

/-- Cells before the cut are left by cutting a row. -/
theorem cell_take {n : Nat} (h : c < n) : cell (row.take n) c = cell row c := by
  rw [cell, cell, List.getD_eq_getElem?_getD, List.getD_eq_getElem?_getD,
    List.getElem?_take_of_lt h]

theorem width_trimmed (h : c < t.headers.length) : t.trimmed.width c = t.width c := by
  simp only [width, trimmed, List.foldl_cons, List.foldl_map, cell_take h]

/-- Cells beyond the last header are not shown: the table is the same without them. -/
theorem render_trimmed (t : Table) : t.trimmed.render = t.render := by
  have hwidths : t.trimmed.widths = t.widths :=
    List.map_congr_left fun c hc => width_trimmed (List.mem_range.mp hc)
  -- a line shows the cells below headers only
  have hline : ∀ row, line t.widths (row.take t.headers.length) = line t.widths row := by
    intro row
    rw [line_eq, line_eq]
    refine congrArg _ (List.flatMap_congr fun c hc => ?_)
    rw [cell_take (List.mem_range.mp hc)]
  have hrows : t.trimmed.rows.map (line t.widths) = t.rows.map (line t.widths) := by
    rw [trimmed, List.map_map]
    exact List.map_congr_left fun row _ => hline row
  rw [render_eq_cons, render_eq_cons, hwidths, hrows]
  rfl

/-- **The columns of a table.** Without newlines in its cells, the text of a table has a line for
each row and four more, and these have one length. A column is as wide as the longest of its texts,
its header included. The second line shows the headers, and the rows follow from the fourth line on.
Cells without a header are not shown, nor do they make a column wider. -/
theorem render_columns (t : Table)
    (hcells : ∀ row ∈ t.headers :: t.rows, ∀ text ∈ row, '\n' ∉ text) :
    cutAt (· == '\n') t.text = t.render ∧ t.render.length = t.rows.length + 4 ∧
    (∀ l ∈ t.render, l.length = t.lineLength) ∧
    (∀ c < t.headers.length,
      (∀ row ∈ t.headers :: t.rows, (cell row c).length ≤ t.width c) ∧
      ∃ row ∈ t.headers :: t.rows, (cell row c).length = t.width c) ∧
    (∃ l, t.render[1]? = some l ∧ t.Shows l t.headers) ∧
    (∀ i row, t.rows[i]? = some row → ∃ l, t.render[i + 3]? = some l ∧ t.Shows l row) ∧
    t.trimmed.render = t.render := by
  refine ⟨?_, ?_, fun l hl => ?_, fun c _ => ?_, ?_, fun i row hi => ?_, render_trimmed t⟩
  · exact cutAt_join (List.cons_ne_nil _ _) (newline_not_mem_render hcells)
  · simp [render]
  · rcases eq_of_mem_render hl with rfl | ⟨row, hrow, rfl⟩
    · exact length_rule t
    · exact length_line hrow
  · exact ⟨fun row hrow => length_cell_le_width hrow c, exists_length_cell_eq_width t c⟩
  · exact ⟨line t.widths t.headers, rfl, shows_line List.mem_cons_self⟩
  · -- the rows of the table stand behind the three lines of the headers
    refine ⟨line t.widths row, ?_, shows_line (List.mem_cons_of_mem _ (List.mem_of_getElem? hi))⟩
    have hrow : (t.rows.map (line t.widths))[i]? = some (line t.widths row) := by
      rw [List.getElem?_map, hi, Option.map_some]
    show (t.rows.map (line t.widths) ++ [rule t.widths])[i]? = _
    rw [List.getElem?_append_left (List.getElem?_eq_some_iff.mp hrow).1, hrow]

/-- A row that is too short, and one with a number and a cell too many. -/
theorem render_columns_of_ragged :
    let t : Table :=
      ⟨["File".toList, "Deps".toList], [["a.ts".toList], ["b".toList, "12".toList, "more".toList]]⟩
    (∀ row ∈ t.headers :: t.rows, ∀ text ∈ row, '\n' ∉ text) ∧
    cutAt (· == '\n') t.text = t.render ∧ t.render.length = 6 ∧ (∀ l ∈ t.render, l.length = 15) ∧
    t.render[3]? = some "| a.ts |      |".toList ∧
    t.render[4]? = some "| b    |   12 |".toList := by
  intro t
  have hcells : ∀ row ∈ t.headers :: t.rows, ∀ text ∈ row, '\n' ∉ text := by decide
  obtain ⟨hcut, hcount, hlength, -⟩ := render_columns t hcells
  exact ⟨hcells, hcut, hcount, hlength, by decide, by decide⟩

end Table

end Text

end ImportAtlas
