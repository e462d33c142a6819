import ImportAtlas.Proofs.Source.Comment
import ImportAtlas.Proofs.Source.JavaScript.Statement

/-!
# The code of a file of statements

What is left of a file when its comments are blanked: statements as they are, and blanks.

* `Row.code`, `fileCode` — the code of a row and of a file; `blankComments_fileText`;
* `Form.allIn_head` — the characters that stand before a specifier, from which follows which ones do
  not;
* `danglingBrace?_fileCode` — every opening brace is closed.
-/

namespace ImportAtlas.Source.JavaScript

/-! ### The characters before a specifier -/

/-- A character of a list in braces. -/
def isListChar (c : Char) : Bool :=
  isNameChar c || isGapChar c || c == ','

/-- A character that stands before a specifier: of a list, or one of the marks around it. -/
def isHeadChar (c : Char) : Bool :=
  isListChar c || c == '{' || c == '\x7d' || c == '*' || c == '=' || c == '('

theorem Ident.allIn (w : Ident) : AllIn isListChar w.chars := fun c hc => by
  simp [isListChar, w.allowed c hc]

theorem allIn_space (b : Space isGapChar) : AllIn isListChar b.chars := fun c hc => by
  simp [isListChar, b.allowed c hc]

/-- The characters of an item are those of names and blanks. -/
theorem Item.allIn (i : Item) : AllIn isListChar i.text := by
  rw [Item.text]
  cases i.rename with
  | none => simpa using i.name.allIn
  | some a =>
    have has : AllIn isListChar (a.before.chars ++ "as".toList ++ a.after.chars) :=
      ((allIn_space a.before).append (.of_all (by decide))).append (allIn_space a.after)
    exact i.name.allIn.append (has.append a.name.allIn)

/-- The characters of an entry are those of names and blanks. -/
theorem Entry.allIn (e : Entry) : AllIn isListChar e.text := by
  have hgap : ∀ t : Run isGapChar, AllIn isListChar t.1 := fun t c hc => by
    simp [isListChar, t.2 c hc]
  have hitem : AllIn isListChar (e.item.elim [] Item.text) := by
    cases e.item with
    | none => exact .of_all rfl
    | some i => exact i.allIn
  exact ((hgap e.before).append hitem).append (hgap e.after)

/-- The characters of a list are those of its entries and commas. -/
theorem allIn_list (es : List Entry) :
    AllIn isListChar (Text.join [','] (es.map Entry.text)) := by
  cases es with
  | nil => exact .of_all rfl
  | cons e es =>
    rw [List.map_cons, Text.join_cons]
    refine e.allIn.append fun c hc => ?_
    simp only [List.flatMap_map, List.mem_flatMap] at hc
    obtain ⟨d, -, hd⟩ := hc
    exact (AllIn.append (.of_all (by decide)) d.allIn) c hd

theorem isHeadChar_of_isListChar (c : Char) (h : isListChar c) : isHeadChar c := by
  simp [isHeadChar, h]

theorem Ident.allIn_head (w : Ident) : AllIn isHeadChar w.chars :=
  w.allIn.mono isHeadChar_of_isListChar

/-- The characters of what is taken. -/
theorem Taken.allIn (w : Taken) : AllIn isHeadChar w.text := by
  cases w with
  | list es =>
    exact (AllIn.append (t := ['{']) (.of_all (by decide))
      ((allIn_list es).mono isHeadChar_of_isListChar)).append (.of_all (by decide))
  | whole w => exact AllIn.append (.of_all (by decide)) w.allIn_head

/-- The characters of a clause. None of them is a quote, so the quotes of a statement are those of
its specifier. -/
theorem Form.allIn_clause (f : Form) : AllIn isHeadChar f.clause := by
  cases f with
  | bare | require | dynamic => exact .of_all rfl
  | exportAll => exact .of_all (by decide)
  | taken _ what | exportTaken what => exact what.allIn
  | default d more =>
    cases more with
    | none => simpa [Form.clause] using d.allIn_head
    | some t =>
      exact d.allIn_head.append (AllIn.append (t := [',', ' ']) (.of_all (by decide)) t.allIn)

/-- What stands before the specifier. -/
theorem Form.allIn_head (f : Form) : AllIn isHeadChar f.head := by
  have hbefore : ∀ w ∈ ["import type ", "import ", "export ", "const "],
      w.toList.all isHeadChar := by decide
  have hafter : ∀ w ∈ [" from ", "", " = require(", " = await import("],
      w.toList.all isHeadChar := by decide
  have hmiddle : AllIn isHeadChar f.middle := by
    rcases f.middle_cases with h | ⟨w, h⟩ <;> rw [h]
    · exact f.allIn_clause
    · exact w.allIn_head
  exact ((AllIn.of_all (hbefore _ f.before_mem)).append hmiddle).append
    (.of_all (hafter _ f.after_mem))

/-! ### Blanking -/

/-- A row with its comment blanked. -/
def Row.code : Row → List Char
  | statement indent s => indent.1 ++ s.text
  | blank blanks => blanks.1
  | comment indent note => indent.1 ++ ' ' :: ' ' :: note.1.flatMap blanksFor

/-- The code of the rows after a first one. -/
def codeAfter (rows : List Row) : List Char :=
  rows.flatMap fun row => '\n' :: row.code

/-- The code of a file, its comments blanked. -/
def fileCode : List Row → List Char
  | [] => []
  | row :: rows => row.code ++ codeAfter rows

/-- A specifier stays, although it may contain the marks of comments. -/
theorem Specifier.blankFrom (s : Specifier) (r : List Char) :
    blankFrom .code ('\'' :: (s.chars ++ '\'' :: r)) =
      '\'' :: (s.chars ++ '\'' :: blankFrom .code r) := by
  have hspec : AllIn isSpecifierChar s.chars := s.allowed
  refine blankFrom_quoted (.inr (.inl rfl)) (fun c hc => ⟨?_, ?_, ?_⟩) r <;> rintro rfl
  · exact hspec.not_mem (by decide) hc
  · exact hspec.not_mem (by decide) hc
  · exact hspec.not_mem (by decide) hc

/-- In front of the specifier no comment begins. -/
theorem isInert_of_isHeadChar (c : Char) (h : isHeadChar c) : isInert c := by
  rw [isInert, Bool.not_eq_true']
  by_contra hc
  simp only [Bool.not_eq_false, Bool.or_eq_true, beq_iff_eq] at hc
  rcases hc with ((rfl | rfl) | rfl) | rfl <;> exact absurd h (by decide)

theorem allIn_gap (t : Run isGapChar) : AllIn isHeadChar t.1 := fun c hc =>
  isHeadChar_of_isListChar c (by simp [isListChar, t.2 c hc])

theorem allIn_indent (t : Run isIndentChar) : AllIn isHeadChar t.1 :=
  allIn_gap ⟨t.1, AllIn.mono t.2 isGapChar_of_isIndentChar⟩

theorem Form.tail_eq (f : Form) : f.tail = [';'] ∨ f.tail = [')', ';'] := by
  cases f <;> simp [Form.tail]

theorem Row.blankFrom (row : Row) {r : List Char} (hr : r = [] ∨ ∃ s, r = '\n' :: s) :
    blankFrom .code (row.text ++ r) = row.code ++ Source.blankFrom .code r := by
  have hinert : ∀ {t}, AllIn isHeadChar t → AllIn isInert t := fun h => h.mono isInert_of_isHeadChar
  cases row with
  | statement indent s =>
    have htail : AllIn isInert s.form.tail := by
      rcases s.form.tail_eq with h | h <;> rw [h] <;> exact .of_all (by decide)
    have hhead := hinert ((allIn_indent indent).append s.form.allIn_head)
    -- the head, the quoted specifier, the tail
    have htext : (Row.statement indent s).text ++ r = indent.1 ++ s.form.head ++
        '\'' :: (s.specifier.chars ++ '\'' :: (s.form.tail ++ r)) := by
      simp [Row.text, Statement.text]
    rw [htext, blankFrom_inert hhead, s.specifier.blankFrom, blankFrom_inert htail]
    simp [Row.code, Statement.text]
  | blank blanks => exact blankFrom_inert (hinert (allIn_gap blanks)) r
  | comment indent note =>
    -- the comment goes up to the end of the row
    have hnote : '\n' ∉ note.1 := AllIn.not_mem note.2 (by decide)
    have htext : (Row.comment indent note).text ++ r =
        indent.1 ++ '/' :: '/' :: (note.1 ++ r) := by
      simp [Row.text]
    rw [htext, blankFrom_inert (hinert (allIn_gap indent)), blankFrom_comment hnote hr]
    simp [Row.code]

/-- Behind a row there is nothing or the end of its line. -/
theorem after_cases (text : Row → List Char) (rows : List Row) :
    (rows.flatMap fun row => '\n' :: text row) = [] ∨
      ∃ s, (rows.flatMap fun row => '\n' :: text row) = '\n' :: s := by
  cases rows with
  | nil => exact .inl rfl
  | cons row rows => exact .inr ⟨_, rfl⟩

/-- Rows are blanked one by one, since each ends with its line. -/
theorem blankFrom_rows (rows : List Row) :
    blankFrom .code (rows.flatMap fun row => '\n' :: row.text) = codeAfter rows := by
  induction rows with
  | nil => rfl
  | cons row rows ih =>
    have hline : blankFrom .code ('\n' :: (row.text ++ rows.flatMap fun row => '\n' :: row.text)) =
        '\n' :: blankFrom .code (row.text ++ rows.flatMap fun row => '\n' :: row.text) :=
      blankFrom_inert (t := ['\n']) (AllIn.of_all (by decide)) _
    rw [List.flatMap_cons, List.cons_append, hline, row.blankFrom (after_cases Row.text rows), ih]
    rfl

/-- Blanking the comments of a file leaves the code of its rows. -/
theorem blankComments_fileText (rows : List Row) :
    blankComments (fileText rows) = fileCode rows := by
  cases rows with
  | nil => rfl
  | cons row rows =>
    rw [blankComments, fileText, List.map_cons, Text.join_cons, List.flatMap_map]
    exact (row.blankFrom (after_cases Row.text rows)).trans (congrArg _ (blankFrom_rows rows))

/-! ### Braces -/

/-- A closing brace stands behind each opening one. -/
def Closed (t : List Char) : Prop :=
  ∀ x y, t = x ++ '{' :: y → '\x7d' ∈ y

section Closed

variable {t u : List Char}

/-- Text without an opening brace is closed. -/
theorem Closed.of_not_mem (h : '{' ∉ t) : Closed t := by
  rintro x y rfl
  exact absurd (by simp) h

/-- Text that ends with a closing brace is closed. -/
theorem Closed.concat (t : List Char) : Closed (t ++ ['\x7d']) := by
  intro x y h
  rcases List.append_eq_append_iff.mp h with ⟨m, -, hm⟩ | ⟨m, -, hm⟩
  · cases m <;> simp at hm
  · cases m with
    | nil => simp at hm
    | cons c m =>
      obtain ⟨-, rfl⟩ := List.cons.inj hm
      simp

/-- Closed texts are closed together. -/
theorem Closed.append (ht : Closed t) (hu : Closed u) : Closed (t ++ u) := by
  intro x y h
  rcases List.append_eq_append_iff.mp h with ⟨m, rfl, hm⟩ | ⟨m, rfl, hm⟩
  · exact hu m y hm
  · cases m with
    | nil => exact hu [] y hm.symm
    | cons c m =>
      obtain ⟨rfl, rfl⟩ := List.cons.inj hm
      exact List.mem_append_left u (ht x m rfl)

/-- The end of a closed text is closed. -/
theorem Closed.tail {c : Char} (h : Closed (c :: t)) : Closed t := by
  rintro x y rfl
  exact h (c :: x) y rfl

/-- Where every brace is closed, none dangles. -/
theorem Closed.danglingBrace? (h : Closed t) : danglingBrace? t = none := by
  suffices hgo : ∀ offset, danglingBrace?.go offset t = none from hgo 0
  induction t with
  | nil => exact fun _ => rfl
  | cons c t ih =>
    intro offset
    rw [danglingBrace?.go, if_neg, ih h.tail]
    simp only [Bool.and_eq_true, Bool.not_eq_true', not_and, Bool.not_eq_false]
    -- where a list is opened, its brace is closed further on
    intro hbegins
    obtain ⟨r, hr⟩ := Option.isSome_iff_exists.mp hbegins
    have htext := Text.dropStart?_eq_some.mp hr
    have hmem : '\x7d' ∈ r := h "import ".toList r htext
    exact List.contains_iff_mem.mpr (htext ▸ List.mem_append_right _ hmem)

end Closed

theorem Ident.closed (w : Ident) : Closed w.chars :=
  .of_not_mem (w.not_mem (by decide))

/-- What is taken is closed: a list has both of its braces. -/
theorem Taken.closed (w : Taken) : Closed w.text := by
  cases w with
  | list es => exact Closed.concat ('{' :: Text.join [','] (es.map Entry.text))
  | whole w =>
    have hw : '{' ∉ w.chars := w.not_mem (by decide)
    exact .of_not_mem (by simp [Taken.text_whole, hw])

/-- The braces of a clause are closed. -/
theorem Form.closed_clause (f : Form) : Closed f.clause := by
  cases f with
  | bare | require | dynamic => exact .of_not_mem (by simp [Form.clause])
  | exportAll => exact .of_not_mem (by simp [Form.clause])
  | taken _ what | exportTaken what => exact what.closed
  | default d more =>
    cases more with
    | none => simpa [Form.clause] using d.closed
    | some t =>
      exact d.closed.append (Closed.append (t := [',', ' ']) (.of_not_mem (by simp)) t.closed)

/-- All braces before the specifier are closed. -/
theorem Form.closed_head (f : Form) : Closed f.head := by
  have hbefore : ∀ w ∈ ["import type ", "import ", "export ", "const "],
      '{' ∉ w.toList := by decide
  have hafter : ∀ w ∈ [" from ", "", " = require(", " = await import("],
      '{' ∉ w.toList := by decide
  have hmiddle : Closed f.middle := by
    rcases f.middle_cases with h | ⟨w, h⟩ <;> rw [h]
    · exact f.closed_clause
    · exact w.closed
  exact ((Closed.of_not_mem (hbefore _ f.before_mem)).append hmiddle).append
    (.of_not_mem (hafter _ f.after_mem))

theorem Row.closed_code (row : Row) : Closed row.code := by
  have hgap : ∀ t : Run isGapChar, '{' ∉ t.1 := fun t h => absurd (t.2 _ h) (by decide)
  cases row with
  | statement indent s =>
    have hindent : Closed indent.1 := .of_not_mem fun h => absurd (indent.2 _ h) (by decide)
    have hspec : '{' ∉ s.specifier.chars := fun h => absurd (s.specifier.allowed _ h) (by decide)
    -- behind the head there is no brace at all
    have hquoted : Closed ('\'' :: (s.specifier.chars ++ '\'' :: s.form.tail)) := by
      refine .of_not_mem ?_
      rcases s.form.tail_eq with h | h <;> simp [h, hspec]
    exact hindent.append (s.form.closed_head.append hquoted)
  | blank blanks => exact .of_not_mem (hgap blanks)
  | comment indent note =>
    have hnote : '{' ∉ note.1.flatMap blanksFor := fun h => by
      obtain ⟨c, -, hc⟩ := List.mem_flatMap.mp h
      exact absurd (mem_blanksFor hc) (by decide)
    exact .of_not_mem (by simp [Row.code, hgap, hnote])

/-- No brace of a file of statements is left open. -/
theorem danglingBrace?_fileCode (rows : List Row) : danglingBrace? (fileCode rows) = none := by
  refine Closed.danglingBrace? ?_
  have hafter : ∀ rows, Closed (codeAfter rows) := by
    intro rows
    induction rows with
    | nil => exact .of_not_mem (by simp [codeAfter])
    | cons row rows ih =>
      exact (Closed.append (t := ['\n']) (.of_not_mem (by simp)) row.closed_code).append ih
  cases rows with
  | nil => exact .of_not_mem (by simp [fileCode])
  | cons row rows => exact row.closed_code.append (hafter rows)

end ImportAtlas.Source.JavaScript
