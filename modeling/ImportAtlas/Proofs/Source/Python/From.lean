import ImportAtlas.Proofs.Source.Python.Names
import ImportAtlas.Proofs.Source.Python.Parens
import ImportAtlas.Proofs.Source.Python.Path

/-!
# Files of one statement with a path

What a file with one statement `from … import …` gives, with dots and a path before the names.

* `FromImport` — the statement as it is laid out;
* `FromImport.exists_runs` — its lines are joined to a text that is read as its names;
* `FromImport.readStatement` — this text is read as the record of the statement;
* `extract_fromImport` — what the file gives. Without a path, the first name must not begin with the
  keyword `import` (`extract_keywordName`).
-/

namespace ImportAtlas.Source.Python

open Pattern

/-! ### Statements -/

/-- `from` with dots and a path, and `import` with names. -/
structure FromImport where
  indent : Run isIndentChar
  depth : Nat
  path : List Word
  ascii : ∀ w ∈ path, w.Ascii
  /-- There are dots where there is no path. -/
  depth_ne_zero : path = [] → depth ≠ 0
  names : Names

namespace FromImport

/-- The text of a statement. -/
def text (s : FromImport) : List Char :=
  frontText s.indent.1 s.depth s.path ++ ' ' :: s.names.text

/-- What a statement on the first line should give. -/
def record (s : FromImport) : ImportRecord where
  path := s.path.map fun w => String.ofList w.chars
  depth := s.depth
  names := NameSet.ofList (s.names.entries.map (·.item.imported))
  conditional := s.indent.1 ≠ []
  line := 1

end FromImport

/-! ### Reading a statement -/

/-- A statement is read as its record, whatever blanks stand between its names. -/
theorem FromImport.readStatement (s : FromImport) (hbody : s.names.Reads body)
    (hkeyword : s.path = [] → ¬ s.names.BeginsWithKeyword) :
    readStatement ⟨1, frontText s.indent.1 s.depth s.path ++ ' ' :: body⟩ = .ok [s.record] := by
  obtain ⟨m, hm, hindent, hdots, hpath, b, b', hb, hb', hnames⟩ :=
    exists_search?_from s.indent.2 s.ascii s.depth_ne_zero hbody.ne_nil hbody.line
      (fun h hbegins => hkeyword h (hbody.keyword hbegins)) (fun _ => hbody.dot)
  -- the names are those of the body, blanks at both ends aside
  have htrim : Text.trim (m.finish.group "names") = Text.trim body := by
    have hspace := Text.trim_between Text.Blanks.space body .nil
    rw [List.append_nil, List.singleton_append, hnames, Text.trim_between hb _ hb'] at hspace
    exact hspace
  -- there is a dot or a path, so the import is not refused
  have hlocated : ¬ (s.depth = 0 ∧ s.path.map Word.chars = []) := fun h =>
    s.depth_ne_zero (List.map_eq_nil_iff.mp h.2) h.1
  have hnonempty : s.names.entries.map (·.item.imported) ≠ [] := by
    simpa using s.names.entries_ne_nil
  rw [Python.readStatement, hm]
  have hread := hbody.mapM_readName 1
  rw [listed] at hread
  simp only [readFrom, hdots, hpath, dottedSegments_dotted, htrim, hindent, if_neg hlocated,
    if_neg hbody.ne_star, hread, bind, Except.bind, if_neg hnonempty]
  simp [FromImport.record, Except.map, pure, Except.pure]

/-! ### Files -/

/-- The text of a file that has a statement and nothing else, perhaps with a newline at the end. -/
def FromImport.fileText (s : FromImport) (newline : Bool) : List Char :=
  s.text ++ if newline then ['\n'] else []

/-- What stands behind the keyword `from`, up to the names. -/
def behindText (d : Nat) (path : List Word) : List Char :=
  ' ' :: (List.replicate d '.' ++ (dotted path ++ " import".toList)) ++ [' ']

/-- The front is the indent, the word `from`, and what stands behind it. -/
theorem frontText_append (i : List Char) (d : Nat) (path : List Word) (r : List Char) :
    frontText i d path ++ ' ' :: r = i ++ ("from".toList ++ behindText d path) ++ r := by
  simp [frontText, behindText]

/-- Dots and names are plain. -/
theorem allIn_behindText (d : Nat) (path : List Word) : AllIn isPlainChar (behindText d path) := by
  have hpath : AllIn isPlainChar (dotted path) :=
    (allIn_dotted path).mono fun c hc => by simp [isPlainChar, hc]
  have hdots : AllIn isPlainChar (List.replicate d '.') := fun c hc => by
    rw [(List.mem_replicate.mp hc).2]
    decide
  exact AllIn.append (List.forall_mem_cons.mpr ⟨by decide, hdots.append
    (hpath.append (.of_all (by decide)))⟩) (.of_all (by decide))

/-- Dots and names stay in one line. -/
theorem newline_not_mem_behindText (d : Nat) (path : List Word) : '\n' ∉ behindText d path := by
  have hpath : '\n' ∉ dotted path := (allIn_dotted path).not_mem (by decide)
  simp [behindText, hpath, List.mem_replicate]

/-- The lines between the parentheses. -/
theorem allIn_cutAt_innerText (entries : List Entry) (comma : Option (Run Text.isBlank)) :
    ∀ p ∈ Text.cutAt (· == '\n') (innerText entries comma), AllIn isPlainChar p ∧ '\n' ∉ p := by
  refine fun p hp => ⟨fun c hc => ?_, fun hmem => Text.not_sep_of_mem_cutAt p hp '\n' hmem rfl⟩
  exact allIn_innerText entries comma c (Text.subset_of_mem_cutAt p hp hc)

namespace FromImport

variable (s : FromImport)

/-- The statement up to the names. -/
def front : List Char :=
  s.indent.1 ++ ("from".toList ++ behindText s.depth s.path)

/-- The front is plain and has no marks of comments or strings. -/
theorem allIn_front : AllIn isPlainChar s.front ∧ AllIn isCodeChar s.front := by
  have hindent : Text.Blanks s.indent.1 := fun c hc =>
    isBlank_of_isGapChar (isGapChar_of_isIndentChar c (s.indent.2 c hc))
  have hplain : AllIn isPlainChar s.front := (allIn_blanks hindent).append
    (AllIn.append (.of_all (by decide)) (allIn_behindText s.depth s.path))
  have hline : '\n' ∉ s.front := by
    have hmem : '\n' ∉ s.indent.1 := AllIn.not_mem s.indent.2 (by decide)
    simp [front, hmem, newline_not_mem_behindText]
  exact ⟨hplain, allIn_code hplain hline⟩

/-- The lines of a statement. -/
def lines : List (List Char) :=
  match s.names with
  | .plain entries _ _ => [s.front ++ entriesText entries]
  | .parens entries _ comma after =>
    closedLines (s.front ++ ['(']) after.1 (Text.cutAt (· == '\n') (innerText entries comma))

/-- The lines of a statement are its text. -/
theorem join_lines : Text.join ['\n'] s.lines = s.text := by
  rw [lines, text, frontText_append]
  cases s.names with
  | plain entries h line => rfl
  | parens entries h comma after =>
    rw [join_closedLines (Text.cutAt_ne_nil _), Text.join_cutAt]
    simp [Names.text, front]

/-- None of the lines has a comment or a string in it. -/
theorem code_lines : ∀ l ∈ s.lines, Code l l := by
  obtain ⟨-, hfront⟩ := s.allIn_front
  rw [lines]
  cases s.names with
  | plain entries h line =>
    simp only [List.forall_mem_singleton]
    exact .of_plain (hfront.append (allIn_code (allIn_entriesText entries) line))
  | parens entries h comma after =>
    -- behind the parenthesis there are only blanks
    have hafter : AllIn isCodeChar after.1 := fun c hc => by
      obtain ⟨hblank, hline⟩ := Bool.and_eq_true_iff.mp (after.2 c hc)
      exact isCodeChar_of_isPlainChar (by simp [isPlainChar, hblank]) (by simpa using hline)
    have hps : ∀ p ∈ Text.cutAt (· == '\n') (innerText entries comma), AllIn isCodeChar p :=
      fun p hp => allIn_code (allIn_cutAt_innerText entries comma p hp).1
        (allIn_cutAt_innerText entries comma p hp).2
    exact fun l hl => .of_plain (allIn_closedLines (by decide) (hfront.append (.of_all (by decide)))
      hafter hps l hl)

/-- The last line is not empty. -/
theorem getLast?_lines : ∃ l, s.lines.getLast? = some l ∧ l ≠ [] := by
  rw [lines]
  cases s.names with
  | plain entries h line => exact ⟨_, rfl, by simp [front, behindText]⟩
  | parens entries h comma after => exact getLast?_closedLines (Text.cutAt_ne_nil _)

/-- A statement without parentheses is one line. -/
theorem runs_plain {x : List Char} {entries : List Entry} (h : entries ≠ [])
    (hline : '\n' ∉ entriesText entries) (hx : Code x (s.front ++ entriesText entries)) :
    Runs {} 1 [x] {} [⟨1, s.front ++ Text.trimEnd (entriesText entries)⟩] := by
  obtain ⟨hplain, -⟩ := s.allIn_front
  have hbegins : beginsStatement (dropComment none x) := by
    rw [front, List.append_assoc, List.append_assoc] at hx
    exact hx.beginsStatement s.indent.2 (.inr rfl)
  have hall : AllIn isPlainChar (s.front ++ Text.trimEnd (entriesText entries)) :=
    hplain.append fun c hc => allIn_entriesText entries c (Text.mem_of_mem_trimEnd hc)
  -- no character of it continues the line or opens parentheses
  have hbody : dropContinuation (Text.trimEnd (s.front ++ entriesText entries)) =
      (s.front ++ Text.trimEnd (entriesText entries), false) := by
    rw [Text.trimEnd_append_of_ne_nil (reads_plain h hline).ne_nil, dropContinuation_of_not_mem
      (hall.not_mem (by decide))]
  have hparen : (s.front ++ Text.trimEnd (entriesText entries)).contains '(' = false := by
    simpa using hall.not_mem (show isPlainChar '(' = false by decide)
  have hread := readLine_start (n := 1) hx hbegins hbody
  rw [hparen] at hread
  exact .cons hread (.nil _ _)

/-- The lines of a statement are joined to its text. -/
theorem exists_runs {xs : List (List Char)} (hxs : List.Forall₂ Code xs s.lines) :
    ∃ body, s.names.Reads body ∧
      Runs {} 1 xs {} [⟨1, frontText s.indent.1 s.depth s.path ++ ' ' :: body⟩] := by
  rw [lines] at hxs
  cases hnames : s.names with
  | plain entries h line =>
    simp only [hnames] at hxs
    obtain ⟨x, hx, rfl⟩ : ∃ x, Code x (s.front ++ entriesText entries) ∧ xs = [x] := by
      simpa [List.forall₂_cons_right_iff] using hxs
    -- without parentheses a statement is one line
    refine ⟨_, reads_plain h line, ?_⟩
    rw [frontText_append]
    exact s.runs_plain h line hx
  | parens entries h comma after =>
    simp only [hnames] at hxs
    have hafter : Text.Blanks after.1 := fun c hc => isBlank_of_isGapChar (after.2 c hc)
    -- with them the lines are collected up to the closing one
    obtain ⟨v, hruns, hline, hwords⟩ := exists_runs_parens (n := 1) s.indent.2
      (allIn_behindText s.depth s.path) (Text.cutAt_ne_nil _) (allIn_cutAt_innerText entries comma)
      hafter hxs
    rw [Text.join_cutAt] at hwords
    refine ⟨_, reads_parens h comma after hline hwords, ?_⟩
    rwa [frontText_append]

end FromImport

/-- A file that has one statement gives its record. -/
theorem extract_fromImport (s : FromImport) (h : s.path = [] → ¬ s.names.BeginsWithKeyword)
    (newline : Bool) : extract false (s.fileText newline) = .ok [s.record] := by
  have hcode : List.Forall₂ Code s.lines s.lines := List.forall₂_same.mpr s.code_lines
  obtain ⟨last, hlast, hne⟩ := s.getLast?_lines
  have hlines : List.Forall₂ Code (Text.lines (s.fileText newline)) s.lines := by
    rw [FromImport.fileText, ← s.join_lines]
    cases newline with
    | false => simpa using forall₂_lines hcode (by simpa [hlast] using hne)
    -- the line end at the end of the file ends the last line and begins none
    | true =>
      have hnil : s.lines ≠ [] := fun hnil => by simp [hnil] at hlast
      have hconcat := forall₂_lines_concat hcode hnil
      rwa [Text.join_concat _ hnil, List.append_nil] at hconcat
  obtain ⟨body, hbody, hruns⟩ := s.exists_runs hlines
  simpa using (Gives.of_statement hruns (s.readStatement hbody h)).extract false

/-- A name as it stands in a list behind a space. -/
def Entry.spaced (name : Word) (rename : Option Word) : Entry :=
  let space : Space Text.isBlank := .single ' ' (by decide)
  ⟨⟨[' '], by decide⟩, ⟨name, rename.map (⟨space, space, ·⟩)⟩, .empty _⟩

/-- Two names from two levels up. -/
def twoNames : FromImport where
  indent := ⟨[' '], by decide⟩
  depth := 2
  path := []
  ascii := by simp
  depth_ne_zero := by simp
  names := .plain
    [.spaced ⟨['x'], by decide⟩ (some ⟨['y'], by decide⟩),
      .spaced ⟨"imports".toList, by decide⟩ none]
    (by simp) (by decide)

/-- The path is empty, and the first of the names does not begin with the keyword. The record has
them in the order of the alphabet. -/
theorem extract_fromImport_of_two :
    (twoNames.path = [] → ¬ twoNames.names.BeginsWithKeyword) ∧
      extract false " from .. import  x as y, imports\n".toList = .ok
        [{ path := [], depth := 2, conditional := true, line := 1
           names := [{ name := "imports" }, { name := "x", rename := some "y" }] }] := by
  have hkeyword : twoNames.path = [] → ¬ twoNames.names.BeginsWithKeyword := fun _ => by
    simp [twoNames, Names.BeginsWithKeyword, Entry.spaced]
  exact ⟨hkeyword, extract_fromImport twoNames hkeyword true⟩

/-- One name, which begins with the keyword. -/
def keywordName : FromImport where
  indent := .empty _
  depth := 1
  path := []
  ascii := by simp
  depth_ne_zero := by simp
  names := .plain [⟨.empty _, ⟨⟨"imports".toList, by decide⟩, none⟩, .empty _⟩]
    (by simp) (by decide)

/-- The keyword is read as the path, and the beginning of the name as the keyword. -/
theorem extract_keywordName :
    extract false (keywordName.fileText true) = .ok
        [{ path := ["import"], depth := 1, names := [{ name := "s" }], line := 1 }] ∧
      extract false (keywordName.fileText true) ≠ .ok [keywordName.record] := by
  have hextract : extract false "from . import imports\n".toList = .ok
      [{ path := ["import"], depth := 1, names := [{ name := "s" }], line := 1 }] := by
    decide +kernel
  refine ⟨hextract, fun heq => ?_⟩
  have hpath := congrArg (·.map ImportRecord.path) (Except.ok.inj (hextract.symm.trans heq))
  exact absurd hpath (by decide)

end ImportAtlas.Source.Python
