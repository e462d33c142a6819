import ImportAtlas.Proofs.Source.Python.Lines
import ImportAtlas.Proofs.Source.Python.Match

/-!
# Files of import statements

What a file of statements of the form `import a.b, c as d` gives, with blank lines, comments and
other code between them.

* `Row` — a line of a file, or the lines of one statement, as they are laid out;
* `Joined`, `Opened` — what the lines of a list have been joined to, at its end and before it;
* `exists_runs_list` — the lines of a statement are joined to its keyword and its list;
* `Row.gives` — a row gives its own records, whatever stands around it;
* `extract_importLines` — what a file gives, module by module.
-/

namespace ImportAtlas.Source.Python

open Pattern

/-! ### Statements -/

/-- A dotted path, perhaps under another name. -/
structure Module where
  path : List Word
  ne_nil : path ≠ []
  rename : Option Word

/-- A module in a list, with the blanks around it. -/
structure Part where
  before : Run isGapChar
  module : Module
  after : Run isGapChar

/-- A line of a list that goes on behind it: modules, a comma behind each, and a backslash. -/
structure Broken where
  parts : List Part
  gap : Run isGapChar

/-- The last line of a list. -/
structure Ending where
  parts : List Part
  last : Part

/-- A line of a file, or the lines of one statement. -/
inductive Row where
  /-- `import` with a list of modules, and a comment behind it. -/
  | statement (indent : Run isIndentChar) (space : Space isGapChar) (broken : List Broken)
      (ending : Ending) (note : Option (Run (· != '\n')))
  /-- Blanks or other code without quotes, and a comment behind it. -/
  | other (code : Run isCodeChar) (note : Option (Run (· != '\n'))) (h : ¬ beginsStatement code.1)

namespace Module

/-- The path with its dots and, behind `as`, the other name. -/
def text (m : Module) : List Char :=
  dotted m.path ++ m.rename.elim [] fun a => " as ".toList ++ a.chars

/-- What a module in a statement should give. -/
def record (line : Nat) (conditional : Bool) (m : Module) : ImportRecord where
  path := m.path.map fun w => String.ofList w.chars
  rename := m.rename.map fun a => String.ofList a.chars
  line := line
  conditional := conditional

end Module

/-- A module with the blanks that stand on both sides of it. -/
def Part.text (p : Part) : List Char :=
  p.before.1 ++ p.module.text ++ p.after.1

/-- Modules, each with a comma behind it. -/
def commaText (parts : List Part) : List Char :=
  parts.flatMap fun p => p.text ++ [',']

/-- A line that ends in a backslash, up to it: its parts, each with a comma behind it, and a gap. -/
def Broken.text (b : Broken) : List Char :=
  commaText b.parts ++ b.gap.1

/-- The last line: its parts, each with a comma behind it, and one more part. -/
def Ending.text (e : Ending) : List Char :=
  commaText e.parts ++ e.last.text

/-- The lines of a list, the first of them with `front` before it and the last with a comment. -/
def listLines (front : List Char) (note : Option (Run (· != '\n'))) :
    List Broken → Ending → List (List Char)
  | [], e => [front ++ e.text ++ noteText note]
  | b :: bs, e => (front ++ b.text ++ ['\\']) :: listLines [] note bs e

/-- The lines of the file that a row is written on. -/
def Row.lines : Row → List (List Char)
  | statement indent space broken ending note =>
    listLines (indent.1 ++ ("import".toList ++ space.chars)) note broken ending
  | other code note _ => [code.1 ++ noteText note]

/-- The text of a file. A last row that is empty puts a newline at its end. -/
def fileText (rows : List Row) : List Char :=
  Text.join ['\n'] (rows.flatMap Row.lines)

/-- The modules of a statement, in order. -/
def listModules (broken : List Broken) (ending : Ending) : List Module :=
  (broken.flatMap Broken.parts ++ ending.parts ++ [ending.last]).map Part.module

/-- What a row on a line should give. -/
def Row.records (line : Nat) : Row → List ImportRecord
  | statement indent _ broken ending _ =>
    (listModules broken ending).map (Module.record line (indent.1 ≠ []))
  | other .. => []

/-- What the rows of a file should give, the first of them on the line `line`. -/
def recordsFrom (line : Nat) : List Row → List ImportRecord
  | [] => []
  | row :: rows => row.records line ++ recordsFrom (line + row.lines.length) rows

/-- The records of the rows of a file, whose lines are counted from one. -/
def records (rows : List Row) : List ImportRecord :=
  recordsFrom 1 rows

/-! ### Modules -/

namespace Module

variable (m : Module)

/-- Names have no blanks, so the text of a module neither begins nor ends with one. Trimming leaves
it. -/
theorem solid : Text.Solid m.text := by
  rw [text]
  cases m.rename with
  | none => simpa using solid_dotted m.ne_nil
  | some a => simpa using (solid_dotted m.ne_nil).append " as ".toList a.solid

/-- The words ` as ` stand first behind the path. -/
theorem splitFirst?_text : Text.splitFirst? " as ".toList m.text =
    m.rename.map fun a => (dotted m.path, a.chars) := by
  have hspace : ' ' ∉ dotted m.path := fun hmem =>
    absurd (not_isBlank_of_mem_dotted m.path ' ' hmem) (by decide)
  have hfirst : ' ' ∈ " as ".toList := by decide
  rw [text]
  cases m.rename with
  | none => exact Text.splitFirst?_eq_none.mpr fun hin => hspace (by simpa using hin.subset hfirst)
  | some a =>
    -- there is one blank too few for them in front
    have hnone : ¬ " as ".toList <:+: dotted m.path ++ " as ".toList.dropLast := fun hin => by
      have hcount := hin.sublist.count_le ' '
      rw [List.count_append, List.count_eq_zero.mpr hspace] at hcount
      exact absurd hcount (by decide)
    simpa using Text.splitFirst?_append (by decide) hnone a.chars

/-- The reader of one module gives the record of what was written. It looks for the first ` as `,
and there is none in a path, since a path has no blanks. -/
theorem readModule_text (line : Nat) (conditional : Bool) :
    readModule line conditional m.text = .ok (m.record line conditional) := by
  have hvalid : ¬ (m.path.map Word.chars = [] ∨ (m.path.map Word.chars).any (!isIdentifier ·)) := by
    simp [m.ne_nil, Word.isIdentifier]
  rw [readModule, splitFirst?_text]
  -- without another name the whole text is the path, with one the path stands before ` as `
  cases hrename : m.rename with
  | none =>
    have htext : m.text = dotted m.path := by simp [text, hrename]
    simp only [Option.map_none, htext, dottedSegments_dotted, if_neg hvalid]
    simp [record, hrename]
  | some a =>
    simp only [Option.map_some, (solid_dotted m.ne_nil).trim_eq, a.solid.trim_eq,
      dottedSegments_dotted, if_neg hvalid]
    simp [record, hrename]

end Module

/-! ### The characters of a list -/

/-- A character of a list of modules. -/
def isListChar (c : Char) : Bool :=
  isPathChar c || isGapChar c || c == ','

theorem Word.allIn_list (w : Word) : AllIn isListChar w.chars :=
  w.allIn.mono fun c hc => by simp [isListChar, isPathChar, hc]

theorem allIn_gap (t : Run isGapChar) : AllIn isListChar t.1 := fun c hc => by
  simp [isListChar, t.2 c hc]

theorem allIn_path (path : List Word) : AllIn isListChar (dotted path) :=
  (allIn_dotted path).mono fun c hc => by simp [isListChar, hc]

/-- A part has no character but those of names, dots and gaps. No comma, bracket or line end is
one. -/
theorem Part.allIn (p : Part) : AllIn isListChar p.text := by
  have hrename : AllIn isListChar (p.module.rename.elim [] fun a => " as ".toList ++ a.chars) := by
    cases p.module.rename with
    | none => exact .of_all rfl
    | some a => exact AllIn.append (.of_all (by decide)) a.allIn_list
  exact ((allIn_gap p.before).append ((allIn_path p.module.path).append hrename)).append
    (allIn_gap p.after)

/-- A sequence of parts has no other characters than these and commas. -/
theorem allIn_commaText (parts : List Part) : AllIn isListChar (commaText parts) := by
  intro c hc
  obtain ⟨p, -, hc⟩ := List.mem_flatMap.mp hc
  exact p.allIn.append (.of_all (by decide)) c hc

theorem Broken.allIn (b : Broken) : AllIn isListChar b.text :=
  (allIn_commaText b.parts).append (allIn_gap b.gap)

theorem Ending.allIn (e : Ending) : AllIn isListChar e.text :=
  (allIn_commaText e.parts).append e.last.allIn

/-- The characters of a list of modules are code: they open no string and no comment. -/
theorem isCodeChar_of_isListChar (c : Char) (h : isListChar c) : isCodeChar c := by
  refine isCodeChar_of_isPlainChar ?_ fun hc => absurd h (by rw [hc]; decide)
  simp only [isListChar, isPlainChar, Bool.or_eq_true] at h ⊢
  exact h.imp_left (Or.imp_right isBlank_of_isGapChar)

/-! ### Lists -/

/-- No comma stands in a part, so the commas of a list are those between its parts. -/
theorem Part.comma_not_mem (p : Part) : ',' ∉ p.text := by
  have hword : ∀ w : Word, ',' ∉ w.chars := fun w => w.allIn.not_mem (by decide)
  have hgap : ∀ t : Run isGapChar, ',' ∉ t.1 := fun t => AllIn.not_mem t.2 (by decide)
  have hpath : ',' ∉ dotted p.module.path := (allIn_dotted _).not_mem (by decide)
  cases hrename : p.module.rename <;>
    simp [Part.text, Module.text, hrename, hgap, hpath, hword]

/-- One part alone is listed as its module, since the gaps around it are trimmed. -/
theorem Part.listed_text (p : Part) : listed p.text = [p.module.text] := by
  have hblanks : ∀ t : Run isGapChar, Text.Blanks t.1 := fun t c hc =>
    isBlank_of_isGapChar (t.2 c hc)
  rw [listed_of_not_mem p.comma_not_mem, Part.text,
    Text.trim_pad (hblanks p.before) p.module.solid (hblanks p.after)]

/-- The parts with commas behind them are listed before what follows. -/
theorem listed_commaText (parts : List Part) (t : List Char) :
    listed (commaText parts ++ t) = parts.map (·.module.text) ++ listed t := by
  -- one comma at a time: what stands before it is a part
  induction parts with
  | nil => rfl
  | cons p parts ih =>
    rw [commaText, List.flatMap_cons, List.append_assoc, List.append_assoc, List.singleton_append,
      listed_comma, p.listed_text, List.map_cons]
    exact congrArg _ ih

/-! ### The lines of a list -/

/-- A broken line behind blanks, joined to the next by one space, lists its own parts first. The
blanks before its backslash went away when its end was trimmed. -/
theorem listed_broken {b : List Char} (hb : Text.Blanks b) (l : Broken) (t : List Char) :
    listed (Text.trimEnd (b ++ l.text) ++ ' ' :: t) = l.parts.map (·.module.text) ++ listed t := by
  have hspace : listed (' ' :: t) = listed t := listed_append (b := [' ']) (by decide) t
  have hgap : Text.Blanks l.gap.1 := fun c hc => isBlank_of_isGapChar (l.gap.2 c hc)
  rw [Broken.text]
  -- a line without parts is blank, and with parts it ends in a comma and blanks
  cases l.parts using List.reverseRecOn with
  | nil => simpa [commaText, (hb.append hgap).trimEnd_eq] using hspace
  | append_singleton ps p =>
    have htext : b ++ (commaText (ps ++ [p]) ++ l.gap.1) =
        (b ++ (commaText ps ++ p.text)) ++ ',' :: l.gap.1 := by
      simp [commaText]
    have hps : listed (b ++ (commaText ps ++ p.text)) = (ps ++ [p]).map (·.module.text) := by
      rw [listed_append hb, listed_commaText, p.listed_text, List.map_append]
      rfl
    rw [htext, Text.trimEnd_append_cons _ (by decide), hgap.trimEnd_eq, List.append_assoc,
      List.singleton_append, listed_comma, hps, hspace]

/-- A line in the middle, which is trimmed at both ends, lists its own parts first too. -/
theorem listed_broken_trim (l : Broken) (t : List Char) :
    listed (Text.trim l.text ++ ' ' :: t) = l.parts.map (·.module.text) ++ listed t := by
  obtain ⟨b, hb, htrim⟩ := Text.exists_trimEnd_eq l.text
  rw [← listed_append hb, ← List.append_assoc, ← htrim]
  exact listed_broken .nil l t

/-- The last line lists its parts and the one at its end. -/
theorem Ending.listed_text (e : Ending) :
    listed e.text = (e.parts ++ [e.last]).map (·.module.text) := by
  rw [text, listed_commaText, e.last.listed_text, List.map_append]
  rfl

/-- The last line ends, blanks apart, in the last character of a name. It is no backslash, so the
statement goes on no further, and trimming the end takes only the blanks behind it. -/
theorem Ending.exists_last (e : Ending) :
    ∃ r c, c ≠ '\\' ∧ Text.trim e.text = Text.trimStart r ++ [c] ∧
    ∀ front, Text.trimEnd (front ++ e.text) = front ++ r ++ [c] := by
  obtain ⟨r, c, hc, hblank⟩ := e.last.module.solid.last
  have hblanks : Text.Blanks e.last.after.1 :=
    fun d hd => isBlank_of_isGapChar (e.last.after.2 d hd)
  -- the last character of the last name, with what stands before it and the gap behind it
  have htext : e.text = (commaText e.parts ++ (e.last.before.1 ++ r)) ++ c :: e.last.after.1 := by
    simp [text, Part.text, hc]
  refine ⟨commaText e.parts ++ (e.last.before.1 ++ r), c, fun heq => ?_, ?_, fun front => ?_⟩
  · have hmem : '\\' ∈ e.text := by simp [htext, heq]
    exact e.allIn.not_mem (by decide) hmem
  · rw [htext, Text.trim, Text.trimStart_append_cons _ hblank, Text.trimEnd_append_cons _ hblank,
      hblanks.trimEnd_eq]
  · rw [htext, ← List.append_assoc front, Text.trimEnd_append_cons _ hblank, hblanks.trimEnd_eq]

/-- The last line does not go on: trimmed on both sides it ends in no backslash. -/
theorem Ending.dropContinuation_trim (e : Ending) :
    dropContinuation (Text.trim e.text) = (Text.trim e.text, false) := by
  obtain ⟨r, c, hc, htrim, -⟩ := e.exists_last
  rw [htrim, dropContinuation_of_last _ hc]

/-- The last line does not go on with its end trimmed only, whatever stands before it. -/
theorem Ending.dropContinuation_trimEnd (e : Ending) (front : List Char) :
    dropContinuation (Text.trimEnd (front ++ e.text)) =
      (Text.trimEnd (front ++ e.text), false) := by
  obtain ⟨r, c, hc, -, hend⟩ := e.exists_last
  rw [hend, dropContinuation_of_last _ hc]

/-- The last line is not blank. -/
theorem Ending.trim_ne_nil (e : Ending) : Text.trim e.text ≠ [] := by
  obtain ⟨r, c, -, htrim, -⟩ := e.exists_last
  simp [htrim]

/-! ### Joining the lines -/

/-- What a statement is when it has been joined: the keyword and a list of modules. -/
structure Joined (i text : List Char) (modules : List Module) : Prop where
  exists_body : ∃ c body, Text.isBlank c ∧ body ≠ [] ∧ '\n' ∉ body ∧
    text = i ++ ("import".toList ++ c :: body) ∧ listed (c :: body) = modules.map Module.text

/-- What has been joined of a statement that goes on. -/
structure Opened (i text : List Char) (modules : List Module) : Prop where
  exists_body : ∃ body, (body = [] ∨ ∃ c r, body = c :: r ∧ Text.isBlank c) ∧
    AllIn isListChar body ∧ text = i ++ ("import".toList ++ body) ∧
      ∀ t, listed (body ++ ' ' :: t) = modules.map Module.text ++ listed t

variable {i text : List Char} {modules : List Module}

/-- Trimming at the end does not come to the keyword. -/
theorem trimEnd_keyword (i t : List Char) :
    Text.trimEnd (i ++ ("import".toList ++ t)) = i ++ ("import".toList ++ Text.trimEnd t) := by
  have htrim := Text.trimEnd_append_cons (i ++ "impor".toList) (c := 't') (by decide) t
  simpa using htrim

/-- What is left of a text that begins with a blank begins with it, or is nothing. -/
theorem trimEnd_cases (space : Space isGapChar) (t : List Char) :
    Text.trimEnd (space.chars ++ t) = [] ∨
      ∃ c r, Text.trimEnd (space.chars ++ t) = c :: r ∧ Text.isBlank c := by
  obtain ⟨b, -, htrim⟩ := Text.exists_trimEnd (space.chars ++ t)
  cases hbody : Text.trimEnd (space.chars ++ t) with
  | nil => exact .inl rfl
  | cons c r =>
    obtain ⟨d, ds, hspace⟩ := List.exists_cons_of_ne_nil space.ne_nil
    rw [hbody, hspace] at htrim
    obtain ⟨rfl, -⟩ := List.cons.inj htrim
    exact .inr ⟨d, r, rfl, space.blanks d (by simp [hspace])⟩

/-- Trimming the end of a list behind its gap leaves only characters of lists. -/
theorem allIn_trimEnd (space : Space isGapChar) {t : List Char} (ht : AllIn isListChar t) :
    AllIn isListChar (Text.trimEnd (space.chars ++ t)) := fun c hc =>
  (allIn_gap ⟨space.chars, space.allowed⟩).append ht c (Text.mem_of_mem_trimEnd hc)

/-- The first line opens the statement: what is kept of it is the keyword and a text that lists the
modules of the line. -/
theorem opened_broken (i : List Char) (space : Space isGapChar) (l : Broken) :
    Opened i (Text.trimEnd (i ++ ("import".toList ++ space.chars) ++ l.text))
      (l.parts.map Part.module) := by
  refine ⟨Text.trimEnd (space.chars ++ l.text), trimEnd_cases space l.text,
    allIn_trimEnd space l.allIn, ?_, fun t => ?_⟩
  · rw [List.append_assoc, List.append_assoc, trimEnd_keyword]
  · rw [listed_broken space.blanks, List.map_map]
    rfl

/-- A broken line that is joined to an open statement leaves it open, with its modules behind the
others. -/
theorem Opened.broken (h : Opened i text modules) (l : Broken) :
    Opened i (text ++ ' ' :: Text.trim l.text) (modules ++ l.parts.map Part.module) := by
  obtain ⟨body, hhead, hbody, rfl, hlisted⟩ := h.exists_body
  have htrim : AllIn isListChar (Text.trim l.text) :=
    fun c hc => l.allIn c (Text.mem_of_mem_trim hc)
  refine ⟨body ++ ' ' :: Text.trim l.text, .inr ?_, ?_, by simp, fun t => ?_⟩
  · -- what was read so far may be the keyword alone: then the joining space is the gap behind it
    rcases hhead with rfl | ⟨c, r, rfl, hc⟩
    · exact ⟨' ', _, rfl, by decide⟩
    · exact ⟨c, _, rfl, hc⟩
  · exact hbody.append (AllIn.append (t := [' ']) (.of_all (by decide)) htrim)
  · rw [List.append_assoc, List.cons_append, hlisted, listed_broken_trim]
    simp

/-- The last line joined to an open statement closes it. -/
theorem Opened.ending (h : Opened i text modules) (e : Ending) :
    Joined i (text ++ ' ' :: Text.trim e.text)
      (modules ++ (e.parts ++ [e.last]).map Part.module) := by
  obtain ⟨body, hhead, hbody, rfl, hlisted⟩ := h.exists_body
  have hline : '\n' ∉ body ++ ' ' :: Text.trim e.text := by
    have htrim : '\n' ∉ Text.trim e.text := fun hmem =>
      e.allIn.not_mem (by decide) (Text.mem_of_mem_trim hmem)
    simp [hbody.not_mem (show isListChar '\n' = false by decide), htrim]
  have hmodules : listed (body ++ ' ' :: Text.trim e.text) =
      (modules ++ (e.parts ++ [e.last]).map Part.module).map Module.text := by
    rw [hlisted, listed_trim, e.listed_text]
    simp
  -- the gap behind the keyword is found as for a broken line
  rcases hhead with rfl | ⟨c, r, rfl, hc⟩
  · exact ⟨' ', _, by decide, e.trim_ne_nil, fun hmem => hline (.tail _ hmem), by simp, hmodules⟩
  · exact ⟨c, r ++ ' ' :: Text.trim e.text, hc, by simp, fun hmem => hline (.tail _ hmem), by simp,
      hmodules⟩

/-- A statement on one line is complete after that line. -/
theorem joined_ending (i : List Char) (space : Space isGapChar) (e : Ending) :
    Joined i (Text.trimEnd (i ++ ("import".toList ++ space.chars) ++ e.text))
      ((e.parts ++ [e.last]).map Part.module) := by
  obtain ⟨r, d, -, -, hend⟩ := e.exists_last
  obtain ⟨c, cs, hspace⟩ := List.exists_cons_of_ne_nil space.ne_nil
  -- the gap is not empty, and its first character is the blank behind the keyword
  have hbody : Text.trimEnd (space.chars ++ e.text) = c :: (cs ++ r ++ [d]) := by
    rw [hend, hspace]
    simp
  have hline := (allIn_trimEnd space e.allIn).not_mem (show isListChar '\n' = false by decide)
  rw [hbody] at hline
  refine ⟨c, cs ++ r ++ [d], space.blanks c (by simp [hspace]), by simp,
    fun hmem => hline (.tail _ hmem), ?_, ?_⟩
  · rw [List.append_assoc, List.append_assoc, trimEnd_keyword, hbody]
  · rw [← hbody, listed_trimEnd, listed_append space.blanks, e.listed_text, List.map_map]
    rfl

/-! ### Reading the lines of a list -/

variable {n k : Nat} {xs : List (List Char)}

/-- From an open statement the reader comes, line by line, to the whole of it, by induction on the
broken lines that are left. -/
theorem Opened.exists_runs (h : Opened i text modules) (broken : List Broken) (e : Ending)
    (hxs : List.Forall₂ Code xs (listLines [] none broken e)) :
    ∃ text', Joined i text' (modules ++ listModules broken e) ∧
      Runs { pending := some ⟨⟨k, text⟩, false⟩ } n xs {} [⟨k, text'⟩] := by
  induction broken generalizing text modules n xs with
  | nil =>
    obtain ⟨x, hx, rfl⟩ : ∃ x, Code x e.text ∧ xs = [x] := by
      simpa [listLines, noteText, List.forall₂_cons_right_iff] using hxs
    have hread := readLine_pending (n := n) hx ⟨⟨k, text⟩, false⟩ e.dropContinuation_trim
    refine ⟨_, h.ending e, ?_⟩
    exact .cons (by simpa using hread) (.nil _ _)
  | cons b bs ih =>
    obtain ⟨x, ys, hx, hys, rfl⟩ := List.forall₂_cons_right_iff.mp hxs
    have hbody :
        dropContinuation (Text.trim ([] ++ b.text ++ ['\\'])) = (Text.trim b.text, true) := by
      rw [List.nil_append, Text.trim, Text.trimStart_append_cons _ (by decide),
        Text.trimEnd_of_last _ (by decide), dropContinuation_backslash]
      rfl
    -- the backslash behind the line keeps the statement open
    have hread := readLine_pending (n := n) hx ⟨⟨k, text⟩, false⟩ hbody
    obtain ⟨text', hjoined, hruns⟩ := ih (h.broken b) hys
    refine ⟨text', by simpa [listModules] using hjoined, ?_⟩
    exact .cons (by simpa using hread) hruns

/-- The first line of a statement opens no parenthesis. -/
theorem contains_paren (indent : Run isIndentChar) (space : Space isGapChar) {t : List Char}
    (ht : AllIn isListChar t) :
    (Text.trimEnd (indent.1 ++ ("import".toList ++ space.chars) ++ t)).contains '(' = false := by
  have hindent : '(' ∉ indent.1 := AllIn.not_mem indent.2 (by decide)
  have hspace : '(' ∉ space.chars := AllIn.not_mem space.allowed (by decide)
  have hlist : '(' ∉ t := ht.not_mem (by decide)
  have hmem :
      '(' ∉ Text.trimEnd (indent.1 ++ ("import".toList ++ space.chars) ++ t) := fun hmem => by
    simpa [hindent, hspace, hlist] using Text.mem_of_mem_trimEnd hmem
  simpa only [List.contains_eq_mem, decide_eq_false_iff_not] using hmem

/-- The reader of lines makes one statement of the lines of an `import`, whose modules are those
written. -/
theorem exists_runs_list (indent : Run isIndentChar) (space : Space isGapChar)
    (broken : List Broken)
    (e : Ending) (hxs : List.Forall₂ Code xs
      (listLines (indent.1 ++ ("import".toList ++ space.chars)) none broken e)) :
    ∃ text, Joined indent.1 text (listModules broken e) ∧ Runs {} n xs {} [⟨n, text⟩] := by
  -- every first line begins, after its indent, with the keyword
  have hstart : ∀ {x t}, Code x (indent.1 ++ ("import".toList ++ space.chars) ++ t) →
      beginsStatement (dropComment none x) := fun hx => by
    rw [List.append_assoc, List.append_assoc] at hx
    exact hx.beginsStatement indent.2 (.inl rfl)
  cases broken with
  | nil =>
    obtain ⟨x, hx, rfl⟩ : ∃ x, Code x (indent.1 ++ ("import".toList ++ space.chars) ++ e.text) ∧
        xs = [x] := by
      simpa [listLines, noteText, List.forall₂_cons_right_iff] using hxs
    have hread := readLine_start (n := n) hx (hstart hx) (e.dropContinuation_trimEnd _)
    rw [contains_paren indent space e.allIn] at hread
    exact ⟨_, joined_ending indent.1 space e, .cons hread (.nil _ _)⟩
  | cons b bs =>
    -- the first line opens the statement, and the others are read as `Opened.exists_runs` says
    obtain ⟨x, ys, hx, hys, rfl⟩ := List.forall₂_cons_right_iff.mp hxs
    have hbody : dropContinuation
        (Text.trimEnd (indent.1 ++ ("import".toList ++ space.chars) ++ b.text ++ ['\\'])) =
          (Text.trimEnd (indent.1 ++ ("import".toList ++ space.chars) ++ b.text), true) := by
      rw [Text.trimEnd_of_last _ (by decide), dropContinuation_backslash]
    have hread := readLine_start (n := n) hx
      (hstart (t := b.text ++ ['\\']) (by rwa [← List.append_assoc])) hbody
    rw [contains_paren indent space b.allIn] at hread
    obtain ⟨text, hjoined, hruns⟩ := (opened_broken indent.1 space b).exists_runs bs e hys
    exact ⟨text, by simpa [listModules] using hjoined, .cons hread hruns⟩

/-! ### Files -/

/-- A joined statement is read as the records of its modules. The pattern may split the blanks
around the list as it likes: what is listed is the same. -/
theorem Joined.readStatement (h : Joined i text modules) (hi : AllIn isIndentChar i) :
    readStatement ⟨n, text⟩ = .ok (modules.map (Module.record n (i ≠ []))) := by
  obtain ⟨c, body, hc, hne, hline, rfl, hlisted⟩ := h.exists_body
  have hblank : Text.Blanks [c] := List.forall_mem_singleton.mpr hc
  obtain ⟨m, hm, hindent, b, b', hb, hb', hbody⟩ :=
    exists_search?_import hi (List.cons_ne_nil c []) hblank hne hline
  -- the body of the match differs from the list in blanks at its ends only
  have hparts : listed (m.finish.group "body") = modules.map Module.text := by
    rw [← hlisted, ← List.singleton_append, hbody, listed_pad hb _ hb']
  rw [List.singleton_append] at hm
  rw [Python.readStatement]
  simp only [search?_from_of_import hi, hm, hindent]
  change (listed (m.finish.group "body")).mapM _ = _
  rw [hparts, mapM_eq_ok_iff]
  simp [Module.readModule_text]

/-- What stands on the lines of a row before the comments. -/
def Row.codes : Row → List (List Char)
  | statement indent space broken ending _ =>
    listLines (indent.1 ++ ("import".toList ++ space.chars)) none broken ending
  | other code _ _ => [code.1]

/-- Every line of a statement is code with, on its last line, a comment behind it. -/
theorem forall₂_listLines {front : List Char} (hfront : AllIn isCodeChar front)
    (note : Option (Run (· != '\n'))) (broken : List Broken) (e : Ending) :
    List.Forall₂ Code (listLines front note broken e) (listLines front none broken e) := by
  induction broken generalizing front with
  | nil =>
    have hcode : AllIn isCodeChar (front ++ e.text) :=
      hfront.append (e.allIn.mono isCodeChar_of_isListChar)
    exact .cons (by simpa [noteText] using Code.of_note hcode note) .nil
  -- the comment can only stand behind the last line, the others end in a backslash
  | cons b bs ih =>
    have hcode : AllIn isCodeChar (front ++ b.text ++ ['\\']) :=
      (hfront.append (b.allIn.mono isCodeChar_of_isListChar)).append (.of_all (by decide))
    exact .cons (.of_plain hcode) (ih (.of_all rfl))

/-- Every line of a row is its code with a comment behind it. -/
theorem Row.forall₂_lines (row : Row) : List.Forall₂ Code row.lines row.codes := by
  cases row with
  | statement indent space broken ending note =>
    -- the characters of the front of the first line are those of an indent, a keyword and a gap
    have hindent : AllIn isCodeChar indent.1 := fun c hc =>
      isCodeChar_of_isListChar c (by simp [isListChar, isGapChar_of_isIndentChar c (indent.2 c hc)])
    have hspace : AllIn isCodeChar space.chars := fun c hc =>
      isCodeChar_of_isListChar c (by simp [isListChar, space.allowed c hc])
    exact forall₂_listLines (hindent.append (AllIn.append (.of_all (by decide)) hspace)) _ _ _
  | other code note h => exact .cons (Code.of_note code.2 note) .nil

/-- A row is read by itself. -/
theorem Row.gives (row : Row) (hxs : List.Forall₂ Code xs row.codes) :
    Gives n xs (row.records n) := by
  cases row with
  | statement indent space broken ending note =>
    obtain ⟨text, hjoined, hruns⟩ := exists_runs_list indent space broken ending hxs
    exact .of_statement hruns (hjoined.readStatement indent.2)
  | other code note h =>
    obtain ⟨x, hx, rfl⟩ : ∃ x, Code x code.1 ∧ xs = [x] := by
      simpa [Row.codes, List.forall₂_cons_right_iff] using hxs
    exact ⟨_, [], .cons (readLine_other hx h) (.nil _ _), rfl, rfl⟩

/-- A row after the other, the reader gives the records of the rows, each with the line it begins
on. -/
theorem gives_rows (rows : List Row) (hxs : List.Forall₂ Code xs (rows.flatMap Row.codes)) :
    Gives n xs (recordsFrom n rows) := by
  induction rows generalizing n xs with
  | nil => rw [List.forall₂_nil_right_iff.mp hxs]; exact .nil n
  | cons row rows ih =>
    -- the lines of the first row leave nothing open, so the others are read on their own
    rw [List.flatMap_cons] at hxs
    have htake := List.forall₂_take_append _ _ _ hxs
    have hdrop := List.forall₂_drop_append _ _ _ hxs
    have hlength : (xs.take row.codes.length).length = row.lines.length := by
      rw [htake.length_eq, row.forall₂_lines.length_eq]
    have hgives := (row.gives (n := n) htake).append (by rw [hlength]; exact ih hdrop)
    rwa [List.take_append_drop] at hgives

/-- The last line of a statement. -/
theorem exists_listLines (front : List Char) (note : Option (Run (· != '\n')))
    (broken : List Broken)
    (e : Ending) : ∃ ls front', listLines front note broken e =
      ls ++ [front' ++ e.text ++ noteText note] := by
  induction broken generalizing front with
  | nil => exact ⟨[], front, rfl⟩
  | cons b bs ih =>
    obtain ⟨ls, front', h⟩ := ih []
    exact ⟨_ :: ls, front', by rw [listLines, h, List.cons_append]⟩

/-- Only a row that is empty ends with an empty line. -/
theorem Row.eq_of_getLast? {row : Row} (h : row.lines.getLast? = some []) :
    row.lines = [[]] ∧ ∀ n, row.records n = [] := by
  cases row with
  | statement indent space broken ending note =>
    obtain ⟨ls, front', hlines⟩ := exists_listLines
      (indent.1 ++ ("import".toList ++ space.chars)) note broken ending
    rw [Row.lines, hlines, List.getLast?_concat, Option.some.injEq] at h
    have hnil : ending.text = [] := by simpa using (List.append_eq_nil_iff.mp
      (List.append_eq_nil_iff.mp h).1).2
    exact absurd (by rw [hnil]; rfl) ending.trim_ne_nil
  | other code note _ => exact ⟨by simpa [Row.lines] using h, fun _ => rfl⟩

/-- A row without records behind the others adds nothing. An empty last line is such a row. -/
theorem recordsFrom_concat (rows : List Row) (row : Row) (h : ∀ n, row.records n = []) :
    recordsFrom n (rows ++ [row]) = recordsFrom n rows := by
  induction rows generalizing n with
  | nil => simp [recordsFrom, h]
  | cons row' rows ih => rw [List.cons_append, recordsFrom, recordsFrom, ih]

/-- The lines of a file against their codes. -/
theorem forall₂_rows (rows : List Row) :
    List.Forall₂ Code (rows.flatMap Row.lines) (rows.flatMap Row.codes) :=
  List.rel_flatMap (R := Eq) (by simp) fun _ _ h => h ▸ Row.forall₂_lines _

/-- A file is read row by row, and each of its statements where it begins. -/
theorem extract_importLines (skipConditional : Bool) (rows : List Row) :
    extract skipConditional (fileText rows) =
      .ok ((records rows).filter fun r => !(skipConditional && r.conditional)) := by
  refine Gives.extract ?_ skipConditional
  cases rows using List.reverseRecOn with
  | nil => exact .nil 1
  | append_singleton rows row =>
    -- an empty last line is not read: the line end before it is the one at the end of the file
    by_cases hlast : row.lines.getLast? = some []
    · obtain ⟨hlines, hnone⟩ := Row.eq_of_getLast? hlast
      have htext : fileText (rows ++ [row]) =
          Text.join ['\n'] (rows.flatMap Row.lines ++ [[]]) := by simp [fileText, hlines]
      rw [records, recordsFrom_concat rows row hnone, htext]
      by_cases hnil : rows.flatMap Row.lines = []
      · have hcodes := forall₂_rows rows
        rw [hnil] at hcodes ⊢
        exact gives_rows rows hcodes
      · exact gives_rows rows (forall₂_lines_concat (forall₂_rows rows) hnil)
    · refine gives_rows _ (forall₂_lines (forall₂_rows _) fun h => hlast ?_)
      have hne : row.lines ≠ [] := by
        cases row with
        | statement indent space broken ending note => cases broken <;> simp [Row.lines, listLines]
        | other code note _ => simp [Row.lines]
      rwa [List.flatMap_append, List.flatMap_singleton, List.getLast?_append_of_ne_nil _ hne] at h

/-- A statement of two modules on two lines, a line of other code, and a statement with an
indent. -/
def fourRows : List Row :=
  let a : Word := ⟨['a'], by decide⟩
  let b : Word := ⟨"b_1".toList, by decide⟩
  let gap : Run isGapChar := .single ' ' (by decide)
  let first : Part := ⟨.empty _, ⟨[a, b], List.cons_ne_nil _ _, some ⟨['c'], by decide⟩⟩, .empty _⟩
  let second : Part := ⟨gap, ⟨[b], List.cons_ne_nil _ _, none⟩, gap⟩
  [.statement (.empty _) (.single ' ' (by decide)) [⟨[first], .empty _⟩] ⟨[], second⟩
      (some ⟨" import d".toList, by decide⟩),
    .other ⟨"x = 1 ".toList, by decide⟩ (some ⟨" one".toList, by decide⟩) (by decide),
    .statement ⟨['\t'], by decide⟩ (.single ' ' (by decide)) []
      ⟨[], ⟨.empty _, ⟨[a], List.cons_ne_nil _ _, none⟩, .empty _⟩⟩ none,
    .other (.empty _) none (by decide)]

/-- The modules of a statement are on the line on which it begins, and what a comment says is no
module. The indented statement is the one that is left out. -/
theorem extract_importLines_of_four :
    let text := "import a.b_1 as c,\\\n b_1 # import d\nx = 1 # one\n\timport a\n".toList
    let unconditional : List ImportRecord :=
      [{ path := ["a", "b_1"], rename := some "c", line := 1 }, { path := ["b_1"], line := 1 }]
    extract false text =
        .ok (unconditional ++ [{ path := ["a"], conditional := true, line := 4 }]) ∧
      extract true text = .ok unconditional := by
  intro text unconditional
  have htext : fileText fourRows = text := by decide +kernel
  have hall := extract_importLines false fourRows
  have hsome := extract_importLines true fourRows
  rw [htext] at hall hsome
  exact ⟨hall, hsome⟩

/-- A sign that is written with a letter and is none itself does not belong to a word: a module
whose name needs one is rejected. -/
theorem extract_vowelSign :
    extract false "import हिन्दी\n".toList = .error (.invalid 1 "bad module \"हिन्दी\"") ∧
      extract false "import हिन्दी\n".toList ≠ .ok [{ path := ["हिन्दी"], line := 1 }] := by
  have hextract : extract false "import हिन्दी\n".toList =
      .error (.invalid 1 "bad module \"हिन्दी\"") := by
    decide +kernel
  exact ⟨hextract, fun heq => nomatch hextract.symm.trans heq⟩

end ImportAtlas.Source.Python
