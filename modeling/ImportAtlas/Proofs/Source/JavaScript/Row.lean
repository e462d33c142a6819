import ImportAtlas.Proofs.Source.JavaScript.Clause
import ImportAtlas.Proofs.Source.JavaScript.Code
import ImportAtlas.Proofs.Source.JavaScript.Match

/-!
# Statements at the beginning of a line

What is matched by the patterns that ask for the beginning of a line, where a row begins.

* `Kind` — the kinds of statements, one for each pattern; `Row.written?` — the statement of a row;
* `Fits` — a match has read a statement, whole and with its clause;
* `fits_of_mem_sideEffect`, `fits_of_head?_staticImport`, `fits_of_head?_reExport` — such a match
  reads the statement of its row, which is of the kind of the pattern.
-/

namespace ImportAtlas.Source.JavaScript

open Pattern

/-! ### Kinds of statements -/

/-- The kinds of statements, one for each pattern. -/
inductive Kind where
  | static
  | reExport
  | bare
  | require
  | dynamic
deriving DecidableEq, Repr

namespace Kind

/-- The pattern that looks for statements of a kind. -/
def pattern : Kind → Pattern
  | static => staticImport
  | reExport => JavaScript.reExport
  | bare => sideEffect
  | require => callOf "require"
  | dynamic => callOf "import"

/-- The first character of a statement. -/
def first : Kind → Char
  | static | bare => 'i'
  | reExport => 'e'
  | require | dynamic => 'c'

/-- The last character before the specifier that is no blank. -/
def last : Kind → Char
  | static | reExport => 'm'
  | bare => 't'
  | require | dynamic => '('

end Kind

namespace Form

/-- The kind of a form. -/
def kind : Form → Kind
  | default .. | taken .. => .static
  | exportAll | exportTaken _ => .reExport
  | bare => .bare
  | require _ => .require
  | dynamic _ => .dynamic

/-- A statement begins with the first letter of its keyword. -/
theorem head_first (f : Form) : ∃ r, f.head = f.kind.first :: r := by
  have hbefore : f.before.toList.head? = some f.kind.first := by
    cases f with
    | taken typed what => cases typed <;> simp [before, kind, Kind.first]
    | _ => simp [before, kind, Kind.first]
  obtain ⟨r, h⟩ := List.head?_eq_some_iff.mp hbefore
  exact ⟨r ++ f.middle ++ f.after.toList, by rw [head, h]; rfl⟩

/-- The last letter before its specifier, blanks aside, is that of its kind too. -/
theorem head_last (f : Form) : ∃ r b, Text.Blanks b ∧ f.head = r ++ f.kind.last :: b := by
  have hafter : ∀ r b, f.after.toList = r ++ f.kind.last :: b →
      f.head = (f.before.toList ++ f.middle ++ r) ++ f.kind.last :: b := by
    intro r b h
    rw [head, h, ← List.append_assoc]
  -- the kind of a form tells what its head ends in, but for a blank
  cases f with
  | bare => exact ⟨"impor".toList, [' '], .space, rfl⟩
  | default | taken | exportAll | exportTaken =>
    exact ⟨_, [' '], .space, hafter " fro".toList [' '] (by simp [after, kind, Kind.last])⟩
  | require =>
    exact ⟨_, [], .nil, hafter " = require".toList [] (by simp [after, kind, Kind.last])⟩
  | dynamic =>
    exact ⟨_, [], .nil, hafter " = await import".toList [] (by simp [after, kind, Kind.last])⟩

end Form

/-! ### Rows -/

/-- The statement of a row, with what stands before it. -/
def Row.written? : Row → Option (Run isIndentChar × Statement)
  | statement indent s => some (indent, s)
  | blank _ | comment _ _ => none

/-- The code of a row with a statement. -/
theorem Row.code_of_written {row : Row} {indent : Run isIndentChar} {s : Statement}
    (h : row.written? = some (indent, s)) : row.code = indent.1 ++ s.text := by
  cases row with
  | statement i s' =>
    obtain ⟨rfl, rfl⟩ : i = indent ∧ s' = s := by simpa [Row.written?] using h
    rfl
  | blank | comment => simp [Row.written?] at h

/-- The code of any other row is blank. -/
theorem Row.gap_of_not_written {row : Row} (h : row.written? = none) :
    AllIn isGapChar row.code := by
  cases row with
  | statement => simp [Row.written?] at h
  | blank blanks => exact blanks.2
  | comment indent note =>
    -- a comment is an indent and blanks in the place of its characters
    refine AllIn.append indent.2 fun c hc => ?_
    simp only [List.mem_cons, List.mem_flatMap] at hc
    rcases hc with rfl | rfl | ⟨d, -, hd⟩
    · decide
    · decide
    · rw [mem_blanksFor hd]
      decide

/-- The first character of a row behind its indentation, if it is no blank, begins a statement. -/
theorem written_of_indented {row : Row} {rows : List Row} {i x : List Char} {c : Char}
    (hi : AllIn isIndentChar i) (hc : Text.isBlank c = false)
    (h : row.code ++ codeAfter rows = i ++ c :: x) :
    ∃ indent s, row.written? = some (indent, s) ∧ i = indent.1 ∧ c = s.form.kind.first ∧
      s.text ++ codeAfter rows = c :: x := by
  have hindent : ∀ {d}, isIndentChar d → Text.isBlank d := fun hd =>
    isBlank_of_isGapChar (isGapChar_of_isIndentChar _ hd)
  have hmark : ∀ {d}, Text.isBlank d = false → ¬ isIndentChar d := fun hd hd' => by
    simp [hindent hd'] at hd
  cases hrow : row.written? with
  | some w =>
    obtain ⟨indent, s⟩ := w
    obtain ⟨r, hr⟩ := s.form.head_first
    have hfirst : ¬ isIndentChar s.form.kind.first := by cases s.form.kind <;> decide
    rw [Row.code_of_written hrow, Statement.text, hr] at h
    have hsplit : i ++ c :: x = indent.1 ++ s.form.kind.first ::
        (r ++ '\'' :: (s.specifier.chars ++ '\'' :: s.form.tail) ++ codeAfter rows) := by
      simpa using h.symm
    obtain ⟨rfl, rfl, rfl⟩ := Text.append_cons_inj (P := fun d => ¬ isIndentChar d) hsplit
      (fun d hd hn => hn (hi d hd)) (hmark hc) (fun d hd hn => hn (indent.2 d hd)) hfirst
    exact ⟨indent, s, rfl, rfl, rfl, by simp [Statement.text, hr]⟩
  | none =>
    -- the row has nothing but blanks, and behind it there is at most the end of the line
    have hgap := Row.gap_of_not_written hrow
    have hblank : c ∉ row.code := fun hmem => by
      simp [isBlank_of_isGapChar (hgap c hmem)] at hc
    have hafter : ∀ m, (∀ d ∈ m, isIndentChar d) → codeAfter rows ≠ m ++ c :: x := by
      intro m hm heq
      rcases after_cases Row.code rows with hnil | ⟨r, hr⟩
      · rw [codeAfter, hnil] at heq
        simp at heq
      · rw [codeAfter, hr] at heq
        cases m with
        | nil =>
          obtain ⟨rfl, -⟩ := List.cons.inj heq
          exact absurd hc (by decide)
        | cons d m =>
          obtain ⟨rfl, -⟩ := List.cons.inj heq
          exact absurd (hm _ (.head _)) (by decide)
    rcases List.append_eq_append_iff.mp h with ⟨m, rfl, hm⟩ | ⟨m, hm, hcm⟩
    · exact absurd hm (hafter m fun d hd => hi d (List.mem_append_right _ hd))
    · cases m with
      | nil => exact absurd hcm.symm (hafter [] (by simp))
      | cons d m =>
        obtain ⟨rfl, -⟩ := List.cons.inj hcm
        exact absurd (by simp [hm]) hblank

/-! ### Imports without a clause -/

section

variable {n : Nat} {e : Place} {before : Option Char} {offset : Nat} {row : Row} {rows : List Row}
  {indent : Run isIndentChar} {s : Statement} {rest : List Char}

/-- A match that ends behind `matched` and has read a statement. -/
structure Fits (e : Place) (offset : Nat) (matched : List Char) (s : Statement) : Prop where
  offset : e.offset = offset + matched.length
  specifier : e.group "spec" = s.specifier.chars
  clause : Text.trim (e.group "clause") = s.form.clause

/-- There is no quote before the specifier. -/
theorem NoQuote.of_allIn_head {t : List Char} (h : AllIn isHeadChar t) : NoQuote t := by
  intro c hc hquote
  simp only [isQuote, Bool.or_eq_true, beq_iff_eq] at hquote
  rcases hquote with rfl | rfl <;> exact absurd (h _ hc) (by decide)

/-- There is no quote in a specifier, so it ends at the quote behind it. -/
theorem Specifier.noQuote (s : Specifier) : NoQuote s.chars := by
  intro c hc hquote
  simpa [isSpecifierChar, hquote] using s.allowed c hc

/-- There is no blank in a specifier, so trimming leaves it. -/
theorem Specifier.not_isBlank (s : Specifier) : ∀ c ∈ s.chars, Text.isBlank c = false := by
  intro c hc
  have hallowed := s.allowed c hc
  simp only [isSpecifierChar, Bool.not_eq_true', Bool.or_eq_false_iff] at hallowed
  exact hallowed.2

/-- The first quotes from the beginning of a statement on are those of its specifier. -/
theorem quoting_statement (indent : Run isIndentChar) (s : Statement) (rest : List Char) :
    Quoting (indent.1 ++ s.text ++ rest) (indent.1 ++ s.form.head) s.specifier.chars
      (s.form.tail ++ rest) where
  eq := by simp [Statement.text]
  head := .of_allIn_head ((allIn_indent indent).append s.form.allIn_head)
  spec := s.specifier.noQuote

/-- What stands before a specifier ends, blanks aside, as statements of its kind do. -/
theorem last_of_head {g b : List Char} {c : Char} {f : Form} (hc : Text.isBlank c = false)
    (hb : Text.Blanks b) (h : g ++ c :: b = indent.1 ++ f.head) : c = f.kind.last := by
  obtain ⟨r, b', hb', hr⟩ := f.head_last
  have hlast : Text.isBlank f.kind.last = false := by cases f.kind <;> decide
  have heq : g ++ c :: b = (indent.1 ++ r) ++ f.kind.last :: b' := by
    rw [h, hr, List.append_assoc]
  exact (Text.append_cons_inj_last (P := fun c => Text.isBlank c = false) heq
    (fun d hd => by simp [hb d hd]) hc (fun d hd => by simp [hb' d hd]) hlast).2.1

/-- The kinds without a clause. -/
theorem Form.clause_of_not_clause (f : Form)
    (h : f.kind = .bare ∨ f.kind = .require ∨ f.kind = .dynamic) : f.clause = [] := by
  cases f <;> first | rfl | simp [kind] at h

/-- Imports without names by their first and last letters. -/
theorem eq_bare_of_first_of_last {k : Kind} (hfirst : 'i' = k.first) (hlast : 't' = k.last) :
    k = .bare := by
  cases k <;> first | rfl | exact absurd hfirst (by decide) | exact absurd hlast (by decide)

/-- What the pattern finds at the beginning of a row is an import without names in that row. The
letters before the first quote tell its kind. -/
theorem fits_of_mem_sideEffect
    (h : e ∈ ends n sideEffect ⟨before, offset, row.code ++ codeAfter rows, []⟩) :
    ∃ indent s, row.written? = some (indent, s) ∧ s.form.kind = .bare ∧
      Fits e offset (indent.1 ++ s.form.head ++ '\'' :: (s.specifier.chars ++ ['\''])) s := by
  obtain ⟨-, a, ha, spec, hread, hgroup⟩ := read_of_mem_sideEffect h
  obtain ⟨i, b, hi, hb, rfl⟩ := mem_bareText.mp ha
  obtain ⟨c, d, -, -, hrest⟩ := hread.quotes
  have hstart : row.code ++ codeAfter rows = i ++ 'i' ::
      ("mport".toList ++ b ++ c :: (spec ++ d :: e.rest)) := by
    simpa using hrest
  obtain ⟨indent, s, hrow, rfl, hfirst, -⟩ := written_of_indented hi (by decide) hstart
  have hquoting := quoting_statement indent s (codeAfter rows)
  rw [← Row.code_of_written hrow] at hquoting
  obtain ⟨hhead, rfl, -⟩ := hread.eq_of_quoting (noQuote_bareText ha) hquoting
  -- the last character before the quote tells this import from one with a clause
  have hend : (indent.1 ++ "impor".toList) ++ 't' :: b = indent.1 ++ s.form.head := by
    simpa using hhead
  have hkind := eq_bare_of_first_of_last hfirst (last_of_head (by decide) hb hend)
  refine ⟨indent, s, hrow, hkind, ?_, hread.specifier, ?_⟩
  · rw [hread.offset, hhead]
    simp
    omega
  · rw [hgroup, s.form.clause_of_not_clause (.inl hkind)]
    rfl

/-! ### Clauses -/

/-- The keyword of a statement with a clause. -/
def Kind.keyword : Kind → String
  | reExport => "export"
  | _ => "import"

/-- The word `type`, where it stands before the clause. -/
def Form.typeWord : Form → String
  | taken true _ => "type "
  | _ => ""

/-- A statement with a clause, written out. -/
theorem Form.head_of_clause (f : Form) (h : f.kind = .static ∨ f.kind = .reExport) :
    f.head = f.kind.keyword.toList ++ ' ' :: (f.typeWord.toList ++ (f.clause ++
      ' ' :: "from ".toList)) := by
  cases f with
  | taken typed what =>
    cases typed <;> simp [head, before, after, middle, kind, Kind.keyword, typeWord]
  | default | exportAll | exportTaken =>
    simp [head, before, after, middle, kind, Kind.keyword, typeWord]
  | bare | require | dynamic => simp [kind] at h

/-- A clause has no blanks around it. -/
theorem Form.solid_clause (f : Form) (h : f.kind = .static ∨ f.kind = .reExport) :
    Text.Solid f.clause := by
  cases f with
  | default d more =>
    cases more with
    | none => simpa [clause] using d.solid
    | some t => simpa [clause] using d.solid.append [',', ' '] t.solid
  | taken _ what | exportTaken what => exact what.solid
  | exportAll => exact .singleton (by decide)
  | bare | require | dynamic => simp [kind] at h

/-- What is taken begins with a brace or a star. -/
theorem Taken.text_first (w : Taken) : ∃ c r, w.text = c :: r ∧ (c = '{' ∨ c = '*') := by
  cases w with
  | list => exact ⟨'{', _, rfl, .inl rfl⟩
  | whole => exact ⟨'*', _, rfl, .inr rfl⟩

/-- Where the word `type` does not stand, it is not read. -/
theorem Form.clause_ne_type (f : Form) (h : f.kind = .static ∨ f.kind = .reExport)
    {b z w : List Char} (hne : b ≠ []) (hb : Text.Blanks b) :
    "type".toList ++ (b ++ z) ≠ f.clause ++ ' ' :: w := by
  intro heq
  have htaken : ∀ t : Taken, "type".toList ++ (b ++ z) ≠ t.text ++ ' ' :: w := by
    intro t ht
    obtain ⟨c, r, hc, hmark⟩ := t.text_first
    rw [hc] at ht
    obtain ⟨rfl, -⟩ := List.cons.inj ht
    exact absurd hmark (by decide)
  cases f with
  | default d more not_type =>
    -- the word before the first character that is in no name is the default import
    obtain ⟨c, r, hc, hrest⟩ : ∃ c r, isNameChar c = false ∧
        (default d more not_type).clause ++ ' ' :: w = d.chars ++ c :: r := by
      cases more with
      | none => exact ⟨' ', w, by decide, by simp [clause]⟩
      | some t => exact ⟨',', ' ' :: t.text ++ ' ' :: w, by decide, by simp [clause]⟩
    obtain ⟨c', b', rfl⟩ := List.exists_cons_of_ne_nil hne
    have hblank := isNameChar_of_isBlank (hb c' (.head _))
    have htype : ∀ a ∈ "type".toList, ¬ isNameChar a = false := by simp; decide
    have hname : ∀ a ∈ d.chars, ¬ isNameChar a = false := fun a ha => by simp [d.allowed a ha]
    exact not_type (Text.append_cons_inj (heq.trans hrest) htype hblank hname hc).1.symm
  | taken _ what | exportTaken what => exact htaken what heq
  | exportAll => exact absurd (List.cons.inj heq).1 (by decide)
  | bare | require | dynamic => simp [kind] at h

/-- The word `type` may be missing. -/
theorem Form.typeWord_cases (f : Form) : f.typeWord = "" ∨ f.typeWord = "type " := by
  cases f with
  | taken typed => cases typed <;> simp [typeWord]
  | _ => simp [typeWord]

/-- No blank stands in front of the clause but the one behind the keyword. -/
theorem eq_space_of_clause {f : Form} (h : f.kind = .static ∨ f.kind = .reExport)
    {b x y : List Char} (hne : b ≠ []) (hb : Text.Blanks b)
    (heq : b ++ x = ' ' :: (f.typeWord.toList ++ (f.clause ++ y))) :
    b = [' '] ∧ x = f.typeWord.toList ++ (f.clause ++ y) := by
  -- behind the blank stands something that is not blank
  obtain ⟨c, r, hc, hfirst⟩ : ∃ c r, Text.isBlank c = false ∧
      f.typeWord.toList ++ (f.clause ++ y) = c :: r := by
    obtain ⟨c, r, hclause, hc⟩ := (f.solid_clause h).head
    rcases f.typeWord_cases with hword | hword
    · exact ⟨c, r ++ y, hc, by simp [hword, hclause]⟩
    · exact ⟨'t', "ype ".toList ++ (f.clause ++ y), by decide, by simp [hword]⟩
  obtain ⟨d, b, rfl⟩ := List.exists_cons_of_ne_nil hne
  obtain ⟨rfl, hbehind⟩ := List.cons.inj heq
  cases b with
  | nil => exact ⟨rfl, hbehind⟩
  | cons d b =>
    obtain ⟨rfl, -⟩ := List.cons.inj (hbehind.trans hfirst)
    -- a second blank would be that
    simp [hb d (by simp)] at hc

/-- What is read as the clause is the clause, with blanks at its ends. -/
theorem trim_of_clause {f : Form} (h : f.kind = .static ∨ f.kind = .reExport)
    {ty cl b : List Char} (hmem : b ∈ fromText) (hty : ty ∈ typeText ∨ ty = [] ∧ f.typeWord = "")
    (heq : ty ++ (cl ++ b) = f.typeWord.toList ++ (f.clause ++ ' ' :: "from ".toList)) :
    Text.trim cl = f.clause := by
  obtain ⟨b, b', hb, hb', rfl⟩ := mem_fromText.mp hmem
  have hpad : Text.trim (f.clause ++ [' ']) = f.clause := by
    simpa using Text.trim_pad .nil (f.solid_clause h) .space
  -- the two words `from` end at the same place
  have hfrom : ty ++ (cl ++ b) = f.typeWord.toList ++ (f.clause ++ [' ']) := by
    have hlast : (ty ++ (cl ++ b)) ++ "fro".toList ++ 'm' :: b' =
        (f.typeWord.toList ++ (f.clause ++ [' '])) ++ "fro".toList ++ 'm' :: [' '] := by
      simpa using heq
    exact List.append_cancel_right (Text.append_cons_inj_last (P := fun c => Text.isBlank c = false)
      hlast (fun c hc => by simp [hb' c hc]) (by decide) (by simp [Text.isBlank]) (by decide)).1
  rcases hty with hty | ⟨rfl, hword⟩
  · obtain ⟨tb, hne, htb, rfl⟩ := mem_typeText.mp hty
    rcases f.typeWord_cases with hword | hword
    · refine absurd ?_ (f.clause_ne_type h (w := []) hne htb (z := cl ++ b))
      simpa [hword] using hfrom
    · have hbehind : tb ++ cl ++ b = [' '] ++ f.clause ++ [' '] := by simpa [hword] using hfrom
      rw [← Text.trim_between htb cl hb, hbehind, Text.trim_pad .space (f.solid_clause h) .space]
  · have hclause : cl ++ b = f.clause ++ [' '] := by simpa [hword] using hfrom
    have hcl : Text.trim (cl ++ b) = Text.trim cl := by simpa using Text.trim_between .nil cl hb
    rw [← hcl, hclause, hpad]

/-- A match whose clause has no quote in it reads the statement of its row. -/
theorem fits_of_clause {L : Language Char} {bl ty cl b spec : List Char}
    (hrow : row.written? = some (indent, s))
    (hform : s.form.kind = .static ∨ s.form.kind = .reExport) (hbl0 : bl ≠ [])
    (hbl : Text.Blanks bl) (hb : b ∈ fromText) (hcl : NoQuote cl) (hL : s.form.clause ∈ L)
    (hread : Read ⟨before, offset, row.code ++ codeAfter rows, []⟩ e
      ((indent.1 ++ (s.form.kind.keyword.toList ++ bl)) ++ (ty ++ (cl ++ b))) spec [])
    (hgroup : e.group "clause" = cl)
    (hty : ty ∈ typeText ∨ ty = [] ∧ ∀ ty' ∈ typeText, ∀ cl' ∈ L, ∀ b' ∈ fromText, ∀ s' r',
      s' ≠ [] → NoQuote s' → row.code ++ codeAfter rows ≠
        (indent.1 ++ (s.form.kind.keyword.toList ++ bl)) ++
          (ty' ++ (cl' ++ (b' ++ '\'' :: (s' ++ '\'' :: r'))))) :
    Fits e offset (indent.1 ++ s.form.head ++ '\'' :: (s.specifier.chars ++ ['\''])) s := by
  have hkeyword : NoQuote s.form.kind.keyword.toList := by
    cases s.form.kind <;> exact .of_all (by decide)
  have hty' : NoQuote ty := hty.elim noQuote_typeText fun ⟨hnil, _⟩ => by simp [NoQuote, hnil]
  have hquote : NoQuote ((indent.1 ++ (s.form.kind.keyword.toList ++ bl)) ++ (ty ++ (cl ++ b))) :=
    ((noQuote_of_blanks (blanks_of_indent indent.2)).append
      (hkeyword.append (noQuote_of_blanks hbl))).append
      (hty'.append (hcl.append (noQuote_fromText hb)))
  have hquoting := quoting_statement indent s (codeAfter rows)
  rw [← Row.code_of_written hrow] at hquoting
  obtain ⟨hhead, rfl, -⟩ := hread.eq_of_quoting hquote hquoting
  have hcut : bl ++ (ty ++ (cl ++ b)) =
      ' ' :: (s.form.typeWord.toList ++ (s.form.clause ++ ' ' :: "from ".toList)) := by
    rw [s.form.head_of_clause hform] at hhead
    simpa using hhead
  obtain ⟨rfl, hclause⟩ := eq_space_of_clause hform hbl0 hbl hcut
  have hword : ty ∈ typeText ∨ ty = [] ∧ s.form.typeWord = "" := by
    refine hty.imp_right fun ⟨hnil, hnone⟩ => ⟨hnil, ?_⟩
    -- the word `type` would be read as such
    refine s.form.typeWord_cases.resolve_right fun hword => ?_
    refine hnone "type ".toList (mem_typeText.mpr ⟨[' '], by simp, by decide, rfl⟩) _ hL
      " from ".toList (mem_fromText.mpr ⟨[' '], [' '], by decide, by decide, rfl⟩)
      s.specifier.chars (s.form.tail ++ codeAfter rows) s.specifier.ne_nil s.specifier.noQuote ?_
    rw [hquoting.eq, s.form.head_of_clause hform, hword]
    simp
  refine ⟨?_, hread.specifier, ?_⟩
  · rw [hread.offset, hhead]
    simp
    omega
  · rw [hgroup, trim_of_clause hform hb hword hclause]

/-- Imports with names by their first and last letters. -/
theorem eq_static_of_first_of_last {k : Kind} (hfirst : 'i' = k.first) (hlast : 'm' = k.last) :
    k = .static := by
  cases k <;> first | rfl | exact absurd hfirst (by decide) | exact absurd hlast (by decide)

theorem eq_reExport_of_first {k : Kind} (hfirst : 'e' = k.first) : k = .reExport := by
  cases k <;> first | rfl | exact absurd hfirst (by decide)

/-- A clause is one that the pattern of imports reads. -/
theorem Form.clause_mem_allOf (f : Form) : f.clause ∈ allOf fun c => !(isQuote c || c == ';') := by
  intro c hc
  have hhead := f.allIn_clause c hc
  by_contra hmark
  simp only [isQuote, Bool.not_eq_true', Bool.not_eq_false, Bool.or_eq_true, beq_iff_eq] at hmark
  rcases hmark with (rfl | rfl) | rfl <;> exact absurd hhead (by decide)

/-- What the pattern finds first at the beginning of a row is an import with names in that row. -/
theorem fits_of_head?_staticImport
    (h : (ends n staticImport ⟨before, offset, row.code ++ codeAfter rows, []⟩).head? = some e) :
    ∃ indent s, row.written? = some (indent, s) ∧ s.form.kind = .static ∧
      Fits e offset (indent.1 ++ s.form.head ++ '\'' :: (s.specifier.chars ++ ['\''])) s := by
  rw [ends_staticImport] at h
  obtain ⟨-, a, ha, ty, cl, hcl, b, hb, spec, hread, hgroup, hty⟩ :=
    read_of_head?_clause spans_run h
  obtain ⟨i, bl, hi, hbl0, hbl, rfl⟩ := mem_indentedText.mp ha
  obtain ⟨c, d, -, -, hrest⟩ := hread.quotes
  have hstart : row.code ++ codeAfter rows = i ++ 'i' ::
      ("mport".toList ++ bl ++ (ty ++ (cl ++ b)) ++ c :: (spec ++ d :: e.rest)) := by
    simpa using hrest
  obtain ⟨indent, s, hrow, rfl, hfirst, -⟩ := written_of_indented hi (by decide) hstart
  have hcl' : NoQuote cl := fun c hc hquote => by simpa [hquote] using hcl c hc
  -- the text before the quotes ends as that of an import with a clause does
  have hty' : NoQuote ty := hty.elim noQuote_typeText fun ⟨hnil, _⟩ => by simp [NoQuote, hnil]
  have hquote := (noQuote_indentedText (.of_all (by decide)) ha).append
    (hty'.append (hcl'.append (noQuote_fromText hb)))
  have hquoting := quoting_statement indent s (codeAfter rows)
  rw [← Row.code_of_written hrow] at hquoting
  have hhead := (hread.eq_of_quoting hquote hquoting).1
  obtain ⟨b₁, b₂, -, hb₂, rfl⟩ := mem_fromText.mp hb
  have hend : (indent.1 ++ ("import".toList ++ bl) ++ (ty ++ (cl ++ (b₁ ++ "fro".toList)))) ++
      'm' :: b₂ = indent.1 ++ s.form.head := by
    simpa using hhead
  have hkind := eq_static_of_first_of_last hfirst (last_of_head (by decide) hb₂ hend)
  have hkeyword : s.form.kind.keyword = "import" := by rw [hkind]; rfl
  rw [← hkeyword] at hread hty
  exact ⟨indent, s, hrow, hkind,
    fits_of_clause hrow (.inl hkind) hbl0 hbl hb hcl' s.form.clause_mem_allOf hread hgroup hty⟩

/-- The clause of a re-export has no quote in it. -/
theorem noQuote_of_exportText {f : Form} (hform : f.kind = .reExport) {cl x y : List Char}
    (hcl : cl ∈ exportText) (heq : cl ++ x = f.clause ++ y) : NoQuote cl := by
  rcases mem_exportText.mp hcl with rfl | ⟨b, b', w, -, hb, -, hb', -, hw, rfl⟩ | ⟨w, hw, rfl⟩
  · exact .of_all (by decide)
  · have hw' : NoQuote w := fun c hc hquote => by
      have hword := hw c hc
      simp only [isQuote, Bool.or_eq_true, beq_iff_eq] at hquote
      rcases hquote with rfl | rfl <;> exact absurd hword (by decide)
    exact NoQuote.append (t := ['*']) (.of_all (by decide)) ((noQuote_of_blanks hb).append
      (NoQuote.append (.of_all (by decide)) ((noQuote_of_blanks hb').append hw')))
  · cases f with
    | exportTaken what =>
      cases what with
      | list es =>
        -- both texts end at the first closing brace
        have hlist := allIn_list es
        have hsplit : w ++ '\x7d' :: x = Text.join [','] (es.map Entry.text) ++ '\x7d' :: y := by
          simpa [Form.clause, Taken.text_list] using heq
        obtain ⟨rfl, -⟩ := Text.append_cons_inj (P := (· = '\x7d')) hsplit
          (fun c hc heq => hw (heq ▸ hc)) rfl
          (fun c hc heq => hlist.not_mem (by decide) (heq ▸ hc)) rfl
        exact NoQuote.append (t := ['{']) (.of_all (by decide)) ((NoQuote.of_allIn_head
          (hlist.mono isHeadChar_of_isListChar)).append (.of_all (by decide)))
      | whole => simp [Form.clause, Taken.text_whole] at heq
    | exportAll => simp [Form.clause] at heq
    | _ => simp [Form.kind] at hform

/-- The clause of a re-export is one that its pattern reads. -/
theorem clause_mem_exportText {f : Form} (hform : f.kind = .reExport) : f.clause ∈ exportText := by
  cases f with
  | exportAll => exact mem_exportText.mpr (.inl rfl)
  | exportTaken what =>
    cases what with
    | list es =>
      exact mem_exportText.mpr (.inr (.inr ⟨_, (allIn_list es).not_mem (by decide), rfl⟩))
    | whole w =>
      exact mem_exportText.mpr (.inr (.inl ⟨[' '], [' '], w.chars, by simp, by decide, by simp,
        by decide, w.ne_nil, fun c hc => isWord_of_isNameChar (w.allowed c hc), rfl⟩))
  | _ => simp [Form.kind] at hform

/-- What the pattern of exports finds first at the beginning of a row is an export from another
module in that row. -/
theorem fits_of_head?_reExport
    (h : (ends n reExport ⟨before, offset, row.code ++ codeAfter rows, []⟩).head? = some e) :
    ∃ indent s, row.written? = some (indent, s) ∧ s.form.kind = .reExport ∧
      Fits e offset (indent.1 ++ s.form.head ++ '\'' :: (s.specifier.chars ++ ['\''])) s := by
  rw [ends_reExport] at h
  obtain ⟨-, a, ha, ty, cl, hcl, b, hb, spec, hread, hgroup, hty⟩ :=
    read_of_head?_clause spans_exportClause h
  obtain ⟨i, bl, hi, hbl0, hbl, rfl⟩ := mem_indentedText.mp ha
  obtain ⟨c, d, -, -, hrest⟩ := hread.quotes
  have hstart : row.code ++ codeAfter rows = i ++ 'e' ::
      ("xport".toList ++ bl ++ (ty ++ (cl ++ b)) ++ c :: (spec ++ d :: e.rest)) := by
    simpa using hrest
  obtain ⟨indent, s, hrow, rfl, hfirst, -⟩ := written_of_indented hi (by decide) hstart
  have hkind := eq_reExport_of_first hfirst
  have hkeyword : s.form.kind.keyword = "export" := by rw [hkind]; rfl
  -- the clause read may have quotes, so both texts are compared to their ends
  have hcut : bl ++ (ty ++ (cl ++ (b ++ c :: (spec ++ d :: e.rest)))) =
      ' ' :: (s.form.typeWord.toList ++ (s.form.clause ++ (' ' :: "from ".toList ++
        '\'' :: (s.specifier.chars ++ '\'' :: (s.form.tail ++ codeAfter rows))))) := by
    rw [Row.code_of_written hrow, Statement.text, s.form.head_of_clause (.inr hkind), hkeyword]
      at hrest
    simpa using hrest.symm
  obtain ⟨-, hclause⟩ := eq_space_of_clause (.inr hkind) hbl0 hbl hcut
  have hword : s.form.typeWord = "" := by
    cases hf : s.form with
    | taken => simp [hf, Form.kind] at hkind
    | _ => rfl
  rw [hword, String.toList_empty, List.nil_append] at hclause
  -- behind the keyword stands `*` or a brace, which no word `type` begins with
  have hnotype : ty ∉ typeText := fun hmem => by
    obtain ⟨tb, hne, htb, rfl⟩ := mem_typeText.mp hmem
    exact s.form.clause_ne_type (.inr hkind) hne htb (by simpa using hclause)
  have hnil : ty = [] := (hty.resolve_left hnotype).1
  have hcl' : NoQuote cl := by
    rw [hnil, List.nil_append] at hclause
    exact noQuote_of_exportText hkind hcl hclause
  rw [← hkeyword] at hread hty
  exact ⟨indent, s, hrow, hkind,
    fits_of_clause hrow (.inr hkind) hbl0 hbl hb hcl' (clause_mem_exportText hkind) hread hgroup
      hty⟩

end

end ImportAtlas.Source.JavaScript
