import ImportAtlas.Proofs.Source.JavaScript.Row

/-!
# What the patterns find in a row

A search finds the statements of its kind, and nothing in the other rows. Only a call can be found
that begins within a specifier: where that ends with `require(` or `import(` and the next one begins
with `)`.

* `found_of_mem_callOf`, `found_of_head?` — where a match begins in a row, and what it reads;
* `exists_mem_matched`, `exists_fits` — where a statement asks for it, a match reads it;
* `Statement.Apart` — no call reads from one specifier into the next;
* `ends_eq_nil_of_outside` — before the statement and behind it nothing is found;
* `findFrom_row_of_ne`, `exists_findFrom_row` — the search over a row.
-/

namespace ImportAtlas.Source.JavaScript

open Pattern

section

variable {n : Nat} {e : Place} {before : Option Char} {offset : Nat} {row : Row} {rows : List Row}
  {indent : Run isIndentChar} {s : Statement} {rest : List Char}

/-! ### Calls -/

/-- The statements of rows, in order. -/
def statements (rows : List Row) : List Statement :=
  rows.filterMap fun row => row.written?.map (·.2)

/-- The specifier ends with the beginning of a call. -/
def Specifier.OpensCall (name : String) (s : Specifier) : Prop :=
  ∃ x, s.chars = x ++ (name.toList ++ ['(']) ∧ ¬ x.getLast?.any Text.isWord

/-- The specifier begins with the end of a call. -/
def Specifier.ClosesCall (s : Specifier) : Prop :=
  ∃ r, s.chars = ')' :: r

/-- The function that a call is of. -/
def Kind.callee : Kind → String
  | require => "require"
  | _ => "import"

/-- The text in front of a call. -/
def Form.lead : Form → List Char
  | require w => "const ".toList ++ w.chars ++ " = ".toList
  | dynamic w => "const ".toList ++ w.chars ++ " = await ".toList
  | _ => []

theorem Form.lead_require (w : Ident) :
    (require w).lead = "const ".toList ++ w.chars ++ " = ".toList := rfl

theorem Form.lead_dynamic (w : Ident) :
    (dynamic w).lead = "const ".toList ++ w.chars ++ " = await ".toList := rfl

/-- The two kinds that are calls, which may stand anywhere in a line. -/
def Kind.IsCall (k : Kind) : Prop :=
  k = require ∨ k = dynamic

/-- A call has its name and a parenthesis at the end of its head. -/
theorem Form.head_of_call {f : Form} (h : f.kind.IsCall) :
    f.head = f.lead ++ (f.kind.callee.toList ++ ['(']) := by
  cases f with
  | require => simp [head, lead_require, before, middle, after, kind, Kind.callee]
  | dynamic => simp [head, lead_dynamic, before, middle, after, kind, Kind.callee]
  | _ => simp [kind, Kind.IsCall] at h

/-- Behind the specifier of a call stands the other parenthesis. -/
theorem Form.tail_of_call {f : Form} (h : f.kind.IsCall) : f.tail = [')', ';'] := by
  cases f with
  | require | dynamic => rfl
  | _ => simp [kind, Kind.IsCall] at h

/-- Behind a text without quotes the first quote is the same as from its beginning on. -/
theorem exists_of_append_noQuote {t w m y : List Char} {q : Char} (ht : NoQuote t) (hm : NoQuote m)
    (hq : isQuote q) (h : t ++ w = m ++ q :: y) : ∃ m', NoQuote m' ∧ w = m' ++ q :: y := by
  rcases List.append_eq_append_iff.mp h with ⟨m', rfl, hw⟩ | ⟨m', rfl, hm'⟩
  · exact ⟨m', fun c hc => hm c (List.mem_append_right _ hc), hw⟩
  · cases m' with
    | nil => exact ⟨[], by simp [NoQuote], hm'.symm⟩
    | cons c m' =>
      obtain ⟨rfl, -⟩ := List.cons.inj hm'
      exact absurd hq (ht q (by simp))

theorem Row.noQuote_of_not_written (h : row.written? = none) : NoQuote row.code :=
  noQuote_of_blanks fun c hc => isBlank_of_isGapChar (Row.gap_of_not_written h c hc)

/-- The first quote behind a row is that of the next statement. -/
theorem exists_next_of_quote {m y : List Char} {q : Char} (hm : NoQuote m) (hq : isQuote q)
    (h : codeAfter rows = m ++ q :: y) :
    ∃ t ∈ (statements rows).head?, ∃ z, y = t.specifier.chars ++ '\'' :: z := by
  induction rows generalizing m with
  | nil => simp [codeAfter] at h
  | cons row rows ih =>
    have hline : NoQuote ['\n'] := .of_all (by decide)
    rw [codeAfter, List.flatMap_cons, List.cons_append] at h
    obtain ⟨m, hm, h⟩ := exists_of_append_noQuote (t := ['\n']) hline hm hq h
    cases hrow : row.written? with
    | some w =>
      obtain ⟨indent, s⟩ := w
      have hquoting := quoting_statement indent s (codeAfter rows)
      rw [Row.code_of_written hrow] at h
      -- the first quote of the row is the one before its specifier
      obtain ⟨-, -, rfl⟩ := Text.append_cons_inj (h.symm.trans hquoting.eq) hm hq hquoting.head
        (d := '\'') (by decide)
      exact ⟨s, by simp [statements, hrow], _, rfl⟩
    | none =>
      -- a row without statement has no quote, so it is passed over
      obtain ⟨m, hm, h⟩ := exists_of_append_noQuote (Row.noQuote_of_not_written hrow) hm hq h
      obtain ⟨t, ht, hz⟩ := ih hm h
      exact ⟨t, by simpa [statements, hrow] using ht, hz⟩

/-- A match of a call begins with the name of the function. -/
theorem rest_of_mem_callOf {name : String} {p : Place} (h : e ∈ ends n (callOf name) p) :
    ∃ r, p.rest = name.toList ++ r := by
  obtain ⟨-, a, ha, spec, b, -, hread, -⟩ := read_of_mem_callOf h
  obtain ⟨c, d, -, -, hrest⟩ := hread.quotes
  obtain ⟨b₁, b₂, -, -, rfl⟩ := mem_callText.mp ha
  exact ⟨_, by simpa using hrest⟩

/-- Of a call in front of the first quotes, the place and the function are known. -/
theorem eq_lead_of_head {k : Kind} (hk : k.IsCall) {u b b' : List Char} (hb : Text.Blanks b)
    (hb' : Text.Blanks b')
    (h : u ++ (k.callee.toList ++ (b ++ '(' :: b')) = indent.1 ++ s.form.head) :
    s.form.kind = k ∧ u = indent.1 ++ s.form.lead ∧ b = [] ∧ b' = [] := by
  have hparen : (u ++ (k.callee.toList ++ b)) ++ '(' :: b' = indent.1 ++ s.form.head := by
    simpa using h
  have hkind : s.form.kind.IsCall := by
    have hlast := last_of_head (by decide) hb' hparen
    cases hkind : s.form.kind <;> simp [hkind, Kind.last] at hlast <;> simp [Kind.IsCall]
  -- without the parenthesis, both texts end with the name of a function
  have hhead : indent.1 ++ s.form.head =
      (indent.1 ++ s.form.lead ++ s.form.kind.callee.toList) ++ '(' :: [] := by
    simp [s.form.head_of_call hkind]
  have hnotblank : Text.isBlank '(' = false := by decide
  obtain ⟨hname, -, rfl⟩ := Text.append_cons_inj_last (P := fun c => Text.isBlank c = false)
    (hparen.trans hhead) (fun c hc => by simp [hb' c hc]) hnotblank (by simp) hnotblank
  have hends : ∀ k : Kind, k.IsCall → ∃ r c, k.callee.toList = r ++ [c] ∧
      Text.isBlank c = false ∧ c = if k = .require then 'e' else 't' := by
    rintro k (rfl | rfl)
    · exact ⟨"requir".toList, 'e', rfl, by decide, rfl⟩
    · exact ⟨"impor".toList, 't', rfl, by decide, rfl⟩
  obtain ⟨r, c, hr, hc, hck⟩ := hends k hk
  obtain ⟨r', c', hr', hc', hck'⟩ := hends _ hkind
  have hsplit : (u ++ r) ++ c :: b = (indent.1 ++ s.form.lead ++ r') ++ c' :: [] := by
    simpa [hr, hr'] using hname
  obtain ⟨-, hcc, rfl⟩ := Text.append_cons_inj_last (P := fun c => Text.isBlank c = false) hsplit
    (fun c hc => by simp [hb c hc]) hc (by simp) hc'
  have heq : s.form.kind = k := by
    rw [hck, hck'] at hcc
    rcases hk with rfl | rfl <;> rcases hkind with h | h <;> simp_all
  refine ⟨heq, ?_, rfl, rfl⟩
  rw [heq, List.append_nil] at hname
  exact List.append_cancel_right hname

theorem Kind.IsCall.noQuote_callee {k : Kind} (hk : k.IsCall) : NoQuote k.callee.toList := by
  rcases hk with rfl | rfl <;> exact .of_all (by decide)

/-- A match that begins before the specifier of a row is the call of its statement. -/
theorem fits_of_mem_callOf {k : Kind} (hk : k.IsCall) {u t : List Char}
    (hsplit : u ++ t = indent.1 ++ s.form.head)
    (h : e ∈ ends n (callOf k.callee) ⟨before, offset,
      t ++ '\'' :: (s.specifier.chars ++ '\'' :: (s.form.tail ++ rest)), []⟩) :
    s.form.kind = k ∧ u = indent.1 ++ s.form.lead ∧ Fits e offset
      (k.callee.toList ++ '(' :: '\'' :: (s.specifier.chars ++ ['\'', ')'])) s := by
  obtain ⟨-, a, ha, spec, b, hb, hread, hgroup⟩ := read_of_mem_callOf h
  obtain ⟨b₁, b₂, hb₁, hb₂, rfl⟩ := mem_callText.mp ha
  obtain ⟨bl, hbl, rfl⟩ := mem_closeText.mp hb
  have hhead : NoQuote (u ++ t) := by
    rw [hsplit]
    exact .of_allIn_head ((allIn_indent indent).append s.form.allIn_head)
  obtain ⟨rfl, rfl, htail⟩ := hread.eq_of_quoting (noQuote_callText hk.noQuote_callee ha)
    { eq := rfl
      head := fun c hc => hhead c (List.mem_append_right u hc)
      spec := s.specifier.noQuote }
  obtain ⟨hkind, hu, rfl, rfl⟩ := eq_lead_of_head hk hb₁ hb₂ hsplit
  -- no blank stands in front of the parenthesis
  rw [s.form.tail_of_call (hkind ▸ hk)] at htail
  obtain rfl : bl = [] := by
    cases bl with
    | nil => rfl
    | cons c bl =>
      obtain ⟨rfl, -⟩ := List.cons.inj htail
      exact absurd (hbl ')' (by simp)) (by decide)
  refine ⟨hkind, hu, ?_, hread.specifier, ?_⟩
  · rw [hread.offset]
    simp
    omega
  · rw [hgroup, s.form.clause_of_not_clause (.inr (hkind ▸ hk))]
    rfl

/-- A match that begins within the specifier of a row ends in the next specifier. -/
theorem calls_of_mem_callOf {k : Kind} (hk : k.IsCall) {x t : List Char}
    (hsplit : s.specifier.chars = x ++ t)
    (h : e ∈ ends n (callOf k.callee) ⟨('\'' :: x).getLast?, offset,
      t ++ '\'' :: (s.form.tail ++ codeAfter rows), []⟩) :
    s.specifier.OpensCall k.callee ∧ ∃ t ∈ (statements rows).head?, t.specifier.ClosesCall := by
  obtain ⟨hedge, a, ha, spec, b, hb, hread, -⟩ := read_of_mem_callOf h
  obtain ⟨c, d, hc, hd, hrest⟩ := hread.quotes
  obtain ⟨b₁, b₂, hb₁, hb₂, rfl⟩ := mem_callText.mp ha
  obtain ⟨bl, hbl, rfl⟩ := mem_closeText.mp hb
  have hspec : NoQuote t := fun c hc => s.specifier.noQuote c (by simp [hsplit, hc])
  obtain ⟨rfl, -, hbehind⟩ := Text.append_cons_inj hrest hspec (c := '\'') (by decide)
    (noQuote_callText hk.noQuote_callee ha) hc
  have hnone : ∀ b, Text.Blanks b → (∀ c ∈ b, c ∈ s.specifier.chars) → b = [] := by
    intro b hb hmem
    refine List.eq_nil_iff_forall_not_mem.mpr fun c hc => ?_
    simpa [hb c hc] using s.specifier.not_isBlank c (hmem c hc)
  obtain rfl := hnone b₁ hb₁ (by simp +contextual [hsplit])
  obtain rfl := hnone b₂ hb₂ (by simp +contextual [hsplit])
  refine ⟨⟨x, by simpa using hsplit, ?_⟩, ?_⟩
  · -- a word begins at the name, so that none ends there
    have hword : ('\'' :: x).getLast?.any Text.isWord = false := by
      have hr : Text.isWord 'r' = true := by decide
      have hi : Text.isWord 'i' = true := by decide
      rcases hk with rfl | rfl <;> simpa [Kind.callee, hr, hi] using hedge
    cases x with
    | nil => simp
    | cons c x => simpa [List.getLast?_cons_cons] using hword
  · -- the second quote is the one that opens the next specifier, behind which the call ends
    have htail : NoQuote s.form.tail := by
      rcases s.form.tail_eq with h | h <;> rw [h] <;> exact .of_all (by decide)
    obtain ⟨m, hm, hafter⟩ := exists_of_append_noQuote htail hread.noQuote hd hbehind
    obtain ⟨t, ht, z, hz⟩ := exists_next_of_quote hm hd hafter
    refine ⟨t, ht, ?_⟩
    obtain ⟨c, r, hchars⟩ := List.exists_cons_of_ne_nil t.specifier.ne_nil
    rw [hchars] at hz
    cases bl with
    | nil => exact ⟨r, by rw [hchars, ← (List.cons.inj hz).1]⟩
    | cons c' bl =>
      obtain ⟨rfl, -⟩ := List.cons.inj hz
      have hc := t.specifier.not_isBlank c' (by simp [hchars])
      simp [hbl c' (by simp)] at hc

/-! ### Statements in their rows -/

namespace Statement

/-- The text of a row in front of what the pattern of its statement matches. A statement at the
beginning of a line is matched with its indentation. -/
def leadText (indent : List Char) (s : Statement) : List Char :=
  match s.form.kind with
  | .require | .dynamic => indent ++ s.form.lead
  | _ => []

/-- What the pattern of a statement matches. -/
def matched (indent : List Char) (s : Statement) : List Char :=
  match s.form.kind with
  | .require | .dynamic =>
    s.form.kind.callee.toList ++ '(' :: '\'' :: (s.specifier.chars ++ ['\'', ')'])
  | _ => indent ++ s.form.head ++ '\'' :: (s.specifier.chars ++ ['\''])

/-- A kind is a call or one of the three that begin a line. -/
theorem isCall_cases (s : Statement) : s.form.kind.IsCall ∨
    s.form.kind = .static ∨ s.form.kind = .reExport ∨ s.form.kind = .bare := by
  cases s.form.kind <;> simp [Kind.IsCall]

/-- What stands before a call is not matched. -/
theorem leadText_of_call {s : Statement} (h : s.form.kind.IsCall) (indent : List Char) :
    s.leadText indent = indent ++ s.form.lead := by
  rcases h with h | h <;> simp [leadText, h]

/-- The match of a call goes from its name to the closing parenthesis. -/
theorem matched_of_call {s : Statement} (h : s.form.kind.IsCall) (indent : List Char) :
    s.matched indent =
      s.form.kind.callee.toList ++ '(' :: '\'' :: (s.specifier.chars ++ ['\'', ')']) := by
  rcases h with h | h <;> simp [matched, h]

/-- A row is what stands before the match, the match and a semicolon. -/
theorem code_eq (indent : List Char) (s : Statement) :
    indent ++ s.text = s.leadText indent ++ (s.matched indent ++ [';']) := by
  rcases s.isCall_cases with h | h
  · rw [leadText_of_call h, matched_of_call h, text, s.form.head_of_call h, s.form.tail_of_call h]
    simp
  · have htail : s.form.tail = [';'] := by
      cases hf : s.form <;> simp [hf, Form.kind] at h <;> rfl
    rcases h with h | h | h <;> simp [leadText, matched, h, text, htail]

/-- A match is not empty. -/
theorem matched_ne_nil (indent : List Char) (s : Statement) : s.matched indent ≠ [] := by
  rcases s.isCall_cases with h | h
  · rw [matched_of_call h]
    simp
  · rcases h with h | h | h <;> simp [matched, h]

end Statement

/-- The code of a row is one line. -/
theorem Row.newline_not_mem (row : Row) : '\n' ∉ row.code := by
  cases hrow : row.written? with
  | some w =>
    obtain ⟨indent, s⟩ := w
    have hspec : '\n' ∉ s.specifier.chars := fun h => by
      simpa [Text.isBlank] using s.specifier.not_isBlank _ h
    have hhead : '\n' ∉ s.form.head := s.form.allIn_head.not_mem (by decide)
    have hindent : '\n' ∉ indent.1 := fun h => absurd (indent.2 _ h) (by decide)
    have htail : '\n' ∉ s.form.tail := by rcases s.form.tail_eq with h | h <;> simp [h]
    simp [Row.code_of_written hrow, Statement.text, hspec, hhead, hindent, htail]
  | none => exact (Row.gap_of_not_written hrow).not_mem (by decide)

/-- A pattern of statements at the beginning of a line matches nowhere else. -/
theorem lineStart_of_mem {k : Kind} (hk : ¬ k.IsCall) {p : Place} (h : e ∈ ends n k.pattern p) :
    p.before = none ∨ p.before = some '\n' := by
  cases k with
  | static => 
    rw [Kind.pattern, ends_staticImport] at h
    exact (mem_ends_seq_lineStart.mp h).1
  | reExport =>
    rw [Kind.pattern, ends_reExport] at h
    exact (mem_ends_seq_lineStart.mp h).1
  | bare => exact (read_of_mem_sideEffect h).1
  | require | dynamic => simp [Kind.IsCall] at hk

theorem Kind.pattern_of_call {k : Kind} (hk : k.IsCall) : k.pattern = callOf k.callee := by
  rcases hk with rfl | rfl <;> rfl

/-- What a match that begins with a row reads, if it is none of a call. -/
theorem fits_of_head? {k : Kind} (hk : ¬ k.IsCall)
    (h : (ends n k.pattern ⟨before, offset, row.code ++ codeAfter rows, []⟩).head? = some e) :
    ∃ indent s, row.written? = some (indent, s) ∧ s.form.kind = k ∧ s.leadText indent.1 = [] ∧
      Fits e offset (s.matched indent.1) s := by
  cases k with
  | static =>
    obtain ⟨indent, s, hrow, hkind, hfits⟩ := fits_of_head?_staticImport h
    -- the patterns of these kinds match from the beginning of the line on
    exact ⟨indent, s, hrow, hkind, by simp [Statement.leadText, hkind],
      by simpa [Statement.matched, hkind] using hfits⟩
  | reExport =>
    obtain ⟨indent, s, hrow, hkind, hfits⟩ := fits_of_head?_reExport h
    exact ⟨indent, s, hrow, hkind, by simp [Statement.leadText, hkind],
      by simpa [Statement.matched, hkind] using hfits⟩
  | bare =>
    obtain ⟨indent, s, hrow, hkind, hfits⟩ := fits_of_mem_sideEffect (List.mem_of_mem_head? h)
    exact ⟨indent, s, hrow, hkind, by simp [Statement.leadText, hkind],
      by simpa [Statement.matched, hkind] using hfits⟩
  | require | dynamic => simp [Kind.IsCall] at hk

/-- No match begins at the end of a row. -/
theorem ends_codeAfter (k : Kind) : ends n k.pattern ⟨before, offset, codeAfter rows, []⟩ = [] := by
  rw [← List.head?_eq_none_iff, Option.eq_none_iff_forall_ne_some]
  intro e he
  by_cases hk : k.IsCall
  · rw [Kind.pattern_of_call hk] at he
    obtain ⟨r, hr⟩ := rest_of_mem_callOf (List.mem_of_mem_head? he)
    rcases after_cases Row.code rows with h | ⟨t, h⟩
    · rcases hk with rfl | rfl <;> simp [codeAfter, h, Kind.callee] at hr
    · rcases hk with rfl | rfl <;> simp [codeAfter, h, Kind.callee] at hr
  · -- a row without a statement could be in between
    let none : Row := .blank ⟨[], by simp⟩
    obtain ⟨_, _, hrow, -⟩ := fits_of_head? hk
      (show (ends n k.pattern ⟨before, offset, none.code ++ codeAfter rows, []⟩).head? =
        some e from he)
    simp [none, Row.written?] at hrow

/-- A pattern of calls matches in the specifier of a row only where the beginning of a call is, of
which the next specifier has the end. -/
structure Spills (k : Kind) (u indent : List Char) (s : Statement) (rows : List Row) : Prop where
  isCall : k.IsCall
  inside : ∃ x t, s.specifier.chars = x ++ t ∧ u = indent ++ s.form.head ++ '\'' :: x
  opens : s.specifier.OpensCall k.callee
  closes : ∃ t ∈ (statements rows).head?, t.specifier.ClosesCall

/-- Calls are told from each other by the first letter of the name. -/
theorem Kind.IsCall.head_callee {k : Kind} (hk : k.IsCall) {r v : List Char} {c : Char}
    (h : c :: v = k.callee.toList ++ r) : c = 'r' ∨ c = 'i' := by
  rcases hk with rfl | rfl
  · exact .inl (List.cons.inj h).1
  · exact .inr (List.cons.inj h).1

/-- Where a pattern of calls matches in a row with a statement, it matches the statement or spills
over its specifier. -/
theorem found_of_mem_callOf {k : Kind} (hk : k.IsCall) {u v : List Char} {c : Char}
    (hsplit : u ++ c :: v = (indent.1 ++ s.form.head) ++
      '\'' :: (s.specifier.chars ++ '\'' :: s.form.tail))
    (h : e ∈ ends n (callOf k.callee)
      ⟨u.getLast?.or before, offset, c :: v ++ codeAfter rows, []⟩) :
    s.form.kind = k ∧ u = s.leadText indent.1 ∧ Fits e offset (s.matched indent.1) s ∨
      Spills k u indent.1 s rows := by
  obtain ⟨r, hr⟩ := rest_of_mem_callOf h
  have hc : c = 'r' ∨ c = 'i' := hk.head_callee hr
  -- the match begins before the first quote, within the specifier or behind it
  rcases List.append_eq_append_iff.mp hsplit with ⟨t, ht, hv⟩ | ⟨t, rfl, hv⟩
  · refine .inl ?_
    rw [hv, List.append_assoc, List.cons_append, List.append_assoc, List.cons_append] at h
    obtain ⟨hkind, hu, hfits⟩ := fits_of_mem_callOf hk ht.symm h
    have hs : s.form.kind.IsCall := hkind ▸ hk
    exact ⟨hkind, by rw [hu, Statement.leadText_of_call hs],
      by rwa [Statement.matched_of_call hs, hkind]⟩
  · cases t with
    | nil =>
      obtain ⟨rfl, -⟩ := List.cons.inj hv
      exact absurd hc (by decide)
    | cons q x =>
      obtain ⟨rfl, hinside⟩ : '\'' = q ∧ s.specifier.chars ++ '\'' :: s.form.tail = x ++ c :: v :=
        List.cons.inj hv
      rcases List.append_eq_append_iff.mp hinside with ⟨t, rfl, hquote⟩ | ⟨t, ht, hv⟩
      · -- the quote and what stands behind it begin no call
        have htail : c ∈ '\'' :: s.form.tail := by simp [hquote]
        rcases s.form.tail_eq with heq | heq <;> rw [heq] at htail <;>
          rcases hc with rfl | rfl <;> exact absurd htail (by decide)
      · rw [hv] at h
        obtain ⟨hopens, hcloses⟩ :=
          calls_of_mem_callOf hk ht (by simpa [List.getLast?_cons] using h)
        exact .inr ⟨hk, ⟨x, t, ht, rfl⟩, hopens, hcloses⟩

/-- The other patterns match only where a row begins: they ask for the beginning of a line, and no
line ends within a row. -/
theorem eq_nil_of_mem {k : Kind} (hk : ¬ k.IsCall) {u v : List Char} (hcode : row.code = u ++ v)
    {t : List Char} (h : e ∈ ends n k.pattern ⟨u.getLast?.or before, offset, t, []⟩) : u = [] := by
  refine List.getLast?_eq_none_iff.mp (Option.eq_none_iff_forall_ne_some.mpr fun d hd => ?_)
  have hline := lineStart_of_mem hk h
  have hnewline : '\n' ∈ row.code := by
    rw [hcode]
    refine List.mem_append_left _ (List.mem_of_getLast? ?_)
    simpa [hd] using hline
  exact row.newline_not_mem hnewline

/-- Where a pattern matches in a row, it matches the statement of the row. -/
theorem found_of_head? {k : Kind} {u v : List Char} {c : Char}
    (hcode : row.code = u ++ c :: v)
    (h : (ends n k.pattern ⟨u.getLast?.or before, offset, c :: v ++ codeAfter rows, []⟩).head? =
      some e) :
    ∃ indent s, row.written? = some (indent, s) ∧
      (s.form.kind = k ∧ u = s.leadText indent.1 ∧ Fits e offset (s.matched indent.1) s ∨
        Spills k u indent.1 s rows) := by
  have hmem := List.mem_of_mem_head? h
  by_cases hk : k.IsCall
  · rw [Kind.pattern_of_call hk] at hmem
    cases hrow : row.written? with
    | none =>
      -- a row without a statement has blanks only
      obtain ⟨r, hr⟩ := rest_of_mem_callOf hmem
      have hgap := Row.gap_of_not_written hrow c (by simp [hcode])
      rcases hk.head_callee hr with rfl | rfl <;> exact absurd hgap (by decide)
    | some w =>
      obtain ⟨indent, s⟩ := w
      refine ⟨indent, s, rfl, found_of_mem_callOf hk ?_ hmem⟩
      rw [← hcode, Row.code_of_written hrow, Statement.text, List.append_assoc]
  · obtain rfl := eq_nil_of_mem hk hcode hmem
    rw [← List.nil_append (c :: v), ← hcode] at h
    obtain ⟨indent, s, hrow, hkind, hlead, hfits⟩ := fits_of_head? hk h
    exact ⟨indent, s, hrow, .inl ⟨hkind, hlead.symm, hfits⟩⟩

/-- In front of a call there is a blank. -/
theorem Form.lead_of_call {f : Form} (h : f.kind.IsCall) : ∃ r, f.lead = r ++ [' '] := by
  cases f with
  | require w => exact ⟨"const ".toList ++ w.chars ++ " =".toList, by simp [lead_require]⟩
  | dynamic w => exact ⟨"const ".toList ++ w.chars ++ " = await".toList, by simp [lead_dynamic]⟩
  | _ => simp [kind, Kind.IsCall] at h

/-- Where a call stands, a match of the pattern of calls begins. -/
theorem exists_mem_matched_of_call (indent : List Char) (hs : s.form.kind.IsCall)
    (rest : List Char) :
    ∃ e, e ∈ ends n s.form.kind.pattern
      ⟨(s.leadText indent).getLast?.or before, offset, s.matched indent ++ rest, []⟩ := by
  rw [Kind.pattern_of_call hs, s.leadText_of_call hs, s.matched_of_call hs]
  obtain ⟨r, hr⟩ := s.form.lead_of_call hs
  have hedge : Text.isWord ' ' ≠ s.form.kind.callee.toList.head?.any Text.isWord := by
    rcases hs with h | h <;> rw [h] <;> decide
  have htext : s.form.kind.callee.toList ++ '(' :: '\'' :: (s.specifier.chars ++ ['\'', ')']) ++
      rest = (s.form.kind.callee.toList ++ ([] ++ '(' :: [])) ++
        '\'' :: (s.specifier.chars ++ '\'' :: ([')'] ++ rest)) := by simp
  refine exists_mem_callOf ?_ (mem_callText.mpr ⟨[], [], .nil, .nil, rfl⟩) htext
    (mem_closeText.mpr ⟨[], .nil, rfl⟩) s.specifier.ne_nil s.specifier.noQuote
  -- the blank in front of the name is the edge of a word
  obtain ⟨c, name, hname⟩ := List.exists_cons_of_ne_nil
    (show s.form.kind.callee.toList ≠ [] from fun hnil => by
      rw [hnil] at hedge
      exact hedge (by decide))
  simpa [hr, hname] using hedge

/-- What the pattern of a clause reads, part by part. -/
theorem Statement.matched_of_clause (indent : List Char)
    (hs : s.form.kind = .static ∨ s.form.kind = .reExport) (rest : List Char) :
    s.matched indent ++ rest = (indent ++ (s.form.kind.keyword.toList ++ [' '])) ++
      (s.form.typeWord.toList ++
        (s.form.clause ++ (" from ".toList ++ '\'' :: (s.specifier.chars ++ '\'' :: rest)))) := by
  have hmatched : s.matched indent =
      indent ++ s.form.head ++ '\'' :: (s.specifier.chars ++ ['\'']) := by
    rcases hs with h | h <;> simp [matched, h]
  simp [hmatched, s.form.head_of_clause hs]

/-- Where a statement with a clause stands, a match of its pattern begins. -/
theorem exists_mem_matched_of_clause (indent : Run isIndentChar)
    (hs : s.form.kind = .static ∨ s.form.kind = .reExport)
    (hbefore : before = none ∨ before = some '\n') (rest : List Char) :
    ∃ e, e ∈ ends n s.form.kind.pattern
      ⟨(s.leadText indent.1).getLast?.or before, offset, s.matched indent.1 ++ rest, []⟩ := by
  have hlead : s.leadText indent.1 = [] := by
    rcases hs with h | h <;> simp [Statement.leadText, h]
  -- the keyword with the indent before it and a blank behind it
  have hindented : indent.1 ++ (s.form.kind.keyword.toList ++ [' ']) ∈
      indentedText s.form.kind.keyword :=
    mem_indentedText.mpr ⟨indent.1, [' '], indent.2, by simp, by decide, rfl⟩
  have hfrom : " from ".toList ∈ fromText :=
    mem_fromText.mpr ⟨[' '], [' '], by decide, by decide, rfl⟩
  have htype : s.form.typeWord.toList ∈ typeText ∨ s.form.typeWord.toList = [] := by
    rcases s.form.typeWord_cases with h | h
    · exact .inr (by simp [h])
    · exact .inl (mem_typeText.mpr ⟨[' '], by simp, by decide, by simp [h]⟩)
  -- the parts of the statement, one after the other, are those that the pattern asks for
  have hrest := s.matched_of_clause indent.1 hs rest
  rw [hlead]
  rcases hs with h | h
  · rw [h] at hrest hindented
    rw [h, Kind.pattern, ends_staticImport]
    exact exists_mem_clause spans_run hbefore hindented htype s.form.clause_mem_allOf hfrom hrest
      s.specifier.ne_nil s.specifier.noQuote
  · rw [h] at hrest hindented
    rw [h, Kind.pattern, ends_reExport]
    exact exists_mem_clause spans_exportClause hbefore hindented htype (clause_mem_exportText h)
      hfrom hrest s.specifier.ne_nil s.specifier.noQuote

/-- Where an import without a clause stands, a match of its pattern begins. -/
theorem exists_mem_matched_of_bare (indent : Run isIndentChar) (hs : s.form.kind = .bare)
    (hbefore : before = none ∨ before = some '\n') (rest : List Char) :
    ∃ e, e ∈ ends n s.form.kind.pattern
      ⟨(s.leadText indent.1).getLast?.or before, offset, s.matched indent.1 ++ rest, []⟩ := by
  have hhead : s.form.head = "import ".toList := by
    cases hf : s.form with
    | bare => rfl
    | _ => simp [hf, Form.kind] at hs
  -- keyword, blank and quoted specifier
  have htext : s.matched indent.1 ++ rest = (indent.1 ++ ("import".toList ++ [' '])) ++
      '\'' :: (s.specifier.chars ++ '\'' :: rest) := by
    simp [Statement.matched, hs, hhead]
  rw [hs, Kind.pattern]
  exact exists_mem_sideEffect (by simpa [Statement.leadText, hs] using hbefore)
    (mem_bareText.mpr ⟨indent.1, [' '], indent.2, by decide, rfl⟩) htext s.specifier.ne_nil
    s.specifier.noQuote

/-- Where a statement asks for it, a match of its pattern begins. -/
theorem exists_mem_matched (indent : Run isIndentChar) (s : Statement)
    (hbefore : before = none ∨ before = some '\n') (rest : List Char) :
    ∃ e, e ∈ ends n s.form.kind.pattern
      ⟨(s.leadText indent.1).getLast?.or before, offset, s.matched indent.1 ++ rest, []⟩ := by
  rcases s.isCall_cases with h | h | h | h
  · exact exists_mem_matched_of_call indent.1 h rest
  · exact exists_mem_matched_of_clause indent (.inl h) hbefore rest
  · exact exists_mem_matched_of_clause indent (.inr h) hbefore rest
  · exact exists_mem_matched_of_bare indent h hbefore rest

/-- Such a match begins within what the pattern of the statement matches. -/
theorem Spills.within {k : Kind} {u i : List Char} (h : Spills k u i s rows) :
    (s.leadText i).length < u.length ∧ u.length < (s.leadText i ++ s.matched i).length := by
  obtain ⟨x, t, hspec, rfl⟩ := h.inside
  have hcode := congrArg List.length (s.code_eq i)
  have hlead : (s.leadText i).length ≤ (i ++ s.form.head).length := by
    rcases s.isCall_cases with h | h
    · rw [s.leadText_of_call h, s.form.head_of_call h]
      simp
    · rcases h with h | h | h <;> simp [Statement.leadText, h]
  -- a quote stands behind the specifier, so the match ends behind it
  have htail : 1 ≤ s.form.tail.length := by rcases s.form.tail_eq with h | h <;> simp [h]
  simp [Statement.text, hspec] at hcode hlead ⊢
  omega

/-- The preferred match of a statement reads it. -/
theorem exists_fits (hrow : row.written? = some (indent, s))
    (hbefore : before = none ∨ before = some '\n') :
    ∃ e, (ends n s.form.kind.pattern ⟨(s.leadText indent.1).getLast?.or before, offset,
        s.matched indent.1 ++ ';' :: codeAfter rows, []⟩).head? = some e ∧
      Fits e offset (s.matched indent.1) s := by
  obtain ⟨e, he⟩ : ∃ e, (ends n s.form.kind.pattern
      ⟨(s.leadText indent.1).getLast?.or before, offset,
        s.matched indent.1 ++ ';' :: codeAfter rows, []⟩).head? = some e := by
    obtain ⟨e', he'⟩ := exists_mem_matched indent s hbefore (';' :: codeAfter rows)
    exact Option.ne_none_iff_exists'.mp (mt List.head?_eq_none_iff.mp (List.ne_nil_of_mem he'))
  refine ⟨e, he, ?_⟩
  obtain ⟨c, r, hc⟩ := List.exists_cons_of_ne_nil (s.matched_ne_nil indent.1)
  have hcode : row.code = s.leadText indent.1 ++ c :: (r ++ [';']) := by
    rw [Row.code_of_written hrow, s.code_eq, hc, List.cons_append]
  have hhead := he
  rw [hc, List.cons_append, show r ++ ';' :: codeAfter rows = r ++ [';'] ++ codeAfter rows by simp]
    at hhead
  -- what the pattern finds first fits the statement of the row, or it begins in a later one
  obtain ⟨indent', s', hrow', hfound⟩ := found_of_head? hcode hhead
  obtain ⟨rfl, rfl⟩ : indent = indent' ∧ s = s' := by simpa [hrow] using hrow'
  rcases hfound with ⟨-, -, hfits⟩ | hspills
  · exact hfits
  · -- a call that begins behind the matched text begins too late
    exact absurd hspills.within.1 (Nat.lt_irrefl _)

/-! ### Searching a row -/

/-- No pattern of calls reads from the specifier of `s` into that of `t`. A call is read whole, so
that no other one of the same function begins in it. -/
def Statement.Apart (s t : Statement) : Prop :=
  ∀ k : Kind, k.IsCall → s.form.kind ≠ k → s.specifier.OpensCall k.callee → ¬ t.specifier.ClosesCall

/-- What stands in a row is apart from the statement of the rows behind it. -/
def Row.Apart (row : Row) (rows : List Row) : Prop :=
  ∀ w ∈ row.written?, ∀ t ∈ (statements rows).head?, w.2.Apart t

/-- A match that begins at `offset` and has read a statement. -/
structure Reads (m : Found) (offset : Nat) (s : Statement) : Prop where
  offset : m.offset = offset
  specifier : m.finish.group "spec" = s.specifier.chars
  clause : Text.trim (m.finish.group "clause") = s.form.clause

/-- The search goes over a row whose statement is of another kind. -/
theorem findFrom_row_of_ne {k : Kind} {skip : Nat} (hapart : row.Apart rows)
    (hne : ∀ w ∈ row.written?, w.2.form.kind ≠ k) :
    findFrom n k.pattern before offset skip (row.code ++ codeAfter rows) =
      findFrom n k.pattern (row.code.getLast?.or before) (offset + row.code.length) skip
        (codeAfter rows) := by
  refine findFrom_skip row.code fun u c v hcode => ?_
  rw [← List.head?_eq_none_iff, Option.eq_none_iff_forall_ne_some]
  -- a match is the statement of the row, or it begins in its specifier, which is ruled out
  intro e he
  obtain ⟨indent, s, hrow, ⟨hkind, -⟩ | hspills⟩ := found_of_head? hcode he
  · exact hne _ hrow hkind
  · obtain ⟨t, ht, hcloses⟩ := hspills.closes
    exact hapart _ hrow t ht k hspills.isCall (hne _ hrow) hspills.opens hcloses

/-- The pattern of a statement matches nothing of its row before the statement or behind it. -/
theorem ends_eq_nil_of_outside (hrow : row.written? = some (indent, s)) {u v : List Char} {c : Char}
    (hcode : row.code = u ++ c :: v)
    (hu : u.length < (s.leadText indent.1).length ∨
      (s.leadText indent.1 ++ s.matched indent.1).length ≤ u.length) :
    ends n s.form.kind.pattern
      ⟨u.getLast?.or before, offset, c :: v ++ codeAfter rows, []⟩ = [] := by
  rw [← List.head?_eq_none_iff, Option.eq_none_iff_forall_ne_some]
  intro e he
  obtain ⟨indent', s', hrow', hfound⟩ := found_of_head? hcode he
  obtain ⟨rfl, rfl⟩ : indent = indent' ∧ s = s' := by simpa [hrow] using hrow'
  -- a match begins where the matched text does, which is not outside
  rcases hfound with ⟨-, rfl, -⟩ | hspills
  · have hne := List.length_pos_iff.mpr (s.matched_ne_nil indent.1)
    rw [List.length_append] at hu
    omega
  · have := hspills.within
    omega

/-- The search goes over the text of a row in front of its statement. -/
theorem findFrom_leadText (hrow : row.written? = some (indent, s)) {skip : Nat} :
    findFrom n s.form.kind.pattern before offset skip (row.code ++ codeAfter rows) =
      findFrom n s.form.kind.pattern ((s.leadText indent.1).getLast?.or before)
        (offset + (s.leadText indent.1).length) skip
        (s.matched indent.1 ++ ';' :: codeAfter rows) := by
  have hcode : row.code = s.leadText indent.1 ++ (s.matched indent.1 ++ [';']) := by
    rw [Row.code_of_written hrow, s.code_eq]
  have hall : row.code ++ codeAfter rows =
      s.leadText indent.1 ++ (s.matched indent.1 ++ ';' :: codeAfter rows) := by simp [hcode]
  rw [hall]
  -- no match begins in the lead, place by place
  refine findFrom_skip _ fun u c v huv => ?_
  have hu : row.code = u ++ c :: (v ++ (s.matched indent.1 ++ [';'])) := by simp [hcode, huv]
  have hnone : ends n s.form.kind.pattern ⟨u.getLast?.or before, offset + u.length,
      c :: (v ++ (s.matched indent.1 ++ [';'])) ++ codeAfter rows, []⟩ = [] :=
    ends_eq_nil_of_outside hrow hu (.inl (by simp [huv]))
  simpa using hnone

/-- The search goes over the semicolon behind the statement of a row. -/
theorem findFrom_semicolon (hrow : row.written? = some (indent, s)) {skip : Nat} :
    findFrom n s.form.kind.pattern
        ((s.matched indent.1).getLast?.or ((s.leadText indent.1).getLast?.or before)) offset skip
        (';' :: codeAfter rows) =
      findFrom n s.form.kind.pattern (row.code.getLast?.or before) (offset + 1) skip
        (codeAfter rows) := by
  have hcode : row.code = (s.leadText indent.1 ++ s.matched indent.1) ++ ';' :: [] := by
    rw [Row.code_of_written hrow, s.code_eq, List.append_assoc]
  have hlast : row.code.getLast? = some ';' := by simp [hcode]
  rw [hlast]
  refine findFrom_skip [';'] fun u c v huv => ?_
  -- the semicolon is one place
  obtain ⟨rfl, rfl, rfl⟩ : u = [] ∧ c = ';' ∧ v = [] := by
    cases u with
    | nil => simpa [eq_comm] using huv
    | cons d u => simp at huv
  have hnone : ends n s.form.kind.pattern
      ⟨(s.leadText indent.1 ++ s.matched indent.1).getLast?.or before, offset,
        ';' :: [] ++ codeAfter rows, []⟩ = [] :=
    ends_eq_nil_of_outside hrow hcode (.inr (Nat.le_refl _))
  simpa [codeAfter, List.getLast?_append, Option.or_assoc] using hnone

/-- The search takes the statement of a row that is of its kind, and nothing else. -/
theorem exists_findFrom_row (hrow : row.written? = some (indent, s))
    (hbefore : before = none ∨ before = some '\n') {skip : Nat} (hskip : skip ≤ offset) :
    ∃ m skip', Reads m (offset + (s.leadText indent.1).length) s ∧
      skip' ≤ offset + row.code.length ∧
      findFrom n s.form.kind.pattern before offset skip (row.code ++ codeAfter rows) =
        m :: findFrom n s.form.kind.pattern (row.code.getLast?.or before) (offset + row.code.length)
          skip' (codeAfter rows) := by
  obtain ⟨e, he, hfits⟩ : ∃ e, (ends n s.form.kind.pattern
      ⟨(s.leadText indent.1).getLast?.or before, offset + (s.leadText indent.1).length,
        s.matched indent.1 ++ ';' :: codeAfter rows, []⟩).head? = some e ∧
      Fits e (offset + (s.leadText indent.1).length) (s.matched indent.1) s :=
    exists_fits hrow hbefore
  have hmatch := findFrom_match (s.matched_ne_nil indent.1) (Nat.le_add_right_of_le hskip) he
    hfits.offset
  -- the row ends one semicolon behind the match
  have hend : offset + row.code.length = e.offset + 1 := by
    rw [hfits.offset, Row.code_of_written hrow, s.code_eq]
    simp
    omega
  refine ⟨⟨offset + (s.leadText indent.1).length, e⟩, e.offset,
    ⟨rfl, hfits.specifier, hfits.clause⟩, by omega, ?_⟩
  rw [findFrom_leadText hrow, hmatch, findFrom_semicolon hrow, hend]

end

end ImportAtlas.Source.JavaScript
