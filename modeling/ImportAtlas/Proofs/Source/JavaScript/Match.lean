import ImportAtlas.Proofs.Pattern
import ImportAtlas.Proofs.Source.JavaScript.Statement

/-!
# What the patterns of statements match

Each pattern reads a text without quotes, a quoted specifier, and perhaps a little more.

* `Read` — a match of this shape, with what stands before the specifier and behind it; where the
  first quotes of a text are known, so is the match (`Read.eq_of_quoting`);
* `read_of_head?_clause`, `exists_mem_clause` — imports and re-exports with a clause;
* `read_of_mem_sideEffect`, `exists_mem_sideEffect` — imports without one;
* `read_of_mem_callOf`, `exists_mem_callOf` — calls.
-/

namespace ImportAtlas.Source.JavaScript

open Pattern

variable {n : Nat} {p q e : Place} {head spec tail rest t u : List Char}

/-! ### Quoted specifiers -/

/-- Text without quotes of either kind. -/
def NoQuote (t : List Char) : Prop :=
  ∀ c ∈ t, ¬ isQuote c

/-- A match from `p` to `e` that reads a specifier between quotes. -/
structure Read (p e : Place) (head spec tail : List Char) : Prop where
  quotes : ∃ c d, isQuote c ∧ isQuote d ∧
    p.rest = head ++ c :: (spec ++ d :: (tail ++ e.rest))
  noQuote : NoQuote spec
  offset : e.offset = p.offset + head.length + spec.length + tail.length + 2
  specifier : e.group "spec" = spec

/-- The first quotes of a text, with what they enclose. -/
structure Quoting (t head spec rest : List Char) : Prop where
  eq : t = head ++ '\'' :: (spec ++ '\'' :: rest)
  head : NoQuote head
  spec : NoQuote spec

/-- Put together, such texts have no quotes either. -/
theorem NoQuote.append (ht : NoQuote t) (hu : NoQuote u) : NoQuote (t ++ u) := by
  intro c hc
  exact (List.mem_append.mp hc).elim (ht c) (hu c)

theorem NoQuote.of_all (h : t.all fun c => !isQuote c) : NoQuote t := fun c hc => by
  simpa using List.all_eq_true.mp h c hc

/-- No quote is a blank. -/
theorem noQuote_of_blanks (h : Text.Blanks t) : NoQuote t := by
  intro c hc hquote
  have hblank := h c hc
  simp only [isQuote, Bool.or_eq_true, beq_iff_eq] at hquote
  rcases hquote with rfl | rfl <;> exact absurd hblank (by decide)

/-- A match that comes to the first quotes of a text reads what they enclose. -/
theorem Read.eq_of_quoting {g s : List Char} (h : Read p e g s tail) (hg : NoQuote g)
    (hq : Quoting p.rest head spec rest) : g = head ∧ s = spec ∧ rest = tail ++ e.rest := by
  obtain ⟨c, d, hc, hd, hrest⟩ := h.quotes
  obtain ⟨rfl, -, hbehind⟩ :=
    Text.append_cons_inj (hrest.symm.trans hq.eq) hg hc hq.head (d := '\'') (by decide)
  obtain ⟨rfl, -, htail⟩ :=
    Text.append_cons_inj hbehind h.noQuote hd hq.spec (d := '\'') (by decide)
  exact ⟨rfl, rfl, htail.symm⟩

/-- A match goes on from where a part of it has been read. -/
theorem Read.extend (h : Read q e head spec tail) (hrest : p.rest = t ++ q.rest)
    (hoffset : q.offset = p.offset + t.length) : Read p e (t ++ head) spec tail := by
  obtain ⟨c, d, hc, hd, hq⟩ := h.quotes
  refine ⟨⟨c, d, hc, hd, by rw [hrest, hq, List.append_assoc]⟩, h.noQuote, ?_, h.specifier⟩
  rw [h.offset, hoffset, List.length_append]
  omega

/-- A match goes on behind the specifier. -/
theorem Read.close (h : Read p q head spec []) (hrest : q.rest = t ++ u) :
    Read p (q.past t u) head spec t := by
  obtain ⟨c, d, hc, hd, hp⟩ := h.quotes
  refine ⟨⟨c, d, hc, hd, by rw [hp, hrest]; rfl⟩, h.noQuote, ?_, h.specifier⟩
  rw [Place.past_offset, h.offset, List.length_nil]
  omega

theorem quotedSpecifier_eq : quotedSpecifier =
    seq (one isQuote) (seq (group "spec" (many1 (!isQuote ·))) (one isQuote)) := rfl

/-- Whatever the pattern goes over is a specifier between two quotes, which need not be of one kind,
and it is captured. -/
theorem read_of_mem_quotedSpecifier (h : e ∈ ends n quotedSpecifier p) :
    ∃ s, Read p e [] s [] ∧ e.group "clause" = p.group "clause" := by
  rw [quotedSpecifier_eq, mem_ends_seq_of_spans spans_one] at h
  -- a quote, the specifier, a quote
  obtain ⟨_, r, ⟨c, hc, rfl⟩, hr, h⟩ := h
  rw [mem_ends_seq_group spans_many1] at h
  obtain ⟨s, r', ⟨-, hs⟩, hr', h⟩ := h
  obtain ⟨_, r'', ⟨d, hd, rfl⟩, hr'', rfl⟩ := (spans_one _ _).mp h
  rw [Place.past_rest] at hr'
  rw [Place.captured_rest] at hr''
  refine ⟨s, ⟨⟨c, d, hc, hd, ?_⟩, ?_, ?_, ?_⟩, ?_⟩
  · rw [hr, hr', hr'']
    rfl
  · exact fun a ha => by simpa using hs a ha
  · simp
    omega
  · simp
  · rw [Place.group_past, Place.group_captured_of_ne _ _ _ _ (by decide), Place.group_past]

/-- A quoted specifier is gone over. -/
theorem exists_mem_quotedSpecifier (h : p.rest = '\'' :: (spec ++ '\'' :: rest)) (hne : spec ≠ [])
    (hspec : NoQuote spec) : ∃ e ∈ ends n quotedSpecifier p, e.rest = rest := by
  have hread := (spans_one (n := n) (f := isQuote)
    (((p.past ['\''] (spec ++ '\'' :: rest)).captured "spec" spec ('\'' :: rest))) _).mpr
    ⟨['\''], rest, ⟨'\'', by decide, rfl⟩, rfl, rfl⟩
  have hspec' : ∀ c ∈ spec, !isQuote c := fun c hc => by simpa using hspec c hc
  rw [quotedSpecifier_eq]
  exact ⟨_, (mem_ends_seq_of_spans spans_one).mpr ⟨['\''], _, ⟨'\'', by decide, rfl⟩, h,
    (mem_ends_seq_group spans_many1).mpr ⟨spec, _, ⟨hne, hspec'⟩, rfl, hread⟩⟩, rfl⟩

/-! ### Clauses -/

/-- A sequence as a function of the place. -/
theorem ends_seq_fun (a b : Pattern) :
    ends n (seq a b) = fun p => (ends n a p).flatMap (ends n b) :=
  rfl

/-- A keyword behind spaces and tabs, and blanks. -/
def indented (keyword : String) : Pattern :=
  seq (seq (many isIndentChar) (literal keyword)) blanks1

/-- The word before a specifier. -/
def fromWord : Pattern :=
  seq (seq blanks (literal "from")) blanks

/-- A clause and what follows it. -/
def clauseTail (clause : Pattern) : Pattern :=
  seq (group "clause" clause) (seq fromWord quotedSpecifier)

/-- Statements with a clause have one shape, with the keyword and the pattern of the clause as
parameters. -/
def clausePattern (keyword : String) (clause : Pattern) : Pattern :=
  seq lineStart (seq (indented keyword) (seq typeWord (clauseTail clause)))

/-- The pattern of static imports, its parts joined otherwise. -/
theorem ends_staticImport : ends n staticImport =
    ends n (clausePattern "import" (few fun c => !(isQuote c || c == ';'))) := by
  simp only [staticImport, lineIndent, clausePattern, clauseTail, indented, fromWord,
    Pattern.sequence, ends_seq_fun, List.flatMap_assoc]
  rfl

/-- `*`, perhaps with a name, or a list in braces. -/
def exportClause : Pattern :=
  alt
    (seq (one (· == '*')) (optional (sequence
      [blanks1, literal "as", blanks1, many1 fun c => Text.isWord c || c == '$'])))
    (sequence [one (· == '{'), many (· != '\x7d'), one (· == '\x7d')])

/-- Exports are of that shape. -/
theorem ends_reExport : ends n reExport = ends n (clausePattern "export" exportClause) := by
  simp only [reExport, lineIndent, clausePattern, clauseTail, exportClause, indented, fromWord,
    Pattern.sequence, ends_seq_fun, List.flatMap_assoc]
  rfl

/-- A keyword with blanks around it. -/
def indentedText (keyword : String) : Language Char :=
  allOf isIndentChar * {keyword.toList} * someOf Text.isBlank

/-- The word `type` with a blank. -/
def typeText : Language Char :=
  {"type".toList} * someOf Text.isBlank

/-- The word before a specifier, with blanks around it. -/
def fromText : Language Char :=
  allOf Text.isBlank * {"from".toList} * allOf Text.isBlank

/-- The parts of a keyword with blanks around it. -/
theorem mem_indentedText {keyword : String} : t ∈ indentedText keyword ↔
    ∃ i b, (∀ c ∈ i, isIndentChar c) ∧ b ≠ [] ∧ Text.Blanks b ∧ t = i ++ (keyword.toList ++ b) := by
  constructor
  · rintro ⟨_, ⟨i, hi, _, rfl, rfl⟩, b, ⟨hne, hb⟩, rfl⟩
    exact ⟨i, b, hi, hne, hb, List.append_assoc ..⟩
  · rintro ⟨i, b, hi, hne, hb, rfl⟩
    exact ⟨_, ⟨i, hi, _, rfl, rfl⟩, b, ⟨hne, hb⟩, List.append_assoc ..⟩

/-- The parts of the word with its blanks. -/
theorem mem_typeText : t ∈ typeText ↔
    ∃ b, b ≠ [] ∧ Text.Blanks b ∧ t = "type".toList ++ b := by
  constructor
  · rintro ⟨_, rfl, b, ⟨hne, hb⟩, rfl⟩
    exact ⟨b, hne, hb, rfl⟩
  · rintro ⟨b, hne, hb, rfl⟩
    exact ⟨_, rfl, b, ⟨hne, hb⟩, rfl⟩

/-- The parts of the word before a specifier. -/
theorem mem_fromText : t ∈ fromText ↔
    ∃ b b', Text.Blanks b ∧ Text.Blanks b' ∧ t = b ++ ("from".toList ++ b') := by
  constructor
  · rintro ⟨_, ⟨b, hb, _, rfl, rfl⟩, b', hb', rfl⟩
    exact ⟨b, b', hb, hb', List.append_assoc ..⟩
  · rintro ⟨b, b', hb, hb', rfl⟩
    exact ⟨_, ⟨b, hb, _, rfl, rfl⟩, b', hb', List.append_assoc ..⟩

/-- An indent is blank. -/
theorem blanks_of_indent (h : ∀ c ∈ t, isIndentChar c) : Text.Blanks t := by
  intro c hc
  have hindent := h c hc
  simp only [isIndentChar, Bool.or_eq_true, beq_iff_eq] at hindent
  rcases hindent with rfl | rfl <;> decide

/-- There is no quote in a keyword behind its indent. -/
theorem noQuote_indentedText {keyword : String} (hk : NoQuote keyword.toList)
    (h : t ∈ indentedText keyword) : NoQuote t := by
  obtain ⟨i, b, hi, -, hb, rfl⟩ := mem_indentedText.mp h
  exact (noQuote_of_blanks (blanks_of_indent hi)).append (hk.append (noQuote_of_blanks hb))

/-- There is no quote in the word `type`. -/
theorem noQuote_typeText (h : t ∈ typeText) : NoQuote t := by
  obtain ⟨b, -, hb, rfl⟩ := mem_typeText.mp h
  exact NoQuote.append (.of_all (by decide)) (noQuote_of_blanks hb)

/-- There is no quote in the word before the specifier. -/
theorem noQuote_fromText (h : t ∈ fromText) : NoQuote t := by
  obtain ⟨b, b', hb, hb', rfl⟩ := mem_fromText.mp h
  exact (noQuote_of_blanks hb).append (NoQuote.append (.of_all (by decide)) (noQuote_of_blanks hb'))

/-- The texts of `exportClause`. -/
def exportText : Language Char :=
  oneOf (· == '*') * ((someOf Text.isBlank * ({"as".toList} * (someOf Text.isBlank *
    someOf fun c => Text.isWord c || c == '$'))) + 1) +
  oneOf (· == '{') * (allOf (· != '\x7d') * oneOf (· == '\x7d'))

/-- What the pattern of an export clause goes over. -/
theorem spans_exportClause : Spans n exportClause exportText :=
  (spans_one.seq ((spans_many1.seq ((spans_literal "as").seq (spans_many1.seq spans_many1))).alt
    spans_empty)).alt (spans_one.seq (spans_run.seq spans_one))

/-- A re-export takes everything, perhaps under a name, or what stands in braces. -/
theorem mem_exportText : t ∈ exportText ↔
    t = ['*'] ∨
    (∃ b b' w, b ≠ [] ∧ Text.Blanks b ∧ b' ≠ [] ∧ Text.Blanks b' ∧ w ≠ [] ∧
      (∀ c ∈ w, Text.isWord c || c == '$') ∧ t = '*' :: (b ++ ("as".toList ++ (b' ++ w)))) ∨
    ∃ w, '\x7d' ∉ w ∧ t = '{' :: (w ++ ['\x7d']) := by
  constructor
  · rintro (⟨_, ⟨c, hc, rfl⟩, o, ho, rfl⟩ |
      ⟨_, ⟨c, hc, rfl⟩, _, ⟨w, hw, _, ⟨d, hd, rfl⟩, rfl⟩, rfl⟩)
    · rw [beq_iff_eq.mp hc]
      -- a star alone, or with a name behind it
      rcases ho with
        ⟨b, ⟨hb0, hb⟩, _, ⟨_, rfl, _, ⟨b', ⟨hb0', hb'⟩, w, ⟨hw0, hw⟩, rfl⟩, rfl⟩, rfl⟩ | rfl
      · exact .inr (.inl ⟨b, b', w, hb0, hb, hb0', hb', hw0, hw, rfl⟩)
      · exact .inl rfl
    · rw [beq_iff_eq.mp hc, beq_iff_eq.mp hd]
      -- a list: the first closing brace ends it
      refine .inr (.inr ⟨w, fun hmem => ?_, rfl⟩)
      simpa using hw _ hmem
  · rintro (rfl | ⟨b, b', w, hb0, hb, hb0', hb', hw0, hw, rfl⟩ | ⟨w, hw, rfl⟩)
    · exact .inl ⟨['*'], ⟨'*', by decide, rfl⟩, [], .inr rfl, rfl⟩
    · exact .inl ⟨['*'], ⟨'*', by decide, rfl⟩, _, .inl ⟨b, ⟨hb0, hb⟩, _,
        ⟨_, rfl, _, ⟨b', ⟨hb0', hb'⟩, w, ⟨hw0, hw⟩, rfl⟩, rfl⟩, rfl⟩, rfl⟩
    · refine .inr ⟨['{'], ⟨'{', by decide, rfl⟩, _, ⟨w, fun c hc => ?_, ['\x7d'],
        ⟨'\x7d', by decide, rfl⟩, rfl⟩, rfl⟩
      simpa using fun heq : c = '\x7d' => hw (heq ▸ hc)

theorem spans_indented (keyword : String) : Spans n (indented keyword) (indentedText keyword) :=
  (spans_run.seq (spans_literal keyword)).seq spans_many1

theorem spans_fromWord : Spans n fromWord fromText :=
  (spans_run.seq (spans_literal "from")).seq spans_run

theorem spans_type : Spans n (seq (literal "type") blanks1) typeText :=
  (spans_literal "type").seq spans_many1

section Clauses

variable {C : Pattern} {L : Language Char} {keyword : String} {a b cl ty : List Char}

/-- What the end of a statement with a clause goes over: the clause, which is captured, the word and
the specifier. -/
theorem read_of_mem_clauseTail (hC : Spans n C L) (h : e ∈ ends n (clauseTail C) p) :
    ∃ cl ∈ L, ∃ b ∈ fromText, ∃ s, Read p e (cl ++ b) s [] ∧ e.group "clause" = cl := by
  rw [clauseTail, mem_ends_seq_group hC] at h
  obtain ⟨cl, r, hcl, hr, h⟩ := h
  rw [mem_ends_seq_of_spans spans_fromWord] at h
  obtain ⟨b, r', hb, hr', h⟩ := h
  obtain ⟨s, hread, hgroup⟩ := read_of_mem_quotedSpecifier h
  rw [Place.group_past, Place.group_captured] at hgroup
  rw [Place.captured_rest] at hr'
  refine ⟨cl, hcl, b, hb, s, ?_, hgroup⟩
  simpa using hread.extend (p := p) (t := cl ++ b) (by simp [hr, hr']) (by simp; omega)

/-- A clause with its word and specifier is gone over. -/
theorem exists_mem_clauseTail (hC : Spans n C L) (hcl : cl ∈ L) (hb : b ∈ fromText)
    (h : p.rest = cl ++ (b ++ '\'' :: (spec ++ '\'' :: rest))) (hne : spec ≠ [])
    (hspec : NoQuote spec) : ∃ e, e ∈ ends n (clauseTail C) p := by
  obtain ⟨e, he, -⟩ := exists_mem_quotedSpecifier (n := n)
    (p := (p.captured "clause" cl (b ++ '\'' :: (spec ++ '\'' :: rest))).past b
      ('\'' :: (spec ++ '\'' :: rest))) rfl hne hspec
  exact ⟨e, (mem_ends_seq_group hC).mpr ⟨cl, _, hcl, h,
    (mem_ends_seq_of_spans spans_fromWord).mpr ⟨b, _, hb, rfl, he⟩⟩⟩

/-- What the preferred match of a pattern with a clause reads. The word `type` is read as such
wherever a match can have it so. -/
theorem read_of_head?_clause (hC : Spans n C L)
    (h : (ends n (clausePattern keyword C) p).head? = some e) :
    (p.before = none ∨ p.before = some '\n') ∧
      ∃ a ∈ indentedText keyword, ∃ ty, ∃ cl ∈ L, ∃ b ∈ fromText, ∃ s,
        Read p e (a ++ (ty ++ (cl ++ b))) s [] ∧ e.group "clause" = cl ∧
        (ty ∈ typeText ∨ ty = [] ∧ ∀ ty' ∈ typeText, ∀ cl' ∈ L, ∀ b' ∈ fromText, ∀ s' r',
          s' ≠ [] → NoQuote s' →
            p.rest ≠ a ++ (ty' ++ (cl' ++ (b' ++ '\'' :: (s' ++ '\'' :: r'))))) := by
  have hstart := (mem_ends_seq_lineStart.mp (List.mem_of_mem_head? h)).1
  refine ⟨hstart, ?_⟩
  obtain ⟨q, hq, hline⟩ := exists_of_head?_ends_seq h
  obtain rfl : q = p := by simpa [ends_lineStart, hstart] using hq
  obtain ⟨q', hq', hword⟩ := exists_of_head?_ends_seq hline
  obtain ⟨a, r, ha, hr, rfl⟩ := (spans_indented keyword q q').mp hq'
  refine ⟨a, ha, ?_⟩
  rw [typeWord, head?_ends_seq_optional] at hword
  cases hfirst :
    (ends n (seq (seq (literal "type") blanks1) (clauseTail C)) (q.past a r)).head? with
  | some e' =>
    obtain rfl : e' = e := by simpa [hfirst] using hword
    have hmem := List.mem_of_mem_head? hfirst
    rw [mem_ends_seq_of_spans spans_type] at hmem
    obtain ⟨ty, r', hty, hr', hmem⟩ := hmem
    obtain ⟨cl, hcl, b, hb, s, hread, hgroup⟩ := read_of_mem_clauseTail hC hmem
    rw [Place.past_rest] at hr'
    have hread := hread.extend (p := q) (t := a ++ ty) (by simp [hr, hr']) (by simp; omega)
    exact ⟨ty, cl, hcl, b, hb, s, by simpa using hread, hgroup, .inl hty⟩
  | none =>
    -- without the word, there is no match that has it
    have hmem := List.mem_of_mem_head? (show e ∈ (ends n (clauseTail C) (q.past a r)).head? by
      simpa [hfirst] using hword)
    obtain ⟨cl, hcl, b, hb, s, hread, hgroup⟩ := read_of_mem_clauseTail hC hmem
    have hread := hread.extend (p := q) (t := a) (by simp [hr]) (by simp)
    refine ⟨[], cl, hcl, b, hb, s, hread, hgroup, .inr ⟨rfl, ?_⟩⟩
    intro ty' hty' cl' hcl' b' hb' s' r' hne hs' hrest
    obtain ⟨e', he'⟩ := exists_mem_clauseTail (n := n) (p := (q.past a r).past ty'
      (cl' ++ (b' ++ '\'' :: (s' ++ '\'' :: r')))) hC hcl' hb' rfl hne hs'
    have hr' : r = ty' ++ (cl' ++ (b' ++ '\'' :: (s' ++ '\'' :: r'))) :=
      List.append_cancel_left (hr.symm.trans hrest)
    have hmem' := (mem_ends_seq_of_spans spans_type).mpr ⟨ty', _, hty', hr', he'⟩
    rw [List.head?_eq_none_iff.mp hfirst] at hmem'
    exact List.not_mem_nil hmem'

/-- Where a text is put together as a clause asks for, a match begins. -/
theorem exists_mem_clause (hC : Spans n C L) (hstart : p.before = none ∨ p.before = some '\n')
    (ha : a ∈ indentedText keyword) (hty : ty ∈ typeText ∨ ty = []) (hcl : cl ∈ L)
    (hb : b ∈ fromText) (h : p.rest = a ++ (ty ++ (cl ++ (b ++ '\'' :: (spec ++ '\'' :: rest)))))
    (hne : spec ≠ []) (hspec : NoQuote spec) :
    ∃ e, e ∈ ends n (clausePattern keyword C) p := by
  obtain ⟨e, he⟩ := exists_mem_clauseTail (n := n) (p := (p.past a _).past ty
    (cl ++ (b ++ '\'' :: (spec ++ '\'' :: rest)))) hC hcl hb rfl hne hspec
  have htype : Spans n typeWord (typeText + 1) := spans_type.alt spans_empty
  refine ⟨e, mem_ends_seq_lineStart.mpr ⟨hstart, ?_⟩⟩
  exact (mem_ends_seq_of_spans (spans_indented keyword)).mpr ⟨a, _, ha, h,
    (mem_ends_seq_of_spans htype).mpr ⟨ty, _, hty, rfl, he⟩⟩

end Clauses

/-! ### Imports without a clause -/

/-- What stands before the specifier of an import without names. -/
def bareText : Language Char :=
  allOf isIndentChar * {"import".toList} * allOf Text.isBlank

/-- Its parts. -/
theorem mem_bareText : t ∈ bareText ↔
    ∃ i b, (∀ c ∈ i, isIndentChar c) ∧ Text.Blanks b ∧ t = i ++ ("import".toList ++ b) := by
  constructor
  · rintro ⟨_, ⟨i, hi, _, rfl, rfl⟩, b, hb, rfl⟩
    exact ⟨i, b, hi, hb, List.append_assoc ..⟩
  · rintro ⟨i, b, hi, hb, rfl⟩
    exact ⟨_, ⟨i, hi, _, rfl, rfl⟩, b, hb, List.append_assoc ..⟩

/-- There is no quote in it. -/
theorem noQuote_bareText (h : t ∈ bareText) : NoQuote t := by
  obtain ⟨i, b, hi, hb, rfl⟩ := mem_bareText.mp h
  exact (noQuote_of_blanks (blanks_of_indent hi)).append
    (NoQuote.append (.of_all (by decide)) (noQuote_of_blanks hb))

/-- The pattern for it. -/
def bareStart : Pattern :=
  seq (seq (many isIndentChar) (literal "import")) blanks

/-- An import without names is that and a specifier. -/
theorem ends_sideEffect : ends n sideEffect =
    ends n (seq lineStart (seq bareStart quotedSpecifier)) := by
  simp only [sideEffect, lineIndent, bareStart, Pattern.sequence, ends_seq_fun, List.flatMap_assoc]
  rfl

theorem spans_bareStart : Spans n bareStart bareText :=
  (spans_run.seq (spans_literal "import")).seq spans_run

/-- What the pattern goes over begins a line. -/
theorem read_of_mem_sideEffect (h : e ∈ ends n sideEffect p) :
    (p.before = none ∨ p.before = some '\n') ∧ ∃ a ∈ bareText, ∃ s,
      Read p e a s [] ∧ e.group "clause" = p.group "clause" := by
  rw [ends_sideEffect, mem_ends_seq_lineStart, mem_ends_seq_of_spans spans_bareStart] at h
  obtain ⟨hstart, a, r, ha, hr, h⟩ := h
  obtain ⟨s, hread, hgroup⟩ := read_of_mem_quotedSpecifier h
  exact ⟨hstart, a, ha, s, by simpa using hread.extend (p := p) (t := a) (by simp [hr]) (by simp),
    hgroup⟩

/-- Such an import is gone over. -/
theorem exists_mem_sideEffect (hstart : p.before = none ∨ p.before = some '\n')
    (ha : t ∈ bareText) (h : p.rest = t ++ '\'' :: (spec ++ '\'' :: rest)) (hne : spec ≠ [])
    (hspec : NoQuote spec) : ∃ e, e ∈ ends n sideEffect p := by
  obtain ⟨e, he, -⟩ := exists_mem_quotedSpecifier (n := n)
    (p := p.past t ('\'' :: (spec ++ '\'' :: rest))) rfl hne hspec
  refine ⟨e, ?_⟩
  rw [ends_sideEffect, mem_ends_seq_lineStart, mem_ends_seq_of_spans spans_bareStart]
  exact ⟨hstart, t, _, ha, h, he⟩

/-! ### Calls -/

/-- A name and a parenthesis. -/
def callStart (name : String) : Pattern :=
  seq (seq (seq (literal name) blanks) (one (· == '('))) blanks

/-- The closing parenthesis. -/
def callEnd : Pattern :=
  seq blanks (one (· == ')'))

/-- What stands before the specifier of a call. -/
def callText (name : String) : Language Char :=
  {name.toList} * allOf Text.isBlank * oneOf (· == '(') * allOf Text.isBlank

/-- What stands behind the specifier of a call. -/
def closeText : Language Char :=
  allOf Text.isBlank * oneOf (· == ')')

/-- The parts of the beginning of a call. -/
theorem mem_callText {name : String} : t ∈ callText name ↔
    ∃ b b', Text.Blanks b ∧ Text.Blanks b' ∧ t = name.toList ++ (b ++ '(' :: b') := by
  constructor
  · rintro ⟨_, ⟨_, ⟨_, rfl, b, hb, rfl⟩, _, ⟨c, hc, rfl⟩, rfl⟩, b', hb', rfl⟩
    rw [beq_iff_eq.mp hc]
    exact ⟨b, b', hb, hb', by simp⟩
  · rintro ⟨b, b', hb, hb', rfl⟩
    exact ⟨_, ⟨_, ⟨_, rfl, b, hb, rfl⟩, _, ⟨'(', by decide, rfl⟩, rfl⟩, b', hb', by simp⟩

/-- There is no quote in it. -/
theorem noQuote_callText {name : String} (hname : NoQuote name.toList) (h : t ∈ callText name) :
    NoQuote t := by
  obtain ⟨b, b', hb, hb', rfl⟩ := mem_callText.mp h
  exact hname.append ((noQuote_of_blanks hb).append
    (NoQuote.append (t := ['(']) (.of_all (by decide)) (noQuote_of_blanks hb')))

/-- The parts of its end. -/
theorem mem_closeText : t ∈ closeText ↔ ∃ b, Text.Blanks b ∧ t = b ++ [')'] := by
  constructor
  · rintro ⟨b, hb, _, ⟨c, hc, rfl⟩, rfl⟩
    rw [beq_iff_eq.mp hc]
    exact ⟨b, hb, rfl⟩
  · rintro ⟨b, hb, rfl⟩
    exact ⟨b, hb, _, ⟨')', by decide, rfl⟩, rfl⟩

/-- A call is its beginning, a specifier and its end, from the edge of a word on. -/
theorem ends_callOf (name : String) : ends n (callOf name) =
    ends n (seq wordEdge (seq (callStart name) (seq quotedSpecifier callEnd))) := by
  simp only [callOf, callStart, callEnd, Pattern.sequence, ends_seq_fun, List.flatMap_assoc]

theorem spans_callStart (name : String) : Spans n (callStart name) (callText name) :=
  (((spans_literal name).seq spans_run).seq spans_one).seq spans_run

theorem spans_callEnd : Spans n callEnd closeText :=
  spans_run.seq spans_one

/-- What the pattern goes over is a call. -/
theorem read_of_mem_callOf {name : String} (h : e ∈ ends n (callOf name) p) :
    (p.before.any Text.isWord ≠ p.rest.head?.any Text.isWord) ∧
      ∃ a ∈ callText name, ∃ s, ∃ b ∈ closeText,
        Read p e a s b ∧ e.group "clause" = p.group "clause" := by
  rw [ends_callOf, mem_ends_seq_wordEdge, mem_ends_seq_of_spans (spans_callStart name)] at h
  obtain ⟨hedge, a, r, ha, hr, h⟩ := h
  obtain ⟨q, hq, he⟩ := mem_ends_seq.mp h
  obtain ⟨b, r', hb, hr', rfl⟩ := (spans_callEnd q e).mp he
  obtain ⟨s, hread, hgroup⟩ := read_of_mem_quotedSpecifier hq
  have hread := (hread.extend (p := p) (t := a) (by simp [hr]) (by simp)).close hr'
  exact ⟨hedge, a, ha, s, b, hb, by simpa using hread, hgroup⟩

/-- A call is gone over. -/
theorem exists_mem_callOf {name : String}
    (hedge : p.before.any Text.isWord ≠ p.rest.head?.any Text.isWord)
    (ha : t ∈ callText name) (h : p.rest = t ++ '\'' :: (spec ++ '\'' :: (tail ++ rest)))
    (hb : tail ∈ closeText) (hne : spec ≠ [])
    (hspec : NoQuote spec) : ∃ e, e ∈ ends n (callOf name) p := by
  obtain ⟨e, he, hrest⟩ := exists_mem_quotedSpecifier (n := n)
    (p := p.past t ('\'' :: (spec ++ '\'' :: (tail ++ rest)))) rfl hne hspec
  refine ⟨e.past tail rest, ?_⟩
  rw [ends_callOf, mem_ends_seq_wordEdge, mem_ends_seq_of_spans (spans_callStart name)]
  exact ⟨hedge, t, _, ha, h, mem_ends_seq.mpr ⟨e, he,
    (spans_callEnd e _).mpr ⟨tail, rest, hb, hrest, rfl⟩⟩⟩

end ImportAtlas.Source.JavaScript
