import ImportAtlas.Proofs.Results
import ImportAtlas.Proofs.Source.JavaScript.Found
import Mathlib.Data.List.Chain

/-!
# The records of a file of statements

Each statement of a file gives its record, and nothing else gives one. The patterns are searched for
one after another, and what they find is sorted by its offset.

* `Mark`, `marks` — where the statements of a file are found; `lineAt_of_mem_marks`;
* `finds_fileCode` — the pattern of a kind finds the statements of the kind;
* `entries_perm`, `mergeSort_entries` — the kinds together are all statements, in order when sorted;
* `extract_fileText` — the records of a file, where the specifiers are `Separate`;
  `extract_callAcross` — where they are not.
-/

namespace ImportAtlas.Source.JavaScript

open Pattern

/-! ### Where the statements of a file are found -/

/-- A statement, with the offset and the line at which its pattern finds it. -/
structure Mark where
  offset : Nat
  line : Nat
  statement : Statement

/-- The record of a mark, with the place that it is sorted by. -/
def Mark.entry (m : Mark) : Nat × ImportRecord :=
  (m.offset, m.statement.record m.line)

/-- The mark of a row that begins at an offset and stands on a line. -/
def Row.mark? (offset line : Nat) (row : Row) : Option Mark :=
  row.written?.map fun w => ⟨offset + (w.2.leadText w.1.1).length, line, w.2⟩

/-- The marks of rows, the first of which begins at an offset and stands on a line. -/
def marksFrom (offset line : Nat) : List Row → List Mark
  | [] => []
  | row :: rows =>
    (row.mark? offset line).toList ++ marksFrom (offset + row.code.length + 1) (line + 1) rows

/-- The marks of a file, from its first line on. -/
def marks (rows : List Row) : List Mark :=
  marksFrom 0 1 rows

variable {n offset line : Nat} {row : Row} {rows : List Row} {m : Mark} {k : Kind}

/-- The records that a file should give are those of its marks. -/
theorem recordsFrom_eq (line offset : Nat) (rows : List Row) :
    recordsFrom line rows = (marksFrom offset line rows).map fun m => m.entry.2 := by
  induction rows generalizing line offset with
  | nil => rfl
  | cons row rows ih =>
    rw [marksFrom, List.map_append, ← ih]
    cases row <;> rfl

/-- A mark lies in its row. -/
theorem Row.offset_of_mark (h : row.mark? offset line = some m) :
    offset ≤ m.offset ∧ m.offset ≤ offset + row.code.length := by
  obtain ⟨⟨indent, s⟩, hrow, rfl⟩ := Option.map_eq_some_iff.mp h
  have hcode : row.code = s.leadText indent.1 ++ (s.matched indent.1 ++ [';']) := by
    rw [Row.code_of_written hrow, s.code_eq]
  simp [hcode]

/-- Marks lie behind the place where their rows begin. -/
theorem offset_le_of_mem_marksFrom (h : m ∈ marksFrom offset line rows) : offset ≤ m.offset := by
  induction rows generalizing offset line with
  | nil => simp [marksFrom] at h
  | cons row rows ih =>
    rcases List.mem_append.mp h with h | h
    · exact (Row.offset_of_mark (Option.mem_toList.mp h)).1
    · have := ih h
      omega

/-- The marks stand in the order of their offsets. -/
theorem pairwise_marksFrom (offset line : Nat) (rows : List Row) :
    (marksFrom offset line rows).Pairwise fun a b => a.offset < b.offset := by
  induction rows generalizing offset line with
  | nil => exact .nil
  | cons row rows ih =>
    refine List.pairwise_append.mpr ⟨?_, ih _ _, fun a ha b hb => ?_⟩
    · cases row.mark? offset line <;> simp
    · have ha := (Row.offset_of_mark (Option.mem_toList.mp ha)).2
      have hb := offset_le_of_mem_marksFrom hb
      omega

theorem codeAfter_cons (row : Row) (rows : List Row) :
    codeAfter (row :: rows) = '\n' :: fileCode (row :: rows) := rfl

/-- The line of a mark is that of its offset, whatever stands in front of the rows. -/
theorem lineAt_of_mem_marksFrom {x : List Char} (hline : x.count '\n' + 1 = line)
    (h : m ∈ marksFrom x.length line rows) : lineAt (x ++ fileCode rows) m.offset = m.line := by
  induction rows generalizing x line with
  | nil => simp [marksFrom] at h
  | cons row rows ih =>
    rcases List.mem_append.mp h with h | h
    · have hmark := Option.mem_toList.mp h
      -- the mark is in the first row, before whose end there is no further newline
      obtain ⟨hle, hge⟩ := Row.offset_of_mark hmark
      obtain ⟨d, hd⟩ := Nat.exists_eq_add_of_le hle
      rw [hd, fileCode, lineAt_append row.newline_not_mem _ (by omega), hline]
      obtain ⟨w, -, rfl⟩ := Option.map_eq_some_iff.mp hmark
      rfl
    · cases rows with
      | nil => simp [marksFrom] at h
      | cons next rows =>
        -- it is in a later row, which begins one line below
        have hlength : (x ++ row.code ++ ['\n']).length = x.length + row.code.length + 1 := by
          simp [Nat.add_assoc]
        have hcount : (x ++ row.code ++ ['\n']).count '\n' + 1 = line + 1 := by
          simp [List.count_eq_zero.mpr row.newline_not_mem, hline]
        have hnext := ih hcount (hlength ▸ h)
        simpa [fileCode, codeAfter_cons] using hnext

/-- The line of a mark is that of its offset. -/
theorem lineAt_of_mem_marks (h : m ∈ marks rows) : lineAt (fileCode rows) m.offset = m.line :=
  lineAt_of_mem_marksFrom (x := []) rfl h

/-! ### Searching a file -/

/-- What the statements of a file must not do: read from one specifier into the next. -/
def Separate (rows : List Row) : Prop :=
  (statements rows).IsChain Statement.Apart

/-- Separate rows are apart from what follows them. -/
theorem separate_cons (h : Separate (row :: rows)) : row.Apart rows ∧ Separate rows := by
  rw [Separate, statements, List.filterMap_cons] at h
  cases hrow : row.written? with
  | none => exact ⟨by simp [Row.Apart, hrow], by simpa [Separate, statements, hrow] using h⟩
  | some w =>
    rw [hrow] at h
    have hchain := List.isChain_cons.mp h
    refine ⟨fun w' hw' t ht => ?_, hchain.2⟩
    obtain rfl : w = w' := by simpa [hrow] using hw'
    exact hchain.1 t ht

/-- What is found reads the marks. -/
def Finds (marks : List Mark) (found : List Found) : Prop :=
  List.Forall₂ (fun m f => Reads f m.offset m.statement) marks found

/-- The search over a row finds its mark, if that is of the kind. -/
theorem exists_finds_row (n line : Nat) (k : Kind) {before : Option Char} {skip : Nat}
    (hapart : row.Apart rows)
    (hbefore : before = none ∨ before = some '\n') (hskip : skip ≤ offset) :
    ∃ found skip', Finds ((row.mark? offset line).toList.filter (·.statement.form.kind = k)) found ∧
      skip' ≤ offset + row.code.length ∧
      findFrom n k.pattern before offset skip (row.code ++ codeAfter rows) =
        found ++ findFrom n k.pattern (row.code.getLast?.or before) (offset + row.code.length)
          skip' (codeAfter rows) := by
  by_cases hkind : ∃ w ∈ row.written?, w.2.form.kind = k
  · obtain ⟨⟨indent, s⟩, hrow, rfl⟩ := hkind
    -- the row has a statement of the kind, which is the one thing that is found
    obtain ⟨f, skip', hreads, hskip', hfind⟩ := exists_findFrom_row hrow hbefore hskip
    refine ⟨[f], skip', ?_, hskip', hfind⟩
    have hmark : row.mark? offset line = some ⟨offset + (s.leadText indent.1).length, line, s⟩ := by
      simp [Row.mark?, Option.mem_def.mp hrow]
    simpa [Finds, hmark] using hreads
  · have hne : ∀ w ∈ row.written?, w.2.form.kind ≠ k := fun w hw heq => hkind ⟨w, hw, heq⟩
    -- nothing of the kind is found in it
    refine ⟨[], skip, ?_, by omega, findFrom_row_of_ne hapart hne⟩
    cases hrow : row.written? with
    | none => simp [Finds, Row.mark?, hrow]
    | some w => simp [Finds, Row.mark?, hrow, hne w hrow]

/-- The search goes on behind the end of a line. -/
theorem findFrom_codeAfter_cons {before : Option Char} {skip : Nat} :
    findFrom n k.pattern before offset skip (codeAfter (row :: rows)) =
      findFrom n k.pattern (some '\n') (offset + 1) skip (row.code ++ codeAfter rows) := by
  refine findFrom_skip ['\n'] fun u c v huv => ?_
  obtain ⟨rfl, rfl, rfl⟩ : u = [] ∧ c = '\n' ∧ v = [] := by
    cases u with
    | nil => simpa [eq_comm] using huv
    | cons d u => simp at huv
  exact (ends_codeAfter k : ends n k.pattern ⟨_, _, codeAfter (row :: rows), []⟩ = [])

/-- **The search finds the statements of a kind, row by row.** What has been found in one row ends
there, so the next one is searched from its beginning. -/
theorem finds_codeAfter {before : Option Char} {skip : Nat} (h : Separate rows)
    (hskip : skip ≤ offset) :
    Finds ((marksFrom (offset + 1) line rows).filter (·.statement.form.kind = k))
      (findFrom n k.pattern before offset skip (codeAfter rows)) := by
  induction rows generalizing before offset line skip with
  | nil =>
    have hends : ends n k.pattern ⟨before, offset, codeAfter [], []⟩ = [] := ends_codeAfter k
    have hnot : ¬ offset < skip := by omega
    simp only [codeAfter, List.flatMap_nil] at hends ⊢
    simp [findFrom, hends, hnot, marksFrom, Finds]
  | cons row rows ih =>
    obtain ⟨hrow, hrows⟩ := separate_cons h
    obtain ⟨found, skip', hfinds, hskip', hfind⟩ :=
      exists_finds_row n line k hrow (.inr rfl : some '\n' = none ∨ _) (Nat.le_succ_of_le hskip)
    rw [findFrom_codeAfter_cons, hfind, marksFrom, List.filter_append]
    -- what is found in the row comes before what is found behind it
    exact List.rel_append hfinds (ih hrows hskip')

/-- The pattern of a kind finds the statements of the kind. -/
theorem finds_fileCode (h : Separate rows) (k : Kind) :
    Finds ((marks rows).filter (·.statement.form.kind = k))
      (findAll k.pattern (fileCode rows)) := by
  cases rows with
  | nil => exact (finds_codeAfter h (Nat.le_refl 0) : Finds ((marksFrom (0 + 1) 1 []).filter _) _)
  | cons row rows =>
    obtain ⟨hrow, hrows⟩ := separate_cons h
    -- the first row begins the file, the others begin behind a newline
    obtain ⟨found, skip', hfinds, hskip', hfind⟩ :=
      exists_finds_row (fileCode (row :: rows)).length 1 k hrow (.inl rfl : none = none ∨ _)
        (Nat.le_refl 0)
    rw [findAll, fileCode, marks, marksFrom, List.filter_append]
    rw [fileCode] at hfind
    rw [hfind]
    exact List.rel_append hfinds (finds_codeAfter hrows hskip')

/-! ### Records -/

/-- A specifier alone takes no names. -/
theorem specifierRecord_names (spec : List Char) :
    (specifierRecord spec).names = [] ∧ (specifierRecord spec).rename = none ∧
      (specifierRecord spec).wildcard = false ∧ (specifierRecord spec).reExport = false := by
  rw [specifierRecord]
  split <;> simp

/-- The record of a match without a clause. -/
theorem bareRecord_of_reads {f : Found} (hm : m ∈ marks rows)
    (hreads : Reads f m.offset m.statement)
    (hkind : m.statement.form.kind ≠ .static ∧ m.statement.form.kind ≠ .reExport) :
    bareRecord (fileCode rows) f = m.entry := by
  obtain ⟨hnames, hrename, hwildcard, hreExport⟩ :=
    specifierRecord_names m.statement.specifier.chars
  -- a form without clause takes no names and exports nothing
  have hnone : m.statement.form.names = [] ∧ m.statement.form.rename = none ∧
      m.statement.form.wildcard = false ∧ m.statement.form.isExport = false := by
    cases hform : m.statement.form <;> simp [hform, Form.kind] at hkind <;>
      simp [Form.names, Form.rename, Form.wildcard, Form.isExport]
  obtain ⟨hnames', hrename', hwildcard', hreExport'⟩ := hnone
  rw [bareRecord, hreads.offset, hreads.specifier, lineAt_of_mem_marks hm, Mark.entry,
    Statement.record, hnames', hrename', hwildcard', hreExport']
  simp [hnames, hrename, hwildcard, hreExport, NameSet.ofList]

/-- The record of a match with a clause. -/
theorem clauseRecord_of_reads {f : Found} (hm : m ∈ marks rows)
    (hreads : Reads f m.offset m.statement) :
    clauseRecord (fileCode rows) m.statement.form.isExport f = .ok m.entry := by
  rw [clauseRecord, bareRecord, hreads.offset, hreads.specifier, lineAt_of_mem_marks hm]
  simp only [Clause.read_clause _ _ hreads.clause]
  rfl

/-- What each found statement gives is what its mark gives. -/
theorem Finds.map_eq {α : Type} {ms : List Mark} {found : List Found} {g : Found → α} {r : Mark → α}
    (h : Finds ms found) (hg : ∀ m ∈ ms, ∀ f, Reads f m.offset m.statement → g f = r m) :
    found.map g = ms.map r := by
  induction h with
  | nil => rfl
  | cons hreads _ ih =>
    rw [List.map_cons, List.map_cons, hg _ (.head _) _ hreads, ih fun m hm => hg m (.tail _ hm)]

/-- The entries of the statements of a kind. -/
def entriesOf (rows : List Row) (k : Kind) : List (Nat × ImportRecord) :=
  ((marks rows).filter (·.statement.form.kind = k)).map Mark.entry

/-- The records of the statements with clauses of one kind. -/
theorem mapM_clauseRecord (h : Separate rows) {isReExport : Bool}
    (hk : ∀ f : Form, f.kind = k → f.isExport = isReExport) :
    (findAll k.pattern (fileCode rows)).mapM (clauseRecord (fileCode rows) isReExport) =
      .ok (entriesOf rows k) := by
  rw [mapM_eq_ok_iff, entriesOf, List.map_map]
  refine (finds_fileCode h k).map_eq fun m hm f hreads => ?_
  obtain ⟨hmem, hkind⟩ := List.mem_filter.mp hm
  rw [← hk m.statement.form (of_decide_eq_true hkind)]
  exact clauseRecord_of_reads hmem hreads

/-- The records of the others of one kind. -/
theorem map_bareRecord (h : Separate rows) (hk : k ≠ .static ∧ k ≠ .reExport) :
    (findAll k.pattern (fileCode rows)).map (bareRecord (fileCode rows)) = entriesOf rows k := by
  refine (finds_fileCode h k).map_eq fun m hm f hreads => ?_
  obtain ⟨hmem, hkind⟩ := List.mem_filter.mp hm
  exact bareRecord_of_reads hmem hreads (by simpa [of_decide_eq_true hkind] using hk)

/-- The five kinds, in the order in which they are looked for. -/
def kinds : List Kind :=
  [.static, .reExport, .bare, .require, .dynamic]

/-- Every statement is of one kind. -/
theorem entries_perm (rows : List Row) :
    (kinds.flatMap (entriesOf rows)).Perm ((marks rows).map Mark.entry) := by
  have hnodup : (marks rows).Nodup := (pairwise_marksFrom 0 1 rows).imp fun hlt heq => by
    simp [heq] at hlt
  have hall : ∀ k, k ∈ kinds := by rintro (_ | _) <;> decide
  -- a statement is of one kind
  have hdisjoint : kinds.Pairwise (Function.onFun List.Disjoint fun k =>
      (marks rows).filter (·.statement.form.kind = k)) := by
    refine (show kinds.Nodup by decide).imp fun hne m hm hm' => hne ?_
    exact (of_decide_eq_true (List.mem_filter.mp hm).2).symm.trans
      (of_decide_eq_true (List.mem_filter.mp hm').2)
  -- and of some kind, so that the lists together are all marks
  have hperm : (kinds.flatMap fun k => (marks rows).filter (·.statement.form.kind = k)).Perm
      (marks rows) := by
    refine (List.perm_ext_iff_of_nodup (List.nodup_flatMap.mpr ⟨fun k _ => hnodup.filter _,
      hdisjoint⟩) hnodup).mpr fun m => ?_
    simp [hall]
  have hmap := hperm.map Mark.entry
  rwa [List.map_flatMap] at hmap

/-- Sorting by the offset puts the statements in the order of their rows. -/
theorem mergeSort_entries (rows : List Row) :
    (kinds.flatMap (entriesOf rows)).mergeSort (fun a b => a.1 ≤ b.1) =
      (marks rows).map Mark.entry := by
  have hperm := (List.mergeSort_perm (kinds.flatMap (entriesOf rows)) fun a b => a.1 ≤ b.1).trans
    (entries_perm rows)
  have hsorted : ((kinds.flatMap (entriesOf rows)).mergeSort fun a b => a.1 ≤ b.1).Pairwise
      fun a b => decide (a.1 ≤ b.1) := List.pairwise_mergeSort (by simp; omega) (by simp; omega) _
  have hmarks : ((marks rows).map Mark.entry).Pairwise fun a b => a.1 < b.1 :=
    List.pairwise_map.mpr (pairwise_marksFrom 0 1 rows)
  -- no two statements begin at one offset
  have hne : ((marks rows).map Mark.entry).Pairwise fun a b => a.1 ≠ b.1 :=
    hmarks.imp fun hlt => Nat.ne_of_lt hlt
  refine hperm.eq_of_pairwise (fun a b ha hb hle hge => ?_) hsorted
    (hmarks.imp fun hlt => decide_eq_true (Nat.le_of_lt hlt))
  by_contra hab
  have : Std.Symm fun a b : Nat × ImportRecord => a.1 ≠ b.1 := ⟨fun _ _ => Ne.symm⟩
  exact hne.forall (hperm.mem_iff.mp ha) hb hab
    (Nat.le_antisymm (of_decide_eq_true hle) (of_decide_eq_true hge))

/-- A file of statements gives the records of its statements, in their order and no others, where no
specifier ends with the beginning of a call while the next one begins with the end of it. -/
theorem extract_fileText (rows : List Row) (h : Separate rows) :
    extract (fileText rows) = .ok (records rows) := by
  have hstatic : (findAll staticImport (fileCode rows)).mapM (clauseRecord (fileCode rows) false) =
      .ok (entriesOf rows .static) := mapM_clauseRecord (k := .static) h fun f hf => by
    cases f <;> simp [Form.kind] at hf <;> rfl
  have hreExport : (findAll reExport (fileCode rows)).mapM (clauseRecord (fileCode rows) true) =
      .ok (entriesOf rows .reExport) := mapM_clauseRecord (k := .reExport) h fun f hf => by
    cases f <;> simp [Form.kind] at hf <;> rfl
  -- the three patterns that record a specifier alone, one after the other
  have hbare : ([sideEffect, callOf "require", callOf "import"].flatMap fun p =>
      (findAll p (fileCode rows)).map (bareRecord (fileCode rows))) =
      [Kind.bare, .require, .dynamic].flatMap (entriesOf rows) := by
    have hkind : ∀ k ∈ [Kind.bare, .require, .dynamic],
        (findAll k.pattern (fileCode rows)).map (bareRecord (fileCode rows)) = entriesOf rows k :=
      fun k hk => map_bareRecord h ⟨by rintro rfl; simp at hk, by rintro rfl; simp at hk⟩
    rw [← List.flatMap_congr hkind]
    simp [Kind.pattern]
  have hall : entriesOf rows .static ++ entriesOf rows .reExport ++
      [Kind.bare, .require, .dynamic].flatMap (entriesOf rows) =
        kinds.flatMap (entriesOf rows) := by
    simp [kinds]
  rw [extract, blankComments_fileText, hstatic, hreExport, hbare, danglingBrace?_fileCode]
  simp only [bind, Except.bind, pure, Except.pure]
  -- sorted by their offsets the records of all patterns come in the order of the rows
  rw [hall, mergeSort_entries, List.map_map, records, recordsFrom_eq 1 0]
  rfl

/-- A name of one letter. -/
def Ident.letter (c : Char) (h : isNameStart c) : Ident :=
  ⟨[c], ⟨c, [], rfl, h⟩, by simp [isNameChar, h]⟩

/-- A default import, a call and a re-export, with a comment between them. -/
def threeStatements : List Row :=
  let space : Space isGapChar := ⟨[' '], by decide, by decide⟩
  let item : Item :=
    ⟨.letter 'x' (by decide), some ⟨space, space, .letter 'y' (by decide)⟩, by simp [Ident.letter]⟩
  [.statement ⟨[], by decide⟩ ⟨.default (.letter 'd' (by decide)) none (by simp [Ident.letter]),
      ⟨"./a".toList, by decide, by decide⟩⟩,
    .comment ⟨[], by decide⟩ ⟨" note".toList, by decide⟩,
    .statement ⟨"  ".toList, by decide⟩ ⟨.require (.letter 'v' (by decide)),
      ⟨"pkg/sub".toList, by decide, by decide⟩⟩,
    .statement ⟨[], by decide⟩
      ⟨.exportTaken (.list [⟨⟨[], by decide⟩, some item, ⟨[], by decide⟩⟩]),
        ⟨"..".toList, by decide, by decide⟩⟩]

/-- No call stands behind another one here. Each statement gives its record, with the line on which
it stands and the steps that its specifier goes upwards. -/
theorem extract_fileText_of_three :
    Separate threeStatements ∧
      extract ("import d from './a';\n// note\n  const v = require('pkg/sub');\n" ++
          "export \x7bx as y\x7d from '..';").toList =
        .ok [
          { path := ["a"], depth := 1, line := 1
            names := [{ name := "default", rename := some "d" }] },
          { path := ["pkg", "sub"], line := 3 },
          { path := [], depth := 2, line := 4, reExport := true
            names := [{ name := "x", rename := some "y" }] }] := by
  -- no specifier begins with a parenthesis
  have hseparate : Separate threeStatements := by
    simp [Separate, statements, threeStatements, Row.written?, Statement.Apart,
      Specifier.ClosesCall]
  have htext : fileText threeStatements = ("import d from './a';\n// note\n" ++
      "  const v = require('pkg/sub');\nexport \x7bx as y\x7d from '..';").toList := by
    decide +kernel
  refine ⟨hseparate, ?_⟩
  have hrecords := extract_fileText threeStatements hseparate
  rw [htext] at hrecords
  exact hrecords

/-- Two imports, the specifiers of which have a call between them. -/
def callAcross : List Row :=
  [.statement ⟨[], by decide⟩ ⟨.bare, ⟨"require(".toList, by decide, by decide⟩⟩,
    .statement ⟨[], by decide⟩ ⟨.bare, ⟨")".toList, by decide, by decide⟩⟩]

/-- The patterns match in quoted text as well: what stands between the two specifiers is read as a
third one. -/
theorem extract_callAcross :
    extract (fileText callAcross) = .ok
        [{ path := ["require("], line := 1 }, { path := [";\nimport"], line := 1 },
          { path := [")"], line := 2 }] ∧
      extract (fileText callAcross) ≠ .ok (records callAcross) := by
  have hstatic : findAll staticImport (fileCode callAcross) = [] := by
    rw [← List.isEmpty_iff]
    decide +kernel
  have hreExport : findAll reExport (fileCode callAcross) = [] := by
    rw [← List.isEmpty_iff]
    decide +kernel
  -- the quotes are paired the other way round, across the two statements
  have hbare : ([sideEffect, callOf "require", callOf "import"].flatMap fun p =>
      (findAll p (fileCode callAcross)).map (bareRecord (fileCode callAcross))) =
      [(0, { path := ["require("], line := 1 }), (19, { path := [")"], line := 2 }),
        (8, { path := [";\nimport"], line := 1 })] := by
    decide +kernel
  have hextract : extract (fileText callAcross) = .ok
      [{ path := ["require("], line := 1 }, { path := [";\nimport"], line := 1 },
        { path := [")"], line := 2 }] := by
    rw [extract, blankComments_fileText, hstatic, hreExport, hbare, danglingBrace?_fileCode]
    simp [List.mergeSort, List.MergeSort.Internal.splitInTwo, bind, Except.bind, pure, Except.pure]
  refine ⟨hextract, fun heq => ?_⟩
  have hlength := congrArg List.length (Except.ok.inj (hextract.symm.trans heq))
  exact absurd hlength (by decide)

end ImportAtlas.Source.JavaScript
