import ImportAtlas.Proofs.Source.Comment
import ImportAtlas.Proofs.Source.Rust.OpenGroup

/-!
# Block comments behind a line of code

A block comment is left out of a file when it is seen to begin, and that is told by the quotes
before it. Single quotes are read as the quotes of a text, those of a lifetime too, so a comment
behind a single lifetime is read as code.

* `withComment` — a line and a block comment that begins at its end;
* `extract_withComment_of_even` — behind an even number of single quotes the comment gives no
  records;
* `extract_withComment_opened` — behind an odd number of them it is read as code, and the file is an
  error when the comment has a `use` statement that is one;
* `extract_withComment` — so the parity decides whether comments are left out.
-/

namespace ImportAtlas.Source.Rust

open Pattern

/-- A line and a block comment that begins at its end and has lines of its own. -/
def withComment (line body : List Char) : List Char :=
  line ++ "/*\n".toList ++ body ++ "\n*/\n".toList

variable {line body : List Char}

/-- Between two line ends a body ends the comment no more than by itself. -/
theorem not_infix_lines (hbody : ¬ "*/".toList <:+: body) :
    ¬ "*/".toList <:+: '\n' :: body ++ ['\n'] := by
  intro hin
  rcases List.infix_cons_iff.mp (Text.infix_of_infix_append rfl (by decide) hin) with hhead | hin
  · exact absurd (List.head_eq_of_cons_eq (List.prefix_iff_eq_append.mp hhead)) (by decide)
  · exact hbody hin

/-- Behind an even number of single quotes, blanks and line ends are left of the comment. -/
theorem blankComments_withComment (hline : AllIn isPlain line) (hbody : ¬ "*/".toList <:+: body)
    (heven : Even (line.count '\'')) :
    ∃ w, (∀ c ∈ w, c = ' ' ∨ c = '\n') ∧ blankComments (withComment line body) = line ++ w := by
  obtain ⟨w, hw, hblank⟩ := blankFrom_blockComment (not_infix_lines hbody) ['\n']
  refine ⟨"  ".toList ++ w ++ ['\n'], fun c hc => ?_, ?_⟩
  · -- the two signs, the text of the comment and the line end behind it
    simp only [List.mem_append] at hc
    rcases hc with (hc | hc) | hc
    · exact .inl (by simpa using hc)
    · exact hw c hc
    · exact .inr (List.mem_singleton.mp hc)
  · -- behind an even number of quotes the line leaves no string open, so the comment begins there
    have htext : withComment line body =
        line ++ '/' :: '*' :: ('\n' :: body ++ ['\n'] ++ "*/".toList ++ ['\n']) := by
      simp [withComment]
    rw [htext, blankComments, (blankFrom_singleQuotes hline _).1, if_pos heven, blankFrom, hblank]
    simp [blankFrom]

/-- Behind an odd number of them, the comment is read as quoted text up to the end of the line, and
as code from there on. -/
theorem blankComments_withComment_odd (hline : AllIn isPlain line)
    (hodd : ¬ Even (line.count '\'')) :
    blankComments (withComment line body) =
      line ++ "/*\n".toList ++ blankComments (body ++ "\n*/\n".toList) := by
  rw [blankComments, withComment, List.append_assoc, List.append_assoc,
    (blankFrom_singleQuotes hline _).1, if_neg hodd]
  simp [blankFrom, blankComments]

/-- A comment that is blanked gives no records and changes none. -/
theorem extract_withComment_of_even (hline : AllIn isPlain line) (hbody : ¬ "*/".toList <:+: body)
    (heven : Even (line.count '\'')) :
    extract (withComment line body) = extract (line ++ ['\n']) := by
  obtain ⟨w, hw, hcomment⟩ := blankComments_withComment hline hbody heven
  have hplain : blankComments (line ++ ['\n']) = line ++ ['\n'] := by
    rw [blankComments, (blankFrom_singleQuotes hline _).1, if_pos heven]
    simp [blankFrom]
  have habsent {c : Char} (hspace : c ≠ ' ') (hbreak : c ≠ '\n') : c ∉ w := fun hc =>
    (hw c hc).elim hspace hbreak
  -- what follows the line has nothing of a statement on either side
  have hstatements : statements (line ++ w) = statements (line ++ ['\n']) :=
    statements_append line (habsent (by decide) (by decide)) (by decide)
  have hdangling : danglingUse? (line ++ w) = danglingUse? (line ++ ['\n']) :=
    (danglingUse?_append (habsent (by decide) (by decide)) (habsent (by decide) (by decide))).trans
      (danglingUse?_append (by decide) (by decide)).symm
  rw [extract_eq, extract_eq, hcomment, hplain, hstatements, hdangling]

/-! ### A comment that is read as code -/

/-- A tree that ends where it opens a group is left open. -/
theorem expand_opened (n : Nat) (u : List Char) :
    expand n (u ++ ['\x7b']) = .error (.unterminated n) := by
  have htrim : Text.trim (u ++ ['\x7b']) = Text.trimStart u ++ ['\x7b'] := by
    rw [Text.trim, Text.trimStart_append_cons u (by decide), Text.trimEnd_of_last _ (by decide)]
  rw [expand, expandFrom, htrim]
  cases hsplit : Text.splitFirst? ['\x7b'] (Text.trimStart u ++ ['\x7b']) with
  | none => exact absurd (List.suffix_append _ _).isInfix (Text.splitFirst?_eq_none.mp hsplit)
  | some found =>
    obtain ⟨head, after⟩ := found
    obtain ⟨htext, -⟩ := (Text.splitFirst?_eq_some (List.cons_ne_nil _ _)).mp hsplit
    -- behind the first brace there is nothing, or a text that ends with a brace as well
    have hclosed : Text.dropEnd? ['\x7d'] (Text.trimEnd after) = none := by
      rcases List.eq_nil_or_concat' after with rfl | ⟨init, c, rfl⟩
      · rfl
      · obtain rfl : c = '\x7b' := by
          have hlast := congrArg List.getLast? htext
          rw [← List.append_assoc, List.getLast?_concat, List.getLast?_concat] at hlast
          exact (Option.some.inj hlast).symm
        rw [Text.trimEnd_of_last _ (by decide), Text.dropEnd?, List.reverse_append]
        rfl
    simp [hclosed]

/-- Behind a line end, a `use` with an open group and a semicolon is a statement of the pattern,
whatever follows. The pattern asks only that something stands before the semicolon. -/
theorem ends_opened_ne_nil (n offset : Nat) (rest : List Char) :
    ends n useStatement ⟨some '\n', offset, "use \x7b;".toList ++ rest, []⟩ ≠ [] := by
  generalize hp : (⟨some '\n', offset, "use \x7b;".toList ++ rest, []⟩ : Place) = p
  have hrest : p.rest = "use".toList ++ (" \x7b;".toList ++ rest) := by
    rw [← hp]
    rfl
  have hindent : p ∈ ends n lineIndent p :=
    mem_ends_seq_lineStart.mpr ⟨by simp [← hp],
      (spans_run p p).mpr ⟨[], p.rest, by simp [mem_allOf], rfl, rfl⟩⟩
  have hoptional : p ∈ ends n (optional (group "visibility" visibility)) p :=
    List.mem_append_right _ (List.mem_singleton_self p)
  -- the place behind the keyword and its space, where the tree begins
  let tree := (p.past "use".toList (" \x7b;".toList ++ rest)).past [' '] ("\x7b;".toList ++ rest)
  let e := (tree.captured "tree" ['\x7b'] (';' :: rest)).past [';'] rest
  have htree : e ∈ ends n (sequence [literal "use", blanks1, group "tree" (many1 (· != ';')),
      one (· == ';')]) p := by
    have hblank : [' '] ∈ someOf Text.isBlank :=
      mem_someOf.mpr ⟨List.cons_ne_nil _ _, List.forall_mem_singleton.mpr (by decide)⟩
    have hbrace : ['\x7b'] ∈ someOf (· != ';') :=
      mem_someOf.mpr ⟨List.cons_ne_nil _ _, List.forall_mem_singleton.mpr (by decide)⟩
    -- the keyword, a blank, the open bracket as the tree, the semicolon
    refine (mem_ends_seq_of_spans (spans_literal "use")).mpr ⟨_, _, rfl, hrest, ?_⟩
    refine (mem_ends_seq_of_spans spans_many1).mpr ⟨_, _, hblank, rfl, ?_⟩
    refine (mem_ends_seq_group spans_many1).mpr ⟨_, _, hbrace, rfl, ?_⟩
    exact (spans_one _ _).mpr ⟨[';'], rest, ⟨';', rfl, rfl⟩, rfl, rfl⟩
  exact List.ne_nil_of_mem (mem_ends_seq.mpr ⟨p, hindent, mem_ends_seq.mpr ⟨p, hoptional, htree⟩⟩)

/-- Whatever stands before it on other lines, a `use` statement with nothing but an open brace makes
the statements an error: its semicolon ends a match whose tree ends with the brace. -/
theorem statements_of_opened (lines rest : List Char) (h : ';' ∉ rest)
    (found : List (Nat × ImportRecord)) :
    statements (lines ++ ['\n'] ++ ("use \x7b;".toList ++ rest)) ≠ .ok found := by
  have hends (n : Nat) : ends n useStatement ⟨(lines ++ ['\n']).getLast?,
      (lines ++ ['\n']).length, "use \x7b;".toList ++ rest, []⟩ ≠ [] := by
    rw [List.getLast?_concat]
    exact ends_opened_ne_nil n _ rest
  -- the match that goes beyond the line end may have begun long before
  obtain ⟨m, hm, n, b, u, v, huv, hfinish, hbeyond⟩ :=
    closes_useStatement.exists_findAll _ hends
  obtain ⟨w, htext, hne, hlen⟩ := tree_of_mem_ends hfinish
  have hreach : v.length ≤ (w ++ m.finish.group "tree").length := by
    have hfinishlen : m.finish.offset = u.length + (w ++ m.finish.group "tree").length + 1 := hlen
    rw [huv, List.length_append] at hbeyond
    omega
  have htree : w ++ m.finish.group "tree" = v ++ "use \x7b".toList :=
    Text.eq_append_of_cut htext h (by decide) hreach
  obtain ⟨init, hinit⟩ : ∃ init, m.finish.group "tree" = init ++ ['\x7b'] := by
    have hlast := congrArg List.getLast? htree
    rw [List.getLast?_append_of_ne_nil _ hne, List.getLast?_append_of_ne_nil _ (by decide)] at hlast
    exact List.getLast?_eq_some_iff.mp hlast
  exact statements_ne_ok hm (fun line => ⟨_, hinit ▸ expand_opened line init⟩) found

/-- A comment with such a statement is an error when it is read as code. -/
theorem extract_withComment_opened (hline : AllIn isPlain line) (hodd : ¬ Even (line.count '\''))
    (records : List ImportRecord) :
    extract (withComment line "use \x7b;".toList) ≠ .ok records := by
  intro hrecords
  -- the comment is not blanked, so its body is read as code
  have hcode : blankComments (withComment line "use \x7b;".toList) =
      line ++ "/*".toList ++ ['\n'] ++ ("use \x7b;".toList ++ "\n*/\n".toList) := by
    rw [blankComments_withComment_odd hline hodd]
    simp [blankComments, blankFrom]
  rw [extract_eq, hcode] at hrecords
  cases hstatements : statements
      (line ++ "/*".toList ++ ['\n'] ++ ("use \x7b;".toList ++ "\n*/\n".toList)) with
  | error e => rw [hstatements] at hrecords; cases hrecords
  | ok found => exact statements_of_opened _ _ (by decide) found hstatements

/-- **A block comment behind a line of code** gives no records and changes none, when the line has
an even number of single quotes. When it has an odd number of them, as with a single lifetime on it,
the comment is not blanked and its lines are read as code; so there is a comment that changes the
answer, if the line alone is no error. -/
theorem extract_withComment (hline : AllIn isPlain line) :
    (Even (line.count '\'') → ∀ body, ¬ "*/".toList <:+: body →
      extract (withComment line body) = extract (line ++ ['\n'])) ∧
    (¬ Even (line.count '\'') →
      (∀ body, blankComments (withComment line body) =
        line ++ "/*\n".toList ++ blankComments (body ++ "\n*/\n".toList)) ∧
      ∀ records, extract (line ++ ['\n']) = .ok records →
        ∃ body, ¬ "*/".toList <:+: body ∧
          extract (withComment line body) ≠ extract (line ++ ['\n'])) := by
  refine ⟨fun heven body hbody => ?_, fun hodd => ⟨fun body => ?_, fun records hrecords => ?_⟩⟩
  · exact extract_withComment_of_even hline hbody heven
  · exact blankComments_withComment_odd hline hodd
  · -- behind an odd number of quotes the comment is read as code, and this one is an error there
    refine ⟨"use \x7b;".toList, by decide, ?_⟩
    rw [hrecords]
    exact extract_withComment_opened hline hodd records

/-- A declaration in a comment behind two lifetimes is left out. -/
theorem extract_withComment_of_two :
    extract (withComment "fn f<'a>(s: &'a str) \x7b\x7d ".toList "mod hidden;".toList) =
      extract ("fn f<'a>(s: &'a str) \x7b\x7d ".toList ++ ['\n']) :=
  (extract_withComment (.of_all (by decide))).1 (by decide) _ (by decide)

/-- Behind one lifetime it is a record. -/
theorem extract_withComment_lifetime :
    extract (withComment "fn f(s: &'static str) \x7b\x7d ".toList "mod hidden;".toList) =
        .ok [{ path := ["hidden"], depth := 1, line := 2 }] ∧
      extract ("fn f(s: &'static str) \x7b\x7d ".toList ++ ['\n']) = .ok [] := by
  have hstatements : statements (blankComments
      (withComment "fn f(s: &'static str) \x7b\x7d ".toList "mod hidden;".toList)) =
      .ok [(28, { path := ["hidden"], depth := 1, line := 2 })] := by
    decide +kernel
  have hdangling : danglingUse? (blankComments
      (withComment "fn f(s: &'static str) \x7b\x7d ".toList "mod hidden;".toList)) = none := by
    decide +kernel
  have hline : statements (blankComments ("fn f(s: &'static str) \x7b\x7d ".toList ++ ['\n'])) =
      .ok [] := by
    decide +kernel
  have hlineDangling :
      danglingUse? (blankComments ("fn f(s: &'static str) \x7b\x7d ".toList ++ ['\n'])) = none := by
    decide +kernel
  -- the record of the hidden module is in the one answer and not in the other
  constructor
  · rw [extract_eq, hstatements, hdangling]
    simp [Except.bind, inOrder]
  · rw [extract_eq, hline, hlineDangling]
    simp [Except.bind, inOrder]

end ImportAtlas.Source.Rust
