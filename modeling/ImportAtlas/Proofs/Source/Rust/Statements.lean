import ImportAtlas.Proofs.Pattern.Beginning
import ImportAtlas.Proofs.Results
import ImportAtlas.Source.Rust

/-!
# Statements of a Rust file

The declarations and `use` statements of a text end with a semicolon. So they are those of its
beginning, when no semicolon follows that.

* `statements` — what the statements of a text give, and `extract_eq` — how the records of a file
  are made of it;
* `tree_of_mem_ends` — the tree of a `use` statement is what stands before its semicolon;
* `statements_append` — the end of a text without semicolons may be exchanged for another one.
-/

namespace ImportAtlas.Source.Rust

open Pattern

/-- What the statements of a text give, with their offsets: the declarations and then the uses. -/
def statements (code : List Char) : Except ExtractionError (List (Nat × ImportRecord)) := do
  let uses ← (findAll useStatement code).mapM (useRecords code)
  return (findAll modDeclaration code).map (modRecord code) ++ uses.flatten

/-- Records in the order of their offsets. -/
def inOrder (found : List (Nat × ImportRecord)) : List ImportRecord :=
  (found.mergeSort fun a b => a.1 ≤ b.1).map (·.2)

/-- When the tree of a `use` statement cannot be expanded, the statements are an error. -/
theorem statements_ne_ok {code : List Char} {m : Found} (hm : m ∈ findAll useStatement code)
    (h : ∀ line, ∃ e, expand line (m.finish.group "tree") = .error e)
    (found : List (Nat × ImportRecord)) : statements code ≠ .ok found := by
  intro hfound
  rw [statements] at hfound
  obtain ⟨e, he⟩ := h (lineAt code m.offset)
  have hrecords : useRecords code m = .error e := by
    rw [useRecords, he]
    rfl
  -- the records of all statements are found, or none are
  cases huses : (findAll useStatement code).mapM (useRecords code) with
  | error _ => rw [huses] at hfound; cases hfound
  | ok uses =>
    have hmem := List.mem_map_of_mem (f := useRecords code) hm
    rw [mapM_eq_ok_iff.mp huses, hrecords] at hmem
    obtain ⟨records, -, hok⟩ := List.mem_map.mp hmem
    cases hok

/-- The records of a file are those of its statements in order, unless a group is left open. -/
theorem extract_eq (text : List Char) : extract text =
    (statements (blankComments text)).bind fun found =>
      match danglingUse? (blankComments text) with
      | some line => .error (.unterminated line)
      | none => .ok (inOrder found) := by
  rw [extract, statements]
  cases (findAll useStatement (blankComments text)).mapM (useRecords (blankComments text)) <;> rfl

/-! ### The end of a text -/

variable {w w' : List Char}

/-- A literal looks at its own characters only, so it is local. -/
theorem local_literal (s : String) : Local w w' (literal s) := by
  rw [literal]
  induction s.toList with
  | nil => exact local_empty
  | cons c t ih => exact local_one.seq ih

theorem local_lineIndent : Local w w' lineIndent :=
  local_lineStart.seq local_run

theorem local_blanks1 : Local w w' blanks1 :=
  local_one.seq local_run

/-- The pattern of a visibility is local, being made of such parts. -/
theorem local_visibility : Local w w' visibility :=
  (local_literal "pub").seq
    (((local_one.seq (local_run.seq local_one)).alt local_empty).seq local_blanks1)

/-- The pattern of a module declaration is local. -/
theorem local_modDeclaration : Local w w' modDeclaration :=
  local_lineIndent.seq <| (local_visibility.alt local_empty).seq <| (local_literal "mod").seq <|
    local_blanks1.seq <| ((local_one.seq local_run).group "name").seq <| local_run.seq local_one

/-- The pattern of a `use` is local. -/
theorem local_useStatement : Local w w' useStatement :=
  local_lineIndent.seq <| ((local_visibility.group "visibility").alt local_empty).seq <|
    (local_literal "use").seq <| local_blanks1.seq <|
      ((local_one.seq local_run).group "tree").seq local_one

theorem closes_modDeclaration : Closes ';' modDeclaration :=
  (((((closes_one ';').seq _).seq _).seq _).seq _).seq _ |>.seq _

theorem closes_useStatement : Closes ';' useStatement :=
  ((((closes_one ';').seq _).seq _).seq _).seq _ |>.seq _

/-- The tree of a `use` statement is what stands before the semicolon at its end. -/
theorem tree_of_mem_ends {n : Nat} {p e : Place} (h : e ∈ ends n useStatement p) :
    ∃ u, p.rest = u ++ e.group "tree" ++ ';' :: e.rest ∧ e.group "tree" ≠ [] ∧
      e.offset = p.offset + (u ++ e.group "tree").length + 1 := by
  -- the parts in front of the tree lead on to where it begins
  obtain ⟨q₁, hq₁, h⟩ := mem_ends_seq.mp h
  obtain ⟨q₂, hq₂, h⟩ := mem_ends_seq.mp h
  obtain ⟨q₃, hq₃, h⟩ := mem_ends_seq.mp h
  obtain ⟨q, hq, h⟩ := mem_ends_seq.mp h
  have honward : p.Onward q := (onward_of_mem_ends hq₁).trans <|
    (onward_of_mem_ends hq₂).trans <| (onward_of_mem_ends hq₃).trans (onward_of_mem_ends hq)
  obtain ⟨u, hu, hlen⟩ := honward
  obtain ⟨tree, r, ⟨hne, -⟩, htree, h⟩ := (mem_ends_seq_group spans_many1).mp h
  obtain ⟨close, r', ⟨c, hc, rfl⟩, hr, rfl⟩ := (spans_one _ e).mp h
  obtain rfl : c = ';' := by simpa using hc
  rw [Place.captured_rest] at hr
  refine ⟨u, ?_, ?_, ?_⟩
  · simpa [htree, hr] using hu
  · simpa using hne
  · simp [hlen, Nat.add_assoc]

/-- The line of a place does not depend on what follows it. -/
theorem lineAt_append_left {t : List Char} {offset : Nat} (h : offset ≤ t.length) (w : List Char) :
    lineAt (t ++ w) offset = lineAt t offset := by
  rw [lineAt, lineAt, List.take_append_of_le_length h]

section Records

variable {t : List Char} {m m' : Found} (h : Found.Alike t.length w w' m m')

include h

theorem lineAt_eq : lineAt (t ++ w) m.offset = lineAt (t ++ w') m.offset := by
  rw [lineAt_append_left h.offset_le, lineAt_append_left h.offset_le]

theorem modRecord_eq : modRecord (t ++ w) m = modRecord (t ++ w') m' := by
  rw [modRecord, modRecord, lineAt_eq h, ← h.offset, h.finish.group_eq]

theorem useRecords_eq : useRecords (t ++ w) m = useRecords (t ++ w') m' := by
  simp only [useRecords, lineAt_eq h, ← h.offset, h.finish.group_eq, h.finish.group?_eq]

end Records

/-- Two texts without a semicolon are alike behind a text: no statement ends in them, and the ones
that end before are found and read alike. -/
theorem statements_append (t : List Char) (hw : ';' ∉ w) (hw' : ';' ∉ w') :
    statements (t ++ w) = statements (t ++ w') := by
  have hmods := findAll_alike closes_modDeclaration local_modDeclaration hw hw' t
  have huses := findAll_alike closes_useStatement local_useStatement hw hw' t
  -- a match within the text has the same record in both
  have hmodRecords : List.Forall₂ (· = ·)
      ((findAll modDeclaration (t ++ w)).map (modRecord (t ++ w)))
      ((findAll modDeclaration (t ++ w')).map (modRecord (t ++ w'))) := by
    rw [List.forall₂_map_left_iff, List.forall₂_map_right_iff]
    exact hmods.imp fun _ _ => modRecord_eq
  rw [List.forall₂_eq_eq_eq] at hmodRecords
  have huseRecords : (findAll useStatement (t ++ w)).mapM (useRecords (t ++ w)) =
      (findAll useStatement (t ++ w')).mapM (useRecords (t ++ w')) :=
    mapM_eq_of_forall₂ (fun _ _ => useRecords_eq) huses
  rw [statements, statements, hmodRecords, huseRecords]

end ImportAtlas.Source.Rust
