import ImportAtlas.Proofs.Source.Layout
import ImportAtlas.Proofs.Source.Rust.Statements

/-!
# Groups that are left open

A `use` statement at the end of a file whose group is opened and that no semicolon ends matches the
pattern of no statement. A search of its own reports it, but looks at the first `use ` of the file
only. So whether the open group is reported depends on the statements before it.

* `OpenGroup` — a text with such a statement at its end;
* `Reported` — what has to stand before it for the search to report it;
* `extract_openGroup` — a file with an open group is an error exactly when the group is reported or
  a statement before it is an error, and otherwise the group is dropped silently.
-/

namespace ImportAtlas.Source.Rust

variable {text code lead after : List Char}

/-- Up to here, the line has spaces and tabs only. -/
def AtLineStart (before : List Char) : Prop :=
  ∃ front indent, before = front ++ indent ∧ (front = [] ∨ front.getLast? = some '\n') ∧
    AllIn isIndentChar indent

/-- A text with a `use` statement at its end that opens a group and has no semicolon. -/
structure OpenGroup (code lead after : List Char) : Prop where
  text_eq : code = lead ++ "use ".toList ++ after
  line : AtLineStart lead
  opened : '\x7b' ∈ after
  unclosed : ';' ∉ after

/-- The first place where `use ` stands in a text, be it a word or not. -/
structure FirstUse (code before after : List Char) : Prop where
  text_eq : code = before ++ "use ".toList ++ after
  first : ¬ "use ".toList <:+: before

/-- The open group behind a text is reported when there is no `use ` in the text, or the first one
begins its line and no statement of the text ends behind it. -/
def Reported (lead : List Char) : Prop :=
  ∀ before after, FirstUse lead before after → AtLineStart before ∧ ';' ∉ after

/-! ### The first use -/

/-- The check for the beginning of a statement looks at what stands before it on its line. -/
theorem startsStatement_iff {before : List Char} :
    startsStatement before.reverse ↔ AtLineStart before := by
  rw [startsStatement, List.all_eq_true]
  constructor
  · intro h
    -- the line goes back to the last line end, or to the beginning of the text
    refine ⟨(before.reverse.dropWhile (· != '\n')).reverse,
      (before.reverse.takeWhile (· != '\n')).reverse, ?_, ?_, ?_⟩
    · rw [← List.reverse_append, List.takeWhile_append_dropWhile, List.reverse_reverse]
    · have hhead := List.head?_dropWhile_not (· != '\n') before.reverse
      cases hrest : before.reverse.dropWhile (· != '\n') with
      | nil => exact .inl rfl
      | cons c r => simpa [hrest] using hhead
    · exact fun c hc => h c (List.mem_reverse.mp hc)
  · rintro ⟨front, indent, rfl, hfront, hindent⟩ c hc
    -- read backwards, the line begins with the indent and stops right behind it
    have hpass : ∀ d ∈ indent.reverse, d != '\n' := fun d hd => by
      have hline : '\n' ∉ indent := hindent.not_mem rfl
      exact bne_iff_ne.mpr fun heq => hline (heq ▸ List.mem_reverse.mp hd)
    have hstop : front.reverse.takeWhile (· != '\n') = [] := by
      rcases hfront with rfl | hlast
      · rfl
      · obtain ⟨init, rfl⟩ := List.getLast?_eq_some_iff.mp hlast
        simp
    rw [List.reverse_append, List.takeWhile_append_of_pos hpass, hstop, List.append_nil] at hc
    exact hindent c (List.mem_reverse.mp hc)

/-- Cutting at the keyword finds its first occurrence. -/
theorem splitFirst?_use {before : List Char} :
    Text.splitFirst? "use ".toList code = some (before, after) ↔ FirstUse code before after := by
  -- no blank stands in the letters, so an occurrence does not end in them
  have hend (t : List Char) : "use ".toList <:+: t ++ "use".toList ↔ "use ".toList <:+: t :=
    ⟨Text.infix_of_infix_append rfl (by decide), List.infix_append_of_infix_left⟩
  rw [Text.splitFirst?_eq_some (by decide), show "use ".toList.dropLast = "use".toList from rfl,
    hend]
  exact ⟨fun ⟨h, hfirst⟩ => ⟨h, hfirst⟩, fun ⟨h, hfirst⟩ => ⟨h, hfirst⟩⟩

/-- There is one first `use ` at most. -/
theorem FirstUse.unique {before before' after' : List Char} (h : FirstUse code before after)
    (h' : FirstUse code before' after') : before = before' ∧ after = after' := by
  have heq := (splitFirst?_use.mpr h).symm.trans (splitFirst?_use.mpr h')
  exact Prod.mk.inj (Option.some.inj heq)

/-- The first occurrence stays the first when more follows. -/
theorem FirstUse.append {before : List Char} (h : FirstUse code before after) (r : List Char) :
    FirstUse (code ++ r) before (after ++ r) :=
  ⟨by rw [h.text_eq, List.append_assoc], h.first⟩

/-- A text in which the keyword occurs has a first occurrence. -/
theorem exists_firstUse (h : "use ".toList <:+: code) :
    ∃ before after, FirstUse code before after := by
  cases hfirst : Text.splitFirst? "use ".toList code with
  | none => exact absurd h (Text.splitFirst?_eq_none.mp hfirst)
  | some found => exact ⟨found.1, found.2, splitFirst?_use.mp hfirst⟩

/-- No group is opened behind a text when neither a brace nor a semicolon follows it. -/
theorem danglingUse?_append {w : List Char} (hopened : '\x7b' ∉ w) (hclosed : ';' ∉ w) :
    danglingUse? (code ++ w) = danglingUse? code := by
  by_cases huse : "use ".toList <:+: code
  · obtain ⟨before, after, hfirst⟩ := exists_firstUse huse
    rw [danglingUse?, danglingUse?, splitFirst?_use.mpr hfirst,
      splitFirst?_use.mpr (hfirst.append w)]
    simp [hopened, hclosed]
  · have hnone : danglingUse? code = none := by
      rw [danglingUse?, Text.splitFirst?_eq_none.mpr huse]
    rw [hnone, danglingUse?]
    cases hfirst : Text.splitFirst? "use ".toList (code ++ w) with
    | none => rfl
    | some found =>
      obtain ⟨before, after⟩ := found
      -- the first one ends in what follows, so nothing but that stands behind it
      have hcut := (splitFirst?_use.mp hfirst).text_eq
      have hafter : '\x7b' ∉ after := by
        rcases List.append_eq_append_iff.mp hcut with ⟨z, -, hw⟩ | ⟨z, hcode, -⟩
        · exact fun hmem => hopened (hw ▸ List.mem_append_right z hmem)
        · exact absurd ⟨before, z, hcode.symm⟩ huse
      simp [hafter]

/-! ### Whether the group is reported -/

/-- With the first occurrence at hand, an open group is reported by what stands on both sides of
it. -/
theorem reported_of_firstUse {before : List Char} (h : FirstUse lead before after) :
    Reported lead ↔ AtLineStart before ∧ ';' ∉ after := by
  refine ⟨fun hreported => hreported _ _ h, fun hhere before' after' h' => ?_⟩
  obtain ⟨rfl, rfl⟩ := h.unique h'
  exact hhere

theorem reported_of_no_use (h : ¬ "use ".toList <:+: lead) : Reported lead :=
  fun before after huse => absurd ⟨before, after, huse.text_eq.symm⟩ h

/-- The search for an open group looks at the first `use ` of the text, so it finds the group at the
end or stops before it. -/
theorem OpenGroup.danglingUse?_eq_none (h : OpenGroup code lead after) :
    danglingUse? code = none ↔ ¬ Reported lead := by
  by_cases huse : "use ".toList <:+: lead
  · -- the first one stands before the group, which is part of what follows it
    obtain ⟨before, rest, hfirst⟩ := exists_firstUse huse
    have hwhole : FirstUse code before (rest ++ ("use ".toList ++ after)) := by
      rw [h.text_eq, List.append_assoc]
      exact hfirst.append _
    rw [danglingUse?, splitFirst?_use.mpr hwhole, reported_of_firstUse hfirst,
      ← startsStatement_iff]
    cases hstart : startsStatement before.reverse <;> simp [h.opened, h.unclosed, hstart]
  · -- the first one is that of the group
    have hfirst : FirstUse code lead after := ⟨h.text_eq, huse⟩
    rw [danglingUse?, splitFirst?_use.mpr hfirst]
    simp [h.opened, h.unclosed, startsStatement_iff.mpr h.line, reported_of_no_use huse]

/-- The statements of a text with an open group at its end are those before it. -/
theorem OpenGroup.statements_eq (h : OpenGroup code lead after) :
    statements code = statements lead := by
  have hrest : ';' ∉ "use ".toList ++ after := by
    rw [List.mem_append, not_or]
    exact ⟨by decide, h.unclosed⟩
  -- the group may be exchanged for nothing at all
  have hends := statements_append lead hrest List.not_mem_nil
  rwa [← List.append_assoc, ← h.text_eq, List.append_nil] at hends

/-- **A group that is left open** at the end of a file makes the file an error exactly when a
statement before it is an error already, or the first `use ` before it begins its line and no
statement ends behind that. Otherwise the answer is the records of the statements before the group,
which is dropped silently. -/
theorem extract_openGroup (h : OpenGroup (blankComments text) lead after) :
    ((∃ e, extract text = .error e) ↔ (∃ e, statements lead = .error e) ∨ Reported lead) ∧
      ∀ found, statements lead = .ok found → ¬ Reported lead →
        extract text = .ok (inOrder found) := by
  have hextract := extract_eq text
  rw [h.statements_eq] at hextract
  -- an error of the statements comes before the search for an open group
  cases hlead : statements lead with
  | error e => simp [hextract, hlead, Except.bind]
  | ok found =>
    rw [hlead, Except.bind] at hextract
    cases hdangling : danglingUse? (blankComments text) with
    | none =>
      have hsilent := h.danglingUse?_eq_none.mp hdangling
      simp [hextract, hdangling, hsilent]
    | some line =>
      have hreported : Reported lead := by
        by_contra hsilent
        rw [h.danglingUse?_eq_none.mpr hsilent] at hdangling
        cases hdangling
      simp [hextract, hdangling, hreported]

/-- A declaration before the group does not hide it. -/
theorem extract_openGroup_of_declaration :
    ∃ e, extract "mod a;\nuse crate::\x7bb, c\n".toList = .error e := by
  have h : OpenGroup (blankComments "mod a;\nuse crate::\x7bb, c\n".toList) "mod a;\n".toList
      "crate::\x7bb, c\n".toList :=
    ⟨by decide +kernel, ⟨"mod a;\n".toList, [], by decide, .inr (by decide), .of_all rfl⟩,
      by decide, by decide⟩
  exact (extract_openGroup h).1.mpr (.inr (reported_of_no_use (by decide)))

/-- A `use` statement before the group hides it. -/
theorem extract_useBeforeOpenGroup :
    OpenGroup (blankComments "use crate::a;\nuse crate::\x7bb, c\n".toList) "use crate::a;\n".toList
        "crate::\x7bb, c\n".toList ∧
      extract "use crate::a;\nuse crate::\x7bb, c\n".toList =
        .ok [{ path := ["crate", "a"], names := [⟨"a", none⟩], line := 1 }] := by
  have h : OpenGroup (blankComments "use crate::a;\nuse crate::\x7bb, c\n".toList)
      "use crate::a;\n".toList "crate::\x7bb, c\n".toList :=
    ⟨by decide +kernel, ⟨"use crate::a;\n".toList, [], by decide, .inr (by decide), .of_all rfl⟩,
      by decide, by decide⟩
  have hlead : statements "use crate::a;\n".toList =
      .ok [(0, { path := ["crate", "a"], names := [⟨"a", none⟩], line := 1 })] := by
    decide +kernel
  -- the check stops at the first keyword, whose statement is complete
  have hdangling :
      danglingUse? (blankComments "use crate::a;\nuse crate::\x7bb, c\n".toList) = none := by
    decide +kernel
  refine ⟨h, ?_⟩
  rw [extract_eq, h.statements_eq, hlead, hdangling]
  simp [Except.bind, inOrder]

end ImportAtlas.Source.Rust
