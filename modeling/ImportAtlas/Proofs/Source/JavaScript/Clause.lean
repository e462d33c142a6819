import ImportAtlas.Proofs.Source.JavaScript.Statement

/-!
# What clauses are read as

The clause between `import` or `export` and `from`, with blanks around it or none, is read as what
its form takes from the module.

* `Clause.readName_text` — one entry of a list in braces;
* `Clause.readTail_text` — a list or a namespace, behind what was taken before it;
* `Clause.read_clause` — the clause of every form.
-/

namespace ImportAtlas.Source.JavaScript

/-! ### The texts of lists -/

theorem trim_space {t : List Char} (h : Text.Solid t) : Text.trim (' ' :: t) = t := by
  simpa using Text.trim_pad .space h .nil

/-- A name with an alias is three words. -/
theorem Alias.words (a : Alias) (w : Ident) :
    Text.words (w.chars ++ a.text) = [w.chars, "as".toList, a.name.chars] := by
  have has : ∀ c ∈ "as".toList, Text.isBlank c = false := by simp [Text.isBlank]
  have hlast := Text.words_of_not_isBlank a.name.ne_nil a.name.not_isBlank
  rw [Alias.text, List.append_assoc, List.append_assoc, ← List.append_assoc,
    Text.words_append w.ne_nil w.not_isBlank a.before.ne_nil a.before.blanks,
    ← List.append_assoc "as".toList,
    Text.words_append (by decide) has a.after.ne_nil a.after.blanks, hlast]

/-- The text of an item has no blanks around it. -/
theorem Item.solid (i : Item) : Text.Solid i.text := by
  rw [Item.text]
  cases i.rename with
  | none => simpa using i.name.solid
  | some a => simpa [Alias.text] using
      i.name.solid.append (a.before.chars ++ "as".toList ++ a.after.chars) a.name.solid

theorem Ident.comma_not_mem (w : Ident) : ',' ∉ w.chars :=
  w.not_mem (by decide)

/-- There is no comma in an item. -/
theorem Item.comma_not_mem (i : Item) : ',' ∉ i.text := by
  have hspace : ∀ b : Space isGapChar, ',' ∉ b.chars :=
    fun b h => absurd (b.allowed _ h) (by decide)
  rw [Item.text]
  cases i.rename with
  | none => simp [i.name.comma_not_mem]
  | some a => simp [Alias.text, hspace, i.name.comma_not_mem, a.name.comma_not_mem]

/-- There is no comma in an entry, so that commas part the entries. -/
theorem Entry.comma_not_mem (e : Entry) : ',' ∉ e.text := by
  have hgap : ∀ t : Run isGapChar, ',' ∉ t.1 := fun t h => absurd (t.2 _ h) (by decide)
  rw [Entry.text]
  cases e.item with
  | none => simp [hgap]
  | some i => simp [hgap, i.comma_not_mem]

/-- Without the blanks around it an entry is its item. -/
theorem Entry.trim_text (e : Entry) : Text.trim e.text = e.item.elim [] Item.text := by
  have hgap : ∀ t : Run isGapChar, Text.Blanks t.1 := fun t c hc =>
    isBlank_of_isGapChar (t.2 c hc)
  rw [Entry.text, Text.trim_between (hgap e.before) _ (hgap e.after)]
  cases e.item with
  | none => rfl
  | some i => exact i.solid.trim_eq

/-- What is taken has no blanks around it. -/
theorem Taken.solid (t : Taken) : Text.Solid t.text := by
  cases t with
  | list es =>
    exact (Text.Solid.singleton (c := '{') (by decide)).append
      (Text.join [','] (es.map Entry.text)) (.singleton (c := '\x7d') (by decide))
  | whole w => exact (Text.Solid.singleton (c := '*') (by decide)).append " as ".toList w.solid

namespace Clause

/-- The entries of a list are its items; those between two commas with none are left out. -/
theorem entries_text (es : List Entry) :
    entries (Text.join [','] (es.map Entry.text)) = (es.filterMap Entry.item).map Item.text := by
  cases es with
  | nil => rfl
  | cons e es =>
    -- commas part the entries and stand nowhere else
    have hcomma : ∀ p ∈ (e :: es).map Entry.text, ',' ∉ p := by
      simp only [List.forall_mem_map]
      exact fun e _ => e.comma_not_mem
    rw [entries, Text.cutAt_join (by simp) hcomma]
    generalize e :: es = es
    induction es with
    | nil => rfl
    | cons e es ih =>
      rw [List.map_cons, List.map_cons, e.trim_text, List.filter_cons, ih]
      -- an entry without item is left out
      cases hitem : e.item with
      | none => simp [hitem]
      | some i => simp [hitem, i.solid.ne_nil]

/-- The word `type` is read in front of no item. -/
theorem dropStart?_type (i : Item) : Text.dropStart? "type ".toList i.text = none := by
  refine Text.dropStart?_eq_none fun r hr => ?_
  rw [Item.text] at hr
  cases hrename : i.rename with
  | none =>
    -- there is no blank in a name
    have hname : i.name.chars = "type ".toList ++ r := by simpa [hrename] using hr
    exact i.name.not_mem (c := ' ') (by decide) (by simp [hname])
  | some a =>
    -- the name in front of the first blank would be the word
    obtain ⟨c, b, hb⟩ := List.exists_cons_of_ne_nil a.before.ne_nil
    have hc : Text.isBlank c := a.before.blanks c (by simp [hb])
    have hsplit : i.name.chars ++ c :: (b ++ "as".toList ++ a.after.chars ++ a.name.chars) =
        "type".toList ++ ' ' :: r := by
      simpa [hrename, Alias.text, hb] using hr
    have hname : ∀ d ∈ i.name.chars, ¬ Text.isBlank d := fun d hd => by
      simp [i.name.not_isBlank d hd]
    have htype : ∀ d ∈ "type".toList, ¬ Text.isBlank d := by simp [Text.isBlank]
    exact i.not_type (by simp [hrename]) (Text.append_cons_inj hsplit hname hc htype (by decide)).1

/-- An item is read as what it imports. -/
theorem readName_text (line : Nat) (i : Item) : readName line i.text = .ok i.imported := by
  rw [readName, dropStart?_type]
  cases hrename : i.rename with
  | none =>
    have hwords : Text.words i.text = [i.name.chars] := by
      simpa [Item.text, hrename] using
        Text.words_of_not_isBlank i.name.ne_nil i.name.not_isBlank
    simp [hwords, Item.imported, hrename]
  | some a =>
    have hwords : Text.words i.text = [i.name.chars, "as".toList, a.name.chars] := by
      simpa [Item.text, hrename] using a.words i.name
    simp [hwords, Item.imported, hrename]

/-- All items of a list are read as what they import. -/
theorem mapM_readName (line : Nat) (items : List Item) :
    (items.map Item.text).mapM (readName line) = .ok (items.map Item.imported) := by
  induction items with
  | nil => rfl
  | cons i items ih =>
    rw [List.map_cons, List.mapM_cons, readName_text, ih]
    rfl

/-- A name is accepted. Its characters are below the range where the tables of letters begin. -/
theorem isIdentifier_chars (w : Ident) : isIdentifier w.chars := by
  have hall := w.allowed
  obtain ⟨c, r, h, hc⟩ := w.begins
  rw [h] at hall ⊢
  obtain ⟨hfirst, hr⟩ := List.forall_mem_cons.mp hall
  rw [isIdentifier, Bool.and_eq_true, List.all_eq_true]
  refine ⟨?_, fun d hd => ?_⟩
  · -- the first character, then the others
    have hlt := toNat_lt_of_isNameChar hfirst
    simp only [isNameStart, Bool.or_eq_true] at hc
    simp only [Text.isAlphabetic, if_pos hlt, Bool.or_eq_true]
    tauto
  · have hd := hr d hd
    have hlt := toNat_lt_of_isNameChar hd
    simp only [isNameChar, isNameStart, Bool.or_eq_true] at hd
    simp only [Text.isAlphanumeric, Text.isAlphabetic, Text.isNumeric, if_pos hlt, Bool.or_eq_true]
    tauto

/-- A list or a namespace adds to the names that were taken before it. -/
theorem readTail_text (line : Nat) (names : NameSet) (t : Taken) :
    readTail line { names } t.text = .ok
      { names := t.names.foldl (fun s n => NameSet.insert n s) names, rename := t.rename,
        wildcard := t.wildcard } := by
  cases t with
  | list es =>
    -- the closing brace is the last character
    have hend : Text.trimEnd (Text.join [','] (es.map Entry.text) ++ ['\x7d']) =
        Text.join [','] (es.map Entry.text) ++ ['\x7d'] := Text.trimEnd_of_last _ (by decide)
    rw [Taken.text_list, List.cons_append, readTail, hend, Text.dropEnd?_append]
    simp only [entries_text, mapM_readName]
    rfl
  | whole w =>
    -- behind the star there are `as` and a name
    have has : Text.Solid ("as ".toList ++ w.chars) :=
      (Text.Solid.singleton (c := 'a') (by decide)).append "s ".toList w.solid
    have hdrop : Text.dropStart? ['a', 's'] ("as ".toList ++ w.chars) = some (' ' :: w.chars) :=
      Text.dropStart?_eq_some.mpr rfl
    show readTail line { names } ('*' :: ' ' :: ("as ".toList ++ w.chars)) = _
    rw [readTail, trim_space has, hdrop]
    simp only [trim_space w.solid, isIdentifier_chars, if_true]
    rfl

/-- The clause of a form is read as what the form takes. -/
theorem read_clause (line : Nat) (f : Form) {t : List Char} (h : Text.trim t = f.clause) :
    read line t = .ok
      { names := NameSet.ofList f.names, rename := f.rename, wildcard := f.wildcard } := by
  rw [read, h]
  cases f with
  | bare | require | dynamic => rfl
  | exportAll => rfl
  | taken typed what | exportTaken what =>
    cases what with
    | list es => exact readTail_text line [] (.list es)
    | whole w => exact readTail_text line [] (.whole w)
  | default d more not_type =>
    -- the first character of a name begins neither a namespace nor a list
    obtain ⟨c, r, hd, hc⟩ := d.begins
    split
    · next heq => simp [Form.clause, hd] at heq
    · next heq =>
      simp only [Form.clause, hd, List.cons_append, List.cons.injEq] at heq
      simp [heq.1, isNameStart] at hc
    · next heq =>
      simp only [Form.clause, hd, List.cons_append, List.cons.injEq] at heq
      simp [heq.1, isNameStart] at hc
    · cases more with
      | none =>
        have hnone : Text.splitFirst? [','] d.chars = none :=
          Text.splitFirst?_eq_none.mpr fun hin => d.comma_not_mem (hin.subset (.head _))
        simp only [Form.clause, Option.elim_none, List.append_nil, hnone, Option.getD_none,
          d.solid.trim_eq, isIdentifier_chars, if_true]
        rfl
      | some t =>
        have hfirst : Text.splitFirst? [','] (d.chars ++ ',' :: ' ' :: t.text) =
            some (d.chars, ' ' :: t.text) := Text.splitFirst?_singleton d.comma_not_mem _
        have hclause : (Form.default d (some t) not_type).clause =
            d.chars ++ ',' :: ' ' :: t.text := rfl
        simp only [hclause, hfirst, Option.getD_some, trim_space t.solid, d.solid.trim_eq,
          isIdentifier_chars, if_true]
        exact readTail_text line _ t

end Clause

end ImportAtlas.Source.JavaScript
