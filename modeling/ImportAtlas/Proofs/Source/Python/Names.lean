import ImportAtlas.Proofs.Results
import ImportAtlas.Proofs.Source.Python.Lines

/-!
# Lists of names

The names behind `from … import`, on one line or in parentheses, and what is read from a text that
has the same words.

* `Names` — the names as they are laid out;
* `listedWords_innerText` — the words of a list;
* `Names.Reads` — a text that is read as the names, which a list on one line is (`reads_plain`), and
  one in parentheses whatever blanks stand between the names (`reads_parens`);
* `Names.Reads.mapM_readName` — the names that are read from it.
-/

namespace ImportAtlas.Source.Python

/-! ### Statements -/

/-- `as` and a word, with the blanks around them. -/
structure Alias where
  before : Space Text.isBlank
  after : Space Text.isBlank
  name : Word

/-- A name, perhaps under another one. -/
structure Item where
  name : Word
  rename : Option Alias

/-- A name in a list, with the blanks around it. -/
structure Entry where
  before : Run Text.isBlank
  item : Item
  after : Run Text.isBlank

/-- The name and, behind `as` between blanks, the other name. -/
def Item.text (i : Item) : List Char :=
  i.name.chars ++ i.rename.elim [] fun a =>
    a.before.chars ++ "as".toList ++ a.after.chars ++ a.name.chars

/-- What is recorded of a name. -/
def Item.imported (i : Item) : ImportedName where
  name := String.ofList i.name.chars
  rename := i.rename.map fun a => String.ofList a.name.chars

/-- A name with the blanks that stand on both sides of it. -/
def Entry.text (e : Entry) : List Char :=
  e.before.1 ++ e.item.text ++ e.after.1

/-- The names with commas between them. -/
def entriesText (entries : List Entry) : List Char :=
  Text.join [','] (entries.map Entry.text)

/-- The names of a statement, at least one. -/
inductive Names where
  /-- On the line of the statement. -/
  | plain (entries : List Entry) (h : entries ≠ []) (line : '\n' ∉ entriesText entries)
  /-- In parentheses, with line ends between them, and perhaps a comma behind the last one. -/
  | parens (entries : List Entry) (h : entries ≠ []) (comma : Option (Run Text.isBlank))
      (after : Run isGapChar)

/-- What stands between the parentheses. -/
def innerText (entries : List Entry) (comma : Option (Run Text.isBlank)) : List Char :=
  entriesText entries ++ comma.elim [] fun t => ',' :: t.1

namespace Names

/-- The names, with brackets around them or without. -/
def entries : Names → List Entry
  | plain entries _ _ => entries
  | parens entries _ _ _ => entries

/-- The text behind the word `import`. -/
def text : Names → List Char
  | plain entries _ _ => entriesText entries
  | parens entries _ comma after => '(' :: (innerText entries comma ++ ')' :: after.1)

/-- The first name begins with the keyword `import`, and no parenthesis stands before it. -/
def BeginsWithKeyword : Names → Prop
  | plain entries _ _ => ∃ e ∈ entries.head?, "import".toList <+: e.item.name.chars
  | parens .. => False

end Names

/-! ### Names -/

namespace Item

variable (i : Item)

/-- A name has no blanks, so the text of an item neither begins nor ends with one. -/
theorem solid : Text.Solid i.text := by
  rw [text]
  cases i.rename with
  | none => simpa using i.name.solid
  | some a => simpa using
      i.name.solid.append (a.before.chars ++ "as".toList ++ a.after.chars) a.name.solid

/-- The words of a name. -/
def words : List (List Char) :=
  i.name.chars :: i.rename.elim [] fun a => ["as".toList, a.name.chars]

/-- Cut at its blanks, an item is one word or the three of a renaming. -/
theorem words_text : Text.words i.text = i.words := by
  rw [text, words]
  cases i.rename with
  | none => simpa using Text.words_of_not_isBlank i.name.ne_nil i.name.not_isBlank
  | some a =>
    -- three words with blanks between them
    have has : Text.words "as".toList = ["as".toList] :=
      Text.words_of_not_isBlank (by decide) (by simp [Text.isBlank])
    have halias := Text.words_of_not_isBlank a.name.ne_nil a.name.not_isBlank
    have hname := Text.words_of_not_isBlank i.name.ne_nil i.name.not_isBlank
    simp only [Option.elim_some, List.append_assoc]
    rw [Text.words_append_blanks a.before.ne_nil a.before.allowed, hname,
      Text.words_append_blanks a.after.ne_nil a.after.allowed, has, halias]
    rfl

/-- A text with the words of a name is read as the name. -/
theorem readName_of_words {t : List Char} (h : Text.words t = i.words) (line : Nat) :
    readName line t = .ok i.imported := by
  rw [readName, h, words, imported]
  cases i.rename with
  | none => simp [i.name.isIdentifier]
  | some a => simp [i.name.isIdentifier, a.name.isIdentifier]

end Item

/-- An entry is plain: there is no bracket, quote or hash sign in it. -/
theorem Entry.allIn (e : Entry) : AllIn isPlainChar e.text := by
  have hitem : AllIn isPlainChar e.item.text := by
    rw [Item.text]
    refine e.item.name.allIn_plain.append ?_
    cases e.item.rename with
    | none => exact .of_all rfl
    | some a =>
      have has : AllIn isPlainChar "as".toList := .of_all (by decide)
      exact (((allIn_blanks a.before.allowed).append has).append
        (allIn_blanks a.after.allowed)).append a.name.allIn_plain
  exact ((allIn_blanks e.before.2).append hitem).append (allIn_blanks e.after.2)

/-- The names with commas between them are plain. -/
theorem allIn_entriesText (entries : List Entry) : AllIn isPlainChar (entriesText entries) := by
  refine AllIn.join (.of_all (by decide)) ?_
  simp only [List.forall_mem_map]
  exact fun e _ => e.allIn

/-- What stands between brackets is plain, with or without a comma at its end. -/
theorem allIn_innerText (entries : List Entry) (comma : Option (Run Text.isBlank)) :
    AllIn isPlainChar (innerText entries comma) := by
  refine (allIn_entriesText entries).append ?_
  cases comma with
  | none => exact .of_all rfl
  | some t => exact AllIn.append (t := [',']) (.of_all (by decide)) (allIn_blanks t.2)

/-- No comma stands in an entry, so the commas of a list are those between its entries. -/
theorem Entry.comma_not_mem (e : Entry) : ',' ∉ e.text := by
  have hword : ∀ w : Word, ',' ∉ w.chars := fun w => w.allIn.not_mem (by decide)
  have hblanks : ∀ {t}, Text.Blanks t → ',' ∉ t := fun h hmem => absurd (h ',' hmem) (by decide)
  have hrun : ∀ t : Run Text.isBlank, ',' ∉ t.1 := fun t => hblanks t.2
  have hspace : ∀ t : Space Text.isBlank, ',' ∉ t.chars := fun t => hblanks t.allowed
  cases hrename : e.item.rename <;>
    simp [Entry.text, Item.text, hrename, hword, hrun, hspace]

/-- The names are listed as the words of each. -/
theorem listedWords_entriesText {entries : List Entry} (h : entries ≠ []) :
    listedWords (entriesText entries) = entries.map (·.item.words) := by
  have hcomma : ∀ p ∈ entries.map Entry.text, ',' ∉ p := by
    simp only [List.forall_mem_map]
    exact fun e _ => e.comma_not_mem
  rw [listedWords, entriesText, listed_join (by simpa using h) hcomma, List.map_map, List.map_map]
  refine List.map_congr_left fun e _ => ?_
  have htrim : Text.trim e.text = e.item.text := Text.trim_pad e.before.2 e.item.solid e.after.2
  simp [htrim, e.item.words_text]

/-- A comma at the end adds one part without words, which is left out. -/
theorem listedWords_innerText {entries : List Entry} (h : entries ≠ [])
    (comma : Option (Run Text.isBlank)) :
    (listedWords (innerText entries comma)).filter (!·.isEmpty) = entries.map (·.item.words) := by
  -- every name has words
  have hentries :
      (entries.map (·.item.words)).filter (!·.isEmpty) = entries.map (·.item.words) := by
    rw [List.filter_eq_self]
    simp [Item.words]
  cases comma with
  | none => simpa [innerText, listedWords_entriesText h] using hentries
  | some t =>
    -- what stands behind the comma is blank
    have hlast : listedWords t.1 = [[]] := by
      have hcomma : ',' ∉ t.1 := fun hmem => absurd (t.2 ',' hmem) (by decide)
      rw [listedWords, listed_of_not_mem hcomma, Text.Blanks.trim_eq t.2]
      rfl
    have hcomma : listedWords (entriesText entries ++ ',' :: t.1) =
        listedWords (entriesText entries) ++ listedWords t.1 := by
      rw [listedWords, listed_comma, List.map_append]
      rfl
    rw [innerText, Option.elim_some, hcomma, listedWords_entriesText h, hlast, List.filter_append,
      hentries]
    simp

/-! ### The names of a statement -/

/-- The text of names when the lines have been joined. -/
structure Names.Reads (names : Names) (body : List Char) : Prop where
  ne_nil : body ≠ []
  line : '\n' ∉ body
  words : (listedWords (dropParens (Text.trim body))).filter (!·.isEmpty) =
    names.entries.map (·.item.words)
  keyword : "import".toList <+: Text.trimStart body → names.BeginsWithKeyword
  dot : ¬ ['.'] <+: Text.trimStart body

/-- The names begin, behind blanks, with the first name, and what follows it is no character of a
name. So the pattern that looks at the beginning of the names sees the whole of the first one. -/
theorem exists_entriesText (e : Entry) (es : List Entry) :
    ∃ r, entriesText (e :: es) = e.before.1 ++ (e.item.name.chars ++ r) ∧
      ∀ c ∈ r.head?, ¬ isWordChar c := by
  have hblank : ∀ c, Text.isBlank c → ¬ isWordChar c := fun c hc hword => by
    simp [not_isBlank_of_isWordChar hword] at hc
  -- with no blank behind the name, a comma follows or the end
  have hcomma : ∀ c ∈ ((es.map Entry.text).flatMap ([','] ++ ·)).head?, ¬ isWordChar c := by
    cases es with
    | nil => simp
    | cons e es => simp; decide
  have hafter :
      ∀ c ∈ (e.after.1 ++ (es.map Entry.text).flatMap ([','] ++ ·)).head?, ¬ isWordChar c := by
    cases hrun : e.after.1 with
    | nil => simpa using hcomma
    | cons c t => simpa using hblank c (e.after.2 c (by simp [hrun]))
  rw [entriesText, List.map_cons, Text.join_cons, Entry.text, Item.text]
  cases hrename : e.item.rename with
  | none => exact ⟨_, by simp, hafter⟩
  | some a =>
    obtain ⟨c, t, hspace⟩ := List.exists_cons_of_ne_nil a.before.ne_nil
    refine ⟨a.before.chars ++ ("as".toList ++ (a.after.chars ++ (a.name.chars ++ (e.after.1 ++
      (es.map Entry.text).flatMap ([','] ++ ·))))), by simp, ?_⟩
    simpa [hspace] using hblank c (a.before.allowed c (by simp [hspace]))

/-- Where no bracket opens, only the blanks around are dropped. -/
theorem dropParens_of_not_mem {t : List Char} (h : '(' ∉ t) : dropParens t = Text.trim t := by
  rw [dropParens]
  intro r hr
  exact h (by simp [hr])

/-- Names without brackets, on one line, are read as they stand. The pattern for the path could take
a word or a dot at their beginning for more of the path, so both are looked at here: the only such
word is a name that begins with `import`. -/
theorem reads_plain {entries : List Entry} (h : entries ≠ []) (hline : '\n' ∉ entriesText entries) :
    (Names.plain entries h hline).Reads (Text.trimEnd (entriesText entries)) := by
  obtain ⟨e, es, rfl⟩ := List.exists_cons_of_ne_nil h
  obtain ⟨r, htext, hr⟩ := exists_entriesText e es
  obtain ⟨c, w, hname⟩ := List.exists_cons_of_ne_nil e.item.name.ne_nil
  have hc : Text.isBlank c = false := e.item.name.not_isBlank c (by simp [hname])
  have hstart : Text.trimStart (entriesText (e :: es)) = e.item.name.chars ++ r := by
    rw [htext, Text.trimStart_append e.before.2, hname, List.cons_append, Text.trimStart_of_head hc]
  obtain ⟨b, hb, hend⟩ := Text.exists_trimEnd (entriesText (e :: es))
  -- what the trimmed names begin with, the first name and what follows it begin with
  have hbegins : ∀ {w}, Text.Solid w → w <+: Text.trimStart (Text.trimEnd (entriesText (e :: es))) →
      w <+: e.item.name.chars ++ r := fun hw h => by
    have hall := Text.prefix_trimStart_append hw h b
    rwa [← hend, hstart] at hall
  have hplain := allIn_entriesText (e :: es)
  -- the names are not blank, stand on one line, give these words, and begin with neither the
  -- keyword, the first name apart, nor a dot
  refine ⟨fun hnil => ?_, fun hmem => hline (Text.mem_of_mem_trimEnd hmem), ?_, fun hkeyword => ?_,
    fun hdot => ?_⟩
  · rw [hnil, List.nil_append] at hend
    have hblank := hb c (by rw [← hend, htext, hname]; simp)
    simp [hc] at hblank
  · have hparen : '(' ∉ Text.trim (Text.trimEnd (entriesText (e :: es))) := fun hmem =>
      hplain.not_mem (by decide) (Text.mem_of_mem_trimEnd (Text.mem_of_mem_trim hmem))
    have hwords := listedWords_innerText h none
    rw [innerText, Option.elim_none, List.append_nil] at hwords
    rw [dropParens_of_not_mem hparen, listedWords_trim, listedWords_trim, listedWords_trimEnd,
      hwords]
    rfl
  · have hsolid : Text.Solid "import".toList := .of_forall (by decide) (by simp [Text.isBlank])
    exact ⟨e, rfl, prefix_of_prefix_append (.of_all (by decide)) hr (hbegins hsolid hkeyword)⟩
  · have hfirst := hbegins (.singleton (by decide)) hdot
    rw [hname, List.cons_append, List.cons_prefix_cons] at hfirst
    exact e.item.name.allIn.not_mem (show isWordChar '.' = false by decide)
      (hname ▸ hfirst.1 ▸ List.mem_cons_self)

/-- Names in brackets are read from any text that lists the same words on one line. The text is that
of the brackets with its line ends gone, which is what the reader of lines makes of it. -/
theorem reads_parens {entries : List Entry} (h : entries ≠ []) (comma : Option (Run Text.isBlank))
    (after : Run isGapChar) {v : List Char} (hline : '\n' ∉ v)
    (hwords : listedWords v = listedWords (innerText entries comma)) :
    (Names.parens entries h comma after).Reads ('(' :: (v ++ [')'])) := by
  have hsolid : Text.Solid ('(' :: (v ++ [')'])) :=
    (Text.Solid.singleton (c := '(') (by decide)).append v (.singleton (c := ')') (by decide))
  -- the brackets are the first character and the last
  have hdrop : dropParens ('(' :: (v ++ [')'])) = Text.trim v := by
    rw [dropParens, Text.dropEnd?_append]
    rfl
  refine ⟨hsolid.ne_nil, by simp [hline], ?_, ?_, ?_⟩
  · rw [hsolid.trim_eq, hdrop, listedWords_trim, hwords]
    exact listedWords_innerText h comma
  · rw [Text.trimStart_of_head (by decide)]
    simp
  · rw [Text.trimStart_of_head (by decide)]
    simp

/-! ### Reading a statement -/

variable {names : Names} {body : List Char}

/-- There is always a name. -/
theorem Names.entries_ne_nil (names : Names) : names.entries ≠ [] := by
  cases names with
  | plain entries h _ => exact h
  | parens entries h _ _ => exact h

/-- The list of names is no wildcard. -/
theorem Names.Reads.ne_star (h : names.Reads body) :
    dropParens (Text.trim body) ≠ ['*'] := fun heq => by
  have hwords := h.words
  obtain ⟨e, es, hentries⟩ := List.exists_cons_of_ne_nil names.entries_ne_nil
  rw [heq, hentries, List.map_cons, Item.words] at hwords
  have hname : e.item.name.chars = ['*'] := by
    have hstar : (listedWords ['*']).filter (!·.isEmpty) = [[['*']]] := by decide
    rw [hstar] at hwords
    exact (List.cons.inj (List.cons.inj hwords).1).1.symm
  exact e.item.name.allIn.not_mem (show isWordChar '*' = false by decide) (by simp [hname])

/-- The readers of the parts give the names. A part that is left has the words of one item, and the
reader looks at nothing else. -/
theorem Names.Reads.mapM_readName (h : names.Reads body) (line : Nat) :
    ((listed (dropParens (Text.trim body))).filter (!·.isEmpty)).mapM (readName line) =
      .ok (names.entries.map (·.item.imported)) := by
  have hwords := h.words
  rw [← map_words_filter_listed] at hwords
  rw [mapM_eq_ok_iff]
  generalize (listed (dropParens (Text.trim body))).filter (!·.isEmpty) = parts at hwords ⊢
  generalize names.entries = entries at hwords ⊢
  -- part by part along the names
  induction entries generalizing parts with
  | nil => simpa using hwords
  | cons e es ih =>
    cases parts with
    | nil => simp at hwords
    | cons t ts =>
      obtain ⟨ht, hts⟩ := List.cons.inj hwords
      simp only [List.map_cons, e.item.readName_of_words ht line, ih ts hts]

end ImportAtlas.Source.Python
