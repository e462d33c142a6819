import ImportAtlas.Proofs.Text.Chars

/-!
# The names and the blanks of a layout

Texts of characters of a class, the blanks with which statements are laid out, and the names that
stand between them.

* `Run`, `Space` — the texts of a class, any of them and those that are not empty;
* `AllIn` — the characters of a text are of a class, from which follows which ones do not occur;
* `IsIdentifier` — a letter or `_`, then letters, digits and `_`.

What a name is is said here by its characters, without what the extractors ask of a segment. That
they accept just these names is proved for each of them (`Python.isIdentifier_iff`,
`Rust.isPathSegment_iff`).
-/

namespace ImportAtlas.Source

/-! ### Classes of characters -/

/-- A text of characters of a class. -/
abbrev Run (f : Char → Bool) :=
  {t : List Char // ∀ c ∈ t, f c}

/-- A text of characters of a class that is not empty. -/
structure Space (f : Char → Bool) where
  chars : List Char
  ne_nil : chars ≠ []
  allowed : ∀ c ∈ chars, f c

/-- The run without characters. -/
def Run.empty (f : Char → Bool) : Run f :=
  ⟨[], fun _ hc => absurd hc List.not_mem_nil⟩

/-- One character as a run. -/
def Run.single {f : Char → Bool} (c : Char) (h : f c) : Run f :=
  ⟨[c], List.forall_mem_singleton.mpr h⟩

/-- One character as a space. -/
def Space.single {f : Char → Bool} (c : Char) (h : f c) : Space f :=
  ⟨[c], List.cons_ne_nil c [], List.forall_mem_singleton.mpr h⟩

/-- All characters of a text are of one class. -/
def AllIn (f : Char → Bool) (t : List Char) : Prop :=
  ∀ c ∈ t, f c

section AllIn

variable {f g : Char → Bool} {t u : List Char}

/-- Texts of one class are of it together. -/
theorem AllIn.append (ht : AllIn f t) (hu : AllIn f u) : AllIn f (t ++ u) := by
  intro c hc
  exact (List.mem_append.mp hc).elim (ht c) (hu c)

theorem AllIn.mono (h : AllIn f t) (hfg : ∀ c, f c → g c) : AllIn g t := fun c hc =>
  hfg c (h c hc)

theorem AllIn.of_all (h : t.all f) : AllIn f t :=
  List.all_eq_true.mp h

/-- A character outside the class does not stand in a text of it. -/
theorem AllIn.not_mem (h : AllIn f t) {c : Char} (hc : f c = false) : c ∉ t := fun hmem => by
  rw [h c hmem] at hc
  exact Bool.noConfusion hc

/-- With separators of the class too. -/
theorem AllIn.join {sep : List Char} (hsep : AllIn f sep) {parts : List (List Char)}
    (h : ∀ p ∈ parts, AllIn f p) : AllIn f (Text.join sep parts) := by
  cases parts with
  | nil => exact .of_all rfl
  | cons p ps =>
    obtain ⟨hp, hps⟩ := List.forall_mem_cons.mp h
    rw [Text.join_cons]
    refine hp.append fun c hc => ?_
    obtain ⟨q, hq, hc⟩ := List.mem_flatMap.mp hc
    exact hsep.append (hps q hq) c hc

end AllIn

/-! ### Names -/

/-- What a name may begin with. -/
def isWordStart (c : Char) : Bool :=
  c == '_' || Text.isAlphabetic c

/-- What a name may go on with. -/
def isWordChar (c : Char) : Bool :=
  isWordStart c || Text.isNumeric c

/-- A name: a letter or `_`, then letters, digits and `_`. -/
structure IsIdentifier (t : List Char) : Prop where
  begins : t.head?.any isWordStart
  allowed : AllIn isWordChar t

instance (t : List Char) : Decidable (IsIdentifier t) :=
  decidable_of_iff (t.head?.any isWordStart ∧ t.all isWordChar)
    ⟨fun h => ⟨h.1, .of_all h.2⟩, fun h => ⟨h.begins, List.all_eq_true.mpr h.allowed⟩⟩

/-- The extractors ask for a letter or a digit in one question. -/
theorem isWordChar_eq (c : Char) : isWordChar c = (c == '_' || Text.isAlphanumeric c) :=
  Bool.or_assoc ..

/-- Neither a letter nor a digit is blank, so that a blank ends a name. -/
theorem not_isBlank_of_isWordChar {c : Char} (h : isWordChar c) : Text.isBlank c = false := by
  rw [isWordChar_eq] at h
  rcases Bool.or_eq_true_iff.mp h with h | h
  · rw [beq_iff_eq.mp h]
    decide
  · exact Text.not_isBlank_of_isAlphanumeric h

/-- An identifier by its first character and the others. -/
theorem isIdentifier_cons {c : Char} {r : List Char} :
    IsIdentifier (c :: r) ↔ isWordStart c ∧ AllIn isWordChar r := by
  constructor
  · exact fun h => ⟨h.begins, fun d hd => h.allowed d (List.mem_cons_of_mem c hd)⟩
  · rintro ⟨hc, hr⟩
    exact ⟨hc, List.forall_mem_cons.mpr ⟨by simp [isWordChar, hc], hr⟩⟩

namespace IsIdentifier

variable {t : List Char}

/-- An identifier is not empty. -/
theorem ne_nil (h : IsIdentifier t) : t ≠ [] := by
  rintro rfl
  exact Bool.noConfusion h.begins

theorem not_isBlank (h : IsIdentifier t) : ∀ c ∈ t, Text.isBlank c = false := fun c hc =>
  not_isBlank_of_isWordChar (h.allowed c hc)

theorem solid (h : IsIdentifier t) : Text.Solid t :=
  .of_forall h.ne_nil h.not_isBlank

end IsIdentifier

/-! ### Blanks -/

/-- A blank that ends no line. -/
def isGapChar (c : Char) : Bool :=
  Text.isBlank c && c != '\n'

/-- A space or a tab. -/
def isIndentChar (c : Char) : Bool :=
  c == ' ' || c == '\t'

theorem isBlank_of_isGapChar {c : Char} (h : isGapChar c) : Text.isBlank c :=
  (Bool.and_eq_true_iff.mp h).1

theorem Space.blanks (b : Space isGapChar) : Text.Blanks b.chars := fun c hc =>
  isBlank_of_isGapChar (b.allowed c hc)

/-- An indent is blank and stays in its line. -/
theorem isGapChar_of_isIndentChar (c : Char) (h : isIndentChar c) : isGapChar c := by
  simp only [isIndentChar, Bool.or_eq_true, beq_iff_eq] at h
  rcases h with rfl | rfl <;> decide

end ImportAtlas.Source
