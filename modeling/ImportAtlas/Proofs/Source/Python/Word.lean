import ImportAtlas.Proofs.Source.Layout
import ImportAtlas.Source.Python

/-!
# Identifiers and lists

* `Word` — an identifier, which the extractor accepts (`isIdentifier_iff`);
* `dottedSegments_dotted` — the segments of a dotted path;
* `listed` — what stands between the commas of a list, without the blanks around it;
* `listedWords` — the words of the members, for which the blanks between them make no difference
  (`listedWords_blanks`).
-/

namespace ImportAtlas.Source.Python

/-! ### Identifiers -/

/-- An identifier: a letter or `_`, then letters, digits and `_`. -/
structure Word where
  chars : List Char
  spelled : IsIdentifier chars

/-- Of a segment and of an imported name, the extractor asks that they are names. -/
theorem isIdentifier_iff {t : List Char} : isIdentifier t ↔ IsIdentifier t := by
  cases t with
  | nil => exact iff_of_false Bool.noConfusion fun h => h.ne_nil rfl
  | cons c r =>
    rw [isIdentifier_cons, isIdentifier, Bool.and_eq_true, List.all_eq_true]
    exact and_congr_right' (forall₂_congr fun d _ => by rw [isWordChar_eq])

namespace Word

variable (w : Word)

theorem isIdentifier : Python.isIdentifier w.chars :=
  isIdentifier_iff.mpr w.spelled

theorem ne_nil : w.chars ≠ [] :=
  w.spelled.ne_nil

theorem allIn : AllIn isWordChar w.chars :=
  w.spelled.allowed

theorem not_isBlank : ∀ c ∈ w.chars, Text.isBlank c = false :=
  w.spelled.not_isBlank

theorem solid : Text.Solid w.chars :=
  w.spelled.solid

end Word

/-- What begins with word characters and a word begin alike, if the word ends where others
follow. -/
theorem prefix_of_prefix_append {w t r : List Char} (hw : AllIn isWordChar w)
    (hr : ∀ c ∈ r.head?, ¬ isWordChar c) (h : w <+: t ++ r) : w <+: t := by
  rcases List.prefix_or_prefix_of_prefix h (List.prefix_append t r) with h' | ⟨m, rfl⟩
  · exact h'
  · cases m with
    | nil => simp
    | cons c m =>
      obtain ⟨m', rfl⟩ := (List.prefix_append_right_inj t).mp h
      exact absurd (hw c (by simp)) (hr c rfl)

/-! ### Dotted paths -/

/-- A path as it is written. -/
def dotted (path : List Word) : List Char :=
  Text.join ['.'] (path.map Word.chars)

/-- A character of a path. -/
def isPathChar (c : Char) : Bool :=
  isWordChar c || c == '.'

/-- A path has no characters but those of names and dots. -/
theorem allIn_dotted (path : List Word) : AllIn isPathChar (dotted path) := by
  refine AllIn.join (.of_all (by decide)) ?_
  simp only [List.forall_mem_map]
  exact fun w _ => w.allIn.mono fun c hc => by simp [isPathChar, hc]

/-- There is no blank in a path, as there is none in a name. -/
theorem not_isBlank_of_mem_dotted (path : List Word) :
    ∀ c ∈ dotted path, Text.isBlank c = false := by
  intro c hc
  rcases Bool.or_eq_true_iff.mp (allIn_dotted path c hc) with h | h
  · exact not_isBlank_of_isWordChar h
  · rw [beq_iff_eq.mp h]
    decide

/-- A path with a name is not empty. -/
theorem dotted_ne_nil {path : List Word} (h : path ≠ []) : dotted path ≠ [] := by
  obtain ⟨w, ws, rfl⟩ := List.exists_cons_of_ne_nil h
  rw [dotted, List.map_cons, Text.join_cons]
  exact List.append_ne_nil_of_left_ne_nil w.ne_nil _

theorem solid_dotted {path : List Word} (h : path ≠ []) : Text.Solid (dotted path) :=
  .of_forall (dotted_ne_nil h) (not_isBlank_of_mem_dotted path)

/-- Cut at its dots, a path gives its names back. -/
theorem dottedSegments_dotted (path : List Word) :
    dottedSegments (dotted path) = path.map Word.chars := by
  cases path with
  | nil => rfl
  | cons w ws =>
    have hdot : ∀ t ∈ (w :: ws).map Word.chars, '.' ∉ t := by
      simp only [List.forall_mem_map]
      exact fun u _ => u.allIn.not_mem (by decide)
    rw [dottedSegments, dotted, Text.cutAt_join (by simp) hdot]
    -- every part is a name, which is neither trimmed nor left out
    generalize w :: ws = ws
    induction ws with
    | nil => rfl
    | cons w ws ih =>
      rw [List.map_cons, List.map_cons, w.solid.trim_eq, List.filter_cons, ih]
      simp [w.ne_nil]

/-- A character of a statement other than its parentheses. -/
def isPlainChar (c : Char) : Bool :=
  isPathChar c || Text.isBlank c || c == ','

theorem Word.allIn_plain (w : Word) : AllIn isPlainChar w.chars :=
  w.allIn.mono fun c hc => by simp [isPlainChar, isPathChar, hc]

theorem allIn_blanks {t : List Char} (h : Text.Blanks t) : AllIn isPlainChar t := fun c hc => by
  simp [isPlainChar, h c hc]

/-! ### Lists -/

/-- What stands between commas, without the blanks around it. -/
def listed (t : List Char) : List (List Char) :=
  (Text.cutAt (· == ',') t).map Text.trim

variable {t b b' : List Char}

/-- The parts on both sides of a comma are listed one side after the other. -/
theorem listed_comma (t r : List Char) : listed (t ++ ',' :: r) = listed t ++ listed r := by
  have hcut : Text.cutAt (· == ',') (t ++ ',' :: r) =
      Text.cutAt (· == ',') t ++ Text.cutAt (· == ',') r :=
    @Text.cutAt_append_cons (· == ',') ',' (beq_self_eq_true ',') t r
  rw [listed, hcut, List.map_append]
  rfl

/-- Blanks around a list make no difference, since each part is trimmed. -/
theorem listed_pad (hb : Text.Blanks b) (t : List Char) (hb' : Text.Blanks b') :
    listed (b ++ t ++ b') = listed t := by
  have hcomma : ∀ {b}, Text.Blanks b → ∀ c ∈ b, ¬ (c == ',') := fun hb c hc hn => by
    have hblank := hb c hc
    rw [beq_iff_eq.mp hn] at hblank
    exact absurd hblank (by decide)
  exact Text.map_trim_cutAt_pad hb (hcomma hb) t hb' (hcomma hb')

/-- Blanks before a list make no difference. -/
theorem listed_append (hb : Text.Blanks b) (t : List Char) : listed (b ++ t) = listed t := by
  have hpad := listed_pad hb t .nil
  rwa [List.append_nil] at hpad

/-- A list may be trimmed at its end. -/
theorem listed_trimEnd (t : List Char) : listed (Text.trimEnd t) = listed t := by
  obtain ⟨b, hb, ht⟩ := Text.exists_trimEnd t
  have hpad := listed_pad .nil (Text.trimEnd t) hb
  rw [List.nil_append, ← ht] at hpad
  exact hpad.symm

/-- A list may be trimmed on both sides. -/
theorem listed_trim (t : List Char) : listed (Text.trim t) = listed t := by
  obtain ⟨b, hb, ht⟩ := Text.exists_trimEnd_eq t
  rw [← listed_trimEnd t, ht, listed_append hb]

/-- Without a comma there is one part. -/
theorem listed_of_not_mem (h : ',' ∉ t) : listed t = [Text.trim t] := by
  rw [listed, Text.cutAt_of_not_mem h]
  rfl

/-- Parts without commas, joined by commas, are listed trimmed. -/
theorem listed_join {parts : List (List Char)} (hne : parts ≠ []) (h : ∀ p ∈ parts, ',' ∉ p) :
    listed (Text.join [','] parts) = parts.map Text.trim := by
  rw [listed, Text.cutAt_join hne h]

/-- The words of each member of a list. -/
def listedWords (t : List Char) : List (List (List Char)) :=
  (listed t).map Text.words

/-- The words of each part, for which the part need not be trimmed. -/
theorem listedWords_eq (t : List Char) :
    listedWords t = (Text.cutAt (· == ',') t).map Text.words := by
  rw [listedWords, listed, List.map_map]
  exact List.map_congr_left fun p _ => Text.words_trim p

/-- Trimming a list does not change the words of its parts. -/
theorem listedWords_trim (t : List Char) : listedWords (Text.trim t) = listedWords t := by
  rw [listedWords, listed_trim]
  rfl

/-- Trimming the end of a list does not change the words of its parts. -/
theorem listedWords_trimEnd (t : List Char) : listedWords (Text.trimEnd t) = listedWords t := by
  rw [listedWords, listed_trimEnd]
  rfl

/-- Which blanks stand between two texts makes no difference to the words of a list. -/
theorem listedWords_blanks (hne : b ≠ []) (hb : Text.Blanks b) (hne' : b' ≠ [])
    (hb' : Text.Blanks b') (t r : List Char) :
    listedWords (t ++ (b ++ r)) = listedWords (t ++ (b' ++ r)) := by
  obtain ⟨ps, p, hp⟩ : ∃ ps p, Text.cutAt (· == ',') t = ps ++ [p] :=
    ⟨_, _, (List.dropLast_append_getLast (Text.cutAt_ne_nil t)).symm⟩
  obtain ⟨q, qs, hq⟩ := List.exists_cons_of_ne_nil (@Text.cutAt_ne_nil (· == ',') r)
  -- the blanks stand in the piece in which the two texts meet
  have hwords : ∀ {b}, b ≠ [] → Text.Blanks b → listedWords (t ++ (b ++ r)) =
      ps.map Text.words ++ (Text.words p ++ Text.words q) :: qs.map Text.words := by
    intro b hne hb
    have hcut : Text.cutAt (· == ',') b = [] ++ [b] :=
      Text.cutAt_of_not_mem fun hmem => absurd (hb ',' hmem) (by decide)
    rw [listedWords_eq, Text.cutAt_append hp (Text.cutAt_append hcut hq)]
    simp [Text.words_append_blanks hne hb]
  rw [hwords hne hb, hwords hne' hb']

/-- The members that are not blank, by their words. -/
theorem map_words_filter_listed (t : List Char) :
    ((listed t).filter (!·.isEmpty)).map Text.words = (listedWords t).filter (!·.isEmpty) := by
  rw [listedWords, List.filter_map]
  refine congrArg _ (List.filter_congr fun p hp => ?_)
  obtain ⟨q, -, rfl⟩ := List.mem_map.mp hp
  -- a part is empty when it is trimmed exactly if it has no words
  have hempty : Text.words (Text.trim q) = [] ↔ Text.trim q = [] := by
    rw [Text.words_trim]
    exact ⟨fun h => (Text.blanks_of_words_eq_nil h).trim_eq, fun h => by
      rw [← Text.words_trim, h]
      rfl⟩
  rw [Function.comp_apply, Bool.eq_iff_iff]
  simp [hempty]

end ImportAtlas.Source.Python
