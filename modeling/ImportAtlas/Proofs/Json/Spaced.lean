import ImportAtlas.Proofs.Json.Step

/-!
# Between the tokens

A text that spells a value is made of tokens with blanks between them, and where more blanks are put
between the tokens it spells the same value.

* `Token` — a mark, a string, or a word, which is taken whole;
* `Between` — that a text has pieces more than another one, between its tokens; `Spaced` with blanks
  as pieces, and `Tokens` with none: a text made of tokens;
* `Reads` — of a reader: what it reads is made of tokens, and more blanks between them change
  nothing of it. The parts of a step are such readers (`Reads.inside`, `Reads.listed`,
  `Reads.keyed`), so the reader of values is one (`reads`);
* `tokens_of_parse?`, `parse?_of_spaced` — the same for whole texts.
-/

namespace ImportAtlas.Json

namespace Reader

open Source (AllIn)

/-! ### Tokens -/

/-- The marks of arrays and objects. -/
def isMark (c : Char) : Bool :=
  c ∈ ['[', ']', '\x7b', '\x7d', ',', ':']

/-- A token, with what follows it. -/
inductive Token : List Char → List Char → Prop where
  | mark {c r} (hc : isMark c) : Token [c] r
  | string {body r} (h : StringBody body) : Token ('"' :: (body ++ ['"'])) r
  | word {w r} (hne : w ≠ []) (hw : AllIn isWordChar w) (hr : Stops r) : Token w r

/-- The second text has pieces more than the first, between its tokens. What may be such a piece is
told by the piece and by the text behind it. -/
inductive Between (P : List Char → List Char → Prop) : List Char → List Char → Prop where
  | nil : Between P [] []
  | piece {s t t'} (hs : P s t') (h : Between P t t') : Between P t (s ++ t')
  | blank {c t t'} (hc : isBlank c) (h : Between P t t') : Between P (c :: t) (c :: t')
  | token {w r r'} (hw : Token w r) (h : Between P r r') : Between P (w ++ r) (w ++ r')

/-- The second text has more blanks between its tokens than the first. -/
abbrev Spaced : List Char → List Char → Prop :=
  Between fun s _ => AllIn isBlank s

/-- A text made of tokens, with blanks between them. -/
abbrev Tokens (t : List Char) : Prop :=
  Between (fun _ _ => False) t t

variable {c : Char} {t t' u r r' w rest : List Char} {x : Json}

section Token

/-- The marks of the format. -/
theorem eq_of_isMark (h : isMark c) :
    c = '[' ∨ c = ']' ∨ c = '\x7b' ∨ c = '\x7d' ∨ c = ',' ∨ c = ':' := by
  simpa [isMark] using h

theorem eq_of_isBlank (h : isBlank c) : c = ' ' ∨ c = '\n' ∨ c = '\t' ∨ c = '\r' := by
  simpa [isBlank, or_assoc] using h

theorem isWordChar_of_isMark (h : isMark c) : isWordChar c = false := by
  rcases eq_of_isMark h with rfl | rfl | rfl | rfl | rfl | rfl <;> decide

theorem isBlank_of_isMark (h : isMark c) : isBlank c = false := by
  rcases eq_of_isMark h with rfl | rfl | rfl | rfl | rfl | rfl <;> decide

theorem isWordChar_of_isBlank (h : isBlank c) : isWordChar c = false := by
  rcases eq_of_isBlank h with rfl | rfl | rfl | rfl <;> decide

/-- A token does not begin with a blank. -/
theorem Token.head (h : Token w r) : ∃ c u, w = c :: u ∧ isBlank c = false := by
  cases h with
  | mark hc => exact ⟨_, [], rfl, isBlank_of_isMark hc⟩
  | string => exact ⟨_, _, rfl, by decide⟩
  | word hne hw =>
    obtain ⟨c, u, rfl⟩ := List.exists_cons_of_ne_nil hne
    refine ⟨c, u, rfl, Bool.eq_false_iff.mpr fun hc => ?_⟩
    have hword := hw c List.mem_cons_self
    rw [isWordChar_of_isBlank hc] at hword
    cases hword

/-- Nothing of a token is skipped, since it begins with no blank. -/
theorem Token.skipBlanks (h : Token w r) (v : List Char) : skipBlanks (w ++ v) = w ++ v := by
  obtain ⟨c, u, rfl, hc⟩ := h.head
  exact skipBlanks_cons hc (u ++ v)

/-- A mark stands for itself. -/
theorem Token.of_mark (h : Token w r) (hc : isMark c) (hw : w ++ r = c :: u) : w = [c] := by
  cases h with
  | mark =>
    obtain ⟨rfl, -⟩ := List.cons.inj hw
    rfl
  | string =>
    obtain ⟨rfl, -⟩ := List.cons.inj hw
    -- a string begins with a quote, which is no mark
    cases hc
  | word hne hword =>
    obtain ⟨d, v, rfl⟩ := List.exists_cons_of_ne_nil hne
    obtain ⟨rfl, -⟩ := List.cons.inj hw
    have hd := hword d List.mem_cons_self
    -- no mark is a character of a word
    rw [isWordChar_of_isMark hc] at hd
    cases hd

/-- Only a string begins with a quote. -/
theorem Token.of_quote (h : Token w r) (hw : w ++ r = '"' :: u) :
    ∃ body, StringBody body ∧ w = '"' :: (body ++ ['"']) := by
  cases h with
  | mark hc =>
    obtain ⟨rfl, -⟩ := List.cons.inj hw
    cases hc
  | string hbody => exact ⟨_, hbody, rfl⟩
  | word hne hword =>
    obtain ⟨d, v, rfl⟩ := List.exists_cons_of_ne_nil hne
    obtain ⟨rfl, -⟩ := List.cons.inj hw
    cases hword '"' List.mem_cons_self

/-- What the reader of words takes something from is a word. -/
theorem Token.of_word {p : Json × List Char} (h : Token w r) (hw : word? (w ++ r) = some p) :
    AllIn isWordChar w ∧ Stops r := by
  cases h with
  | mark hc => rcases eq_of_isMark hc with rfl | rfl | rfl | rfl | rfl | rfl <;> cases hw
  | string => cases hw
  | word _ hword hr => exact ⟨hword, hr⟩

end Token

section Between

variable {P : List Char → List Char → Prop}

theorem Between.mark (hc : isMark c) (h : Between P r r') : Between P (c :: r) (c :: r') :=
  .token (.mark hc) h

/-- Putting something between tokens makes no text shorter. This lets the bound on the recursion be
the length of either text. -/
theorem Between.length_le (h : Between P t t') : t.length ≤ t'.length := by
  induction h with
  | nil => exact le_rfl
  | piece _ _ ih => simp only [List.length_append]; omega
  | blank _ _ ih => simp only [List.length_cons]; omega
  | token _ _ ih => simp only [List.length_append]; omega

end Between

section Tokens

/-- A blank ends a word too. -/
theorem stops_of_skipBlanks (h : Stops (skipBlanks t)) : Stops t := by
  cases t with
  | nil => exact .nil
  | cons c t =>
    by_cases hc : isBlank c
    · exact .cons (isWordChar_of_isBlank hc) t
    · rwa [skipBlanks_cons (Bool.eq_false_iff.mpr hc)] at h

/-- Blanks may stand before tokens. -/
theorem tokens_of_skipBlanks (h : Tokens (skipBlanks t)) : Tokens t := by
  induction t with
  | nil => exact h
  | cons c t ih =>
    by_cases hc : isBlank c
    · exact .blank hc (ih (by rwa [skipBlanks, List.dropWhile_cons_of_pos hc] at h))
    · rwa [skipBlanks_cons (Bool.eq_false_iff.mpr hc)] at h

/-- Before a mark a word ends, and with the mark there are tokens. -/
theorem Tokens.mark (hc : isMark c) (ht : skipBlanks t = c :: r) (hr : Tokens r) :
    Stops t ∧ Tokens t := by
  refine ⟨stops_of_skipBlanks ?_, tokens_of_skipBlanks ?_⟩
  · rw [ht]
    exact .cons (isWordChar_of_isMark hc) r
  · rw [ht]
    exact Between.mark hc hr

/-- A string that is read is a token. -/
theorem Tokens.string {s : Option String} (hs : string? r = some (s, u)) (hu : Tokens u) :
    Tokens ('"' :: r) := by
  obtain ⟨⟨us, v⟩, hunits, heq⟩ := Option.map_eq_some_iff.mp hs
  cases heq
  obtain ⟨body, hbody, rfl⟩ := exists_stringBody hunits
  have hr : '"' :: (body ++ '"' :: u) = '"' :: (body ++ ['"']) ++ u := by simp
  rw [hr]
  exact .token (.string hbody) hu

/-- What a reader of words takes of a text is a token or nothing. -/
theorem Tokens.word (hw : word? t = some (x, u)) (hstops : Stops u) (hu : Tokens u) :
    Tokens t := by
  obtain ⟨s, rfl, hs⟩ := word?_taken hw
  by_cases hnil : s = []
  · rwa [hnil]
  · exact .token (.word hnil hs hstops) hu

end Tokens

/-! ### More blanks -/

/-- Where a word ends it still ends with something put between. -/
theorem Spaced.stops (h : Spaced t t') (ht : Stops t) : Stops t' := by
  induction h with
  | nil => exact ht
  | @piece s t t' hs _ ih =>
    cases s with
    | nil => exact ih ht
    | cons c s => exact .cons (isWordChar_of_isBlank (hs c List.mem_cons_self)) (s ++ t')
  | blank hc => exact .cons (isWordChar_of_isBlank hc) _
  | token hw =>
    obtain ⟨c, u, rfl, -⟩ := hw.head
    exact ht

/-- Both texts begin with the same token, blanks in front left out, or have none. -/
theorem Spaced.front (h : Spaced t t') :
    skipBlanks t = [] ∧ skipBlanks t' = [] ∨
      ∃ w r r', Token w r ∧ skipBlanks t = w ++ r ∧ skipBlanks t' = w ++ r' ∧ Spaced r r' := by
  induction h with
  | nil => exact .inl ⟨rfl, rfl⟩
  | piece hs _ ih => rwa [skipBlanks_append hs]
  | blank hc _ ih =>
    rwa [skipBlanks, skipBlanks, List.dropWhile_cons_of_pos hc, List.dropWhile_cons_of_pos hc]
  | @token w r r' hw hr => exact .inr ⟨w, r, r', hw, hw.skipBlanks r, hw.skipBlanks r', hr⟩

/-- The first character that is no blank stays. -/
theorem Spaced.head? (h : Spaced t t') : (skipBlanks t').head? = (skipBlanks t).head? := by
  rcases h.front with ⟨ht, ht'⟩ | ⟨w, r, r', hw, ht, ht', -⟩
  · rw [ht, ht']
  · obtain ⟨c, u, rfl, -⟩ := hw.head
    rw [ht, ht']
    rfl

/-- A mark that one text begins with is found at the beginning of the other. -/
theorem Spaced.mark (h : Spaced t t') (hc : isMark c) (ht : skipBlanks t = c :: r) :
    ∃ r', skipBlanks t' = c :: r' ∧ Spaced r r' := by
  rcases h.front with ⟨hnil, -⟩ | ⟨w, v, v', hw, hv, hv', hrest⟩
  · rw [hnil] at ht
    cases ht
  · rw [hv] at ht
    obtain rfl := hw.of_mark hc ht
    obtain ⟨-, rfl⟩ := List.cons.inj ht
    exact ⟨v', hv', hrest⟩

/-- A string that one text begins with is found at the beginning of the other. -/
theorem Spaced.string {s : Option String} (h : Spaced t t') (ht : skipBlanks t = '"' :: r)
    (hs : string? r = some (s, u)) :
    ∃ r' u', skipBlanks t' = '"' :: r' ∧ string? r' = some (s, u') ∧ Spaced u u' := by
  rcases h.front with ⟨hnil, -⟩ | ⟨w, v, v', hw, hv, hv', hrest⟩
  · rw [hnil] at ht
    cases ht
  · rw [hv] at ht
    obtain ⟨body, hbody, rfl⟩ := hw.of_quote ht
    obtain ⟨us, hus⟩ := units?_stringBody hbody
    -- the reader takes the same units, whatever follows the closing quote
    have hread : ∀ v, string? (body ++ '"' :: v) = some ((spell? us).map String.ofList, v) := by
      intro v
      rw [string?, hus]
      rfl
    have hr : r = body ++ '"' :: v := by simpa using (List.cons.inj ht).2.symm
    rw [hr, hread] at hs
    cases hs
    exact ⟨body ++ '"' :: v', v', by simpa using hv', hread v', hrest⟩

/-- A word that one text begins with is found at the beginning of the other, with the rest of one
text spaced to the rest of the other. -/
theorem Spaced.word (h : Spaced t t') (hw : word? (skipBlanks t) = some (x, u)) :
    ∃ u', word? (skipBlanks t') = some (x, u') ∧ Spaced u u' := by
  rcases h.front with ⟨hnil, -⟩ | ⟨w, v, v', htoken, hv, hv', hrest⟩
  · rw [hnil] at hw
    cases hw
  · rw [hv] at hw
    obtain ⟨hword, hstops⟩ := htoken.of_word hw
    rw [word?_append hword hstops] at hw
    obtain ⟨⟨y, left⟩, hread, heq⟩ := Option.map_eq_some_iff.mp hw
    cases heq
    refine ⟨left ++ v', ?_, ?_⟩
    · rw [hv', word?_append hword (hrest.stops hstops), hread]
      rfl
    · -- what is left of the word is a word again
      obtain ⟨s, rfl, -⟩ := word?_taken hread
      have hleft : AllIn isWordChar left := fun c hc => hword c (List.mem_append_right s hc)
      by_cases hnil : left = []
      · rwa [hnil]
      · exact .token (.word hnil hleft hstops) hrest

/-! ### Readers -/

section Readers

variable {α : Type} {close : Char} {k : Option String}

/-- What the first reader reads is made of tokens, and where there are more blanks between them the
second one reads the same. -/
structure Reads (f g : List Char → Option (α × List Char)) : Prop where
  tokens : ∀ {t x rest}, f t = some (x, rest) → Stops rest → Tokens rest → Tokens t
  spaced : ∀ {t t' x rest}, f t = some (x, rest) → Spaced t t' →
    ∃ rest', g t' = some (x, rest') ∧ Spaced rest rest'

/-- What stands between brackets may be nothing, or whatever `f` reads. -/
theorem Reads.inside {f g : List Char → Option (List α × List Char)} (h : Reads f g)
    (hclose : isMark close) : Reads (inside? close f) (inside? close g) where
  tokens hread hstops hrest := by
    -- the list is empty and closed at once, or its members are read
    rcases inside?_eq_some_iff.mp hread with ⟨-, hend⟩ | ⟨-, hread⟩
    · exact (Tokens.mark hclose hend hrest).2
    · exact h.tokens hread hstops hrest
  spaced hread hspaced := by
    rcases inside?_eq_some_iff.mp hread with ⟨rfl, hend⟩ | ⟨hne, hread⟩
    · obtain ⟨rest', hend', hrest⟩ := hspaced.mark hclose hend
      exact ⟨rest', inside?_eq_some_iff.mpr (.inl ⟨rfl, hend'⟩), hrest⟩
    · obtain ⟨rest', hread', hrest⟩ := h.spaced hread hspaced
      exact ⟨rest', inside?_eq_some_iff.mpr (.inr ⟨hspaced.head? ▸ hne, hread'⟩), hrest⟩

/-- A list is its first element and then the bracket, or a comma and the other elements. -/
theorem Reads.listed {f g : List Char → Option (α × List Char)}
    {fs gs : List Char → Option (List α × List Char)} (h : Reads f g) (hs : Reads fs gs)
    (hclose : isMark close) (hne : close ≠ ',') :
    Reads (listed? close f fs) (listed? close g gs) where
  tokens hread hstops hrest := by
    obtain ⟨⟨x, u⟩, hx, hu⟩ := Option.bind_eq_some_iff.mp hread
    rcases (goOn?_eq_some_iff hne).mp hu with ⟨rfl, hend⟩ | ⟨v, ys, hcomma, hys, rfl⟩
    · -- the bracket comes next
      obtain ⟨hstops', htokens⟩ := Tokens.mark hclose hend hrest
      exact h.tokens hx hstops' htokens
    · -- a comma comes next, and the others behind it
      obtain ⟨hstops', htokens⟩ := Tokens.mark (by decide) hcomma (hs.tokens hys hstops hrest)
      exact h.tokens hx hstops' htokens
  spaced hread hspaced := by
    obtain ⟨⟨x, u⟩, hx, hu⟩ := Option.bind_eq_some_iff.mp hread
    obtain ⟨u', hx', hspaced'⟩ := h.spaced hx hspaced
    rcases (goOn?_eq_some_iff hne).mp hu with ⟨rfl, hend⟩ | ⟨v, ys, hcomma, hys, rfl⟩
    · -- the bracket comes next in the other text too
      obtain ⟨rest', hend', hrest⟩ := hspaced'.mark hclose hend
      refine ⟨rest', Option.bind_eq_some_iff.mpr ⟨(x, u'), hx', ?_⟩, hrest⟩
      exact (goOn?_eq_some_iff hne).mpr (.inl ⟨rfl, hend'⟩)
    · -- so does the comma
      obtain ⟨v', hcomma', hv⟩ := hspaced'.mark (by decide) hcomma
      obtain ⟨rest', hys', hrest⟩ := hs.spaced hys hv
      refine ⟨rest', Option.bind_eq_some_iff.mpr ⟨(x, u'), hx', ?_⟩, hrest⟩
      exact (goOn?_eq_some_iff hne).mpr (.inr ⟨v', ys, hcomma', hys', rfl⟩)

/-- A field is a string, a colon and whatever `f` reads. -/
theorem Reads.keyed {f g : List Char → Option (α × List Char)} (h : Reads f g) :
    Reads (keyed? f) (keyed? g) where
  tokens {t e rest} hread hstops hrest := by
    -- a string, a colon and a value, one after the other
    obtain ⟨r, u, v, ht, hk, hcolon, hx⟩ := keyed?_eq_some_iff.mp hread
    have hu : Tokens u := (Tokens.mark (by decide) hcolon (h.tokens hx hstops hrest)).2
    exact tokens_of_skipBlanks (ht ▸ Tokens.string hk hu)
  spaced hread hspaced := by
    obtain ⟨r, u, v, ht, hk, hcolon, hx⟩ := keyed?_eq_some_iff.mp hread
    obtain ⟨r', u', ht', hk', hu⟩ := hspaced.string ht hk
    obtain ⟨v', hcolon', hv⟩ := hu.mark (by decide) hcolon
    obtain ⟨rest', hx', hrest⟩ := h.spaced hx hv
    exact ⟨rest', keyed?_eq_some_iff.mpr ⟨r', u', v', ht', hk', hcolon', hx'⟩, hrest⟩

/-- A value, when arrays and objects are read one level below. -/
theorem Reads.value {n m : Nat} (hitems : Reads (items? n) (items? m))
    (hentries : Reads (entries? n) (entries? m)) : Reads (value? (n + 1)) (value? (m + 1)) where
  tokens {t x rest} hread hstops hrest := by
    have hat := value?_eq_some_iff.mp hread
    generalize ht : skipBlanks t = u at hat
    cases hat with
    -- only a word needs to know what follows it, for there it ends
    | word hw => exact tokens_of_skipBlanks (ht ▸ Tokens.word hw hstops hrest)
    | string hs => exact tokens_of_skipBlanks (ht ▸ Tokens.string hs hrest)
    | array hxs =>
      have hr := (hitems.inside (by decide)).tokens hxs hstops hrest
      exact (Tokens.mark (by decide) ht hr).2
    | object hes =>
      have hr := (hentries.inside (by decide)).tokens hes hstops hrest
      exact (Tokens.mark (by decide) ht hr).2
  spaced {t t' x rest} hread hspaced := by
    have hat := value?_eq_some_iff.mp hread
    generalize ht : skipBlanks t = u at hat
    cases hat with
    | word hw =>
      obtain ⟨rest', hw', hrest⟩ := hspaced.word (ht ▸ hw)
      exact ⟨rest', value?_eq_some_iff.mpr (.word hw'), hrest⟩
    | string hs =>
      obtain ⟨r', rest', ht', hs', hrest⟩ := hspaced.string ht hs
      exact ⟨rest', value?_eq_some_iff.mpr (ht' ▸ .string hs'), hrest⟩
    | array hxs =>
      obtain ⟨r', ht', hr⟩ := hspaced.mark (by decide) ht
      obtain ⟨rest', hxs', hrest⟩ := (hitems.inside (by decide)).spaced hxs hr
      exact ⟨rest', value?_eq_some_iff.mpr (ht' ▸ .array hxs'), hrest⟩
    | object hes =>
      obtain ⟨r', ht', hr⟩ := hspaced.mark (by decide) ht
      obtain ⟨rest', hes', hrest⟩ := (hentries.inside (by decide)).spaced hes hr
      exact ⟨rest', value?_eq_some_iff.mpr (ht' ▸ .object hes'), hrest⟩

/-- What reads nothing reads alike. This is the end of the recursion. -/
theorem Reads.of_none {f g : List Char → Option (α × List Char)} (h : ∀ t, f t = none) :
    Reads f g where
  tokens hread := by
    rw [h] at hread
    cases hread
  spaced hread := by
    rw [h] at hread
    cases hread

/-- Values, at whatever depth, and with a larger bound on it for the text with more blanks. -/
theorem reads {n m : Nat} (h : n ≤ m) :
    Reads (value? n) (value? m) ∧ Reads (items? n) (items? m) ∧
      Reads (entries? n) (entries? m) := by
  -- on the depth; the second bound is free, because the text with more blanks is longer
  induction n generalizing m with
  | zero => exact ⟨.of_none fun _ => rfl, .of_none fun _ => rfl, .of_none fun _ => rfl⟩
  | succ n ih =>
    obtain ⟨m, rfl⟩ := Nat.exists_eq_add_of_le' (Nat.one_le_of_lt h)
    obtain ⟨hvalue, hitems, hentries⟩ := ih (Nat.le_of_succ_le_succ h)
    refine ⟨.value hitems hentries, ?_, ?_⟩
    · rw [items?_succ, items?_succ]
      exact hvalue.listed hitems (by decide) (by decide)
    · rw [entries?_succ, entries?_succ]
      exact hvalue.keyed.listed hentries (by decide) (by decide)

end Readers

end Reader

/-! ### Whole texts -/

open Reader

variable {t t' : List Char} {j : Json}

/-- A text is parsed to the value that is read at its beginning, if only blanks follow. -/
theorem parse?_eq_some_iff :
    parse? t = some j ↔
      ∃ rest, value? (t.length + 1) t = some (j, rest) ∧ skipBlanks rest = [] := by
  rw [parse?]
  split
  · next x rest hx => simp [hx, and_comm]
  · next hnone => simp [hnone]

/-- A text that spells a value is made of tokens. -/
theorem tokens_of_parse? (h : parse? t = some j) : Tokens t := by
  obtain ⟨rest, hread, hrest⟩ := parse?_eq_some_iff.mp h
  have hstops : Stops rest := stops_of_skipBlanks (hrest ▸ .nil)
  have htokens : Tokens rest := tokens_of_skipBlanks (hrest ▸ .nil)
  exact (reads le_rfl).1.tokens hread hstops htokens

/-- **More blanks.** With more blanks between its tokens, a text spells the same value. -/
theorem parse?_of_spaced (h : parse? t = some j) (hspaced : Spaced t t') : parse? t' = some j := by
  obtain ⟨rest, hread, hrest⟩ := parse?_eq_some_iff.mp h
  have hlength : t.length + 1 ≤ t'.length + 1 := Nat.succ_le_succ hspaced.length_le
  obtain ⟨rest', hread', hspaced'⟩ := (reads hlength).1.spaced hread hspaced
  have hrest' : skipBlanks rest' = [] := by
    rw [← List.head?_eq_none_iff, hspaced'.head?, hrest]
    rfl
  exact parse?_eq_some_iff.mpr ⟨rest', hread', hrest'⟩

end ImportAtlas.Json
