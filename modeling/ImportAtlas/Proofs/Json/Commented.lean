import ImportAtlas.Discovery
import ImportAtlas.Proofs.Json.Spaced
import ImportAtlas.Proofs.Source.Comment

/-!
# JSON with comments

Blanking takes the comments out of a text of JSON and leaves its tokens alone: comments become
blanks, quotes in them begin nothing, and what looks like a comment in a string is none.

* `IsComment`, `Commented` — comments between the tokens of a text;
* `blankFrom_token`, `blankFrom_isComment` — what blanking does with a token and
  with a comment, whatever follows;
* `blankFrom_between` — from these, what it does with the whole text: the comments become blanks
  between the same tokens;
* `parse?_blankComments` — so the value is that of the text without comments.
-/

namespace ImportAtlas.Json

open Reader
open Source (AllIn blankComments blankFrom blankFrom_blockComment blankFrom_comment blankFrom_inert
  blanksFor isInert mem_blanksFor)

/-! ### Comments -/

/-- A comment, with what follows it. One that runs to the end of its line may bring the end of the
line along. -/
inductive IsComment : List Char → List Char → Prop where
  | line {body r} (hbody : '\n' ∉ body) (hr : r = [] ∨ ∃ s, r = '\n' :: s) :
      IsComment ('/' :: '/' :: body) r
  | wholeLine {body r} (hbody : '\n' ∉ body) : IsComment ('/' :: '/' :: (body ++ ['\n'])) r
  | block {body r} (hbody : ¬ "*/".toList <:+: body) :
      IsComment ('/' :: '*' :: (body ++ "*/".toList)) r

/-- The second text is the first with comments between its tokens. -/
abbrev Commented : List Char → List Char → Prop :=
  Between IsComment

/-! ### Tokens are left alone -/

variable {body r t t' w : List Char}

/-- A character that goes on quoted text. -/
theorem blankFrom_quoted_cons {c : Char} (hquote : c ≠ '"') (hback : c ≠ '\\') (hline : c ≠ '\n')
    (r : List Char) : blankFrom (.quoted '"') (c :: r) = c :: blankFrom (.quoted '"') r := by
  rw [blankFrom, if_neg (by simp [hquote, hline])]
  simp [hback]

/-- A digit of an escape does not end a string. -/
theorem blankFrom_hexDigit {c : Char} (hc : ∃ n, Text.hexDigit? c = some n) (r : List Char) :
    blankFrom (.quoted '"') (c :: r) = c :: blankFrom (.quoted '"') r := by
  obtain ⟨n, hn⟩ := hc
  apply blankFrom_quoted_cons <;>
    · rintro rfl
      cases hn

/-- Four characters that give a number are digits. -/
theorem hexDigits_of_hex4? {a b c d : Char} {n : Nat} (h : hex4? a b c d = some n) :
    (∃ n, Text.hexDigit? a = some n) ∧ (∃ n, Text.hexDigit? b = some n) ∧
      (∃ n, Text.hexDigit? c = some n) ∧ ∃ n, Text.hexDigit? d = some n := by
  simp only [hex4?, List.mapM_cons, List.mapM_nil, Option.bind_eq_bind, Option.pure_def,
    Option.bind_eq_some_iff] at h
  obtain ⟨_, ⟨i, hi, _, ⟨j, hj, _, ⟨k, hk, _, ⟨l, hl, -⟩, -⟩, -⟩, -⟩, -⟩ := h
  exact ⟨⟨i, hi⟩, ⟨j, hj⟩, ⟨k, hk⟩, ⟨l, hl⟩⟩

/-- A string stays as it is, and code follows its closing quote. -/
theorem blankFrom_stringBody (h : StringBody body) (r : List Char) :
    blankFrom (.quoted '"') (body ++ '"' :: r) = body ++ '"' :: blankFrom .code r := by
  induction h with
  | nil =>
    rw [List.nil_append, blankFrom, if_pos (.inl rfl), List.nil_append]
    simp
  | @char c body hquote hback hcontrol _ ih =>
    -- the end of a line would end the quoted text, but no string holds one as it is
    have hline : c ≠ '\n' := by
      rintro rfl
      exact hcontrol (by decide)
    rw [List.cons_append, blankFrom_quoted_cons hquote hback hline, ih, List.cons_append]
  | @escape c body hc _ ih => rw [List.cons_append, List.cons_append, blankFrom, ih]; rfl
  | @unicode a b c d n body hn _ ih =>
    obtain ⟨ha, hb, hc, hd⟩ := hexDigits_of_hex4? hn
    simp only [List.cons_append, blankFrom, blankFrom_hexDigit ha, blankFrom_hexDigit hb,
      blankFrom_hexDigit hc, blankFrom_hexDigit hd, ih]

theorem isInert_of_isMark {c : Char} (h : isMark c) : isInert c := by
  rcases eq_of_isMark h with rfl | rfl | rfl | rfl | rfl | rfl <;> decide

/-- A character of a word neither opens a string nor begins a comment. -/
theorem isInert_of_isWordChar {c : Char} (h : isWordChar c) : isInert c := by
  simp only [isInert, Bool.not_eq_true', Bool.or_eq_false_iff, beq_eq_false_iff_ne]
  refine ⟨⟨⟨?_, ?_⟩, ?_⟩, ?_⟩ <;>
    · rintro rfl
      cases h

theorem isInert_of_isBlank {c : Char} (h : isBlank c) : isInert c := by
  rcases eq_of_isBlank h with rfl | rfl | rfl | rfl <;> decide

/-- **Tokens stay.** A string is the only token in which the marks of comments may stand, and they
are nothing there. -/
theorem blankFrom_token (h : Token w r) (v : List Char) :
    blankFrom .code (w ++ v) = w ++ blankFrom .code v := by
  cases h with
  | mark hc => exact blankFrom_inert (List.forall_mem_singleton.mpr (isInert_of_isMark hc)) v
  | @string body _ hbody =>
    simp only [List.cons_append, List.append_assoc, List.nil_append]
    rw [blankFrom, if_pos (.inl rfl), blankFrom_stringBody hbody]
    all_goals simp
  | word _ hw => exact blankFrom_inert (fun c hc => isInert_of_isWordChar (hw c hc)) v

/-! ### Comments become blanks -/

/-- What takes the place of a comment is blank. -/
theorem isBlank_blanksFor (t : List Char) : AllIn isBlank (t.flatMap blanksFor) := by
  intro c hc
  obtain ⟨d, -, hd⟩ := List.mem_flatMap.mp hc
  rw [mem_blanksFor hd]
  rfl

theorem allIn_blanks {s : List Char} (h : AllIn isBlank s) : AllIn isBlank (' ' :: ' ' :: s) :=
  List.forall_mem_cons.mpr ⟨rfl, List.forall_mem_cons.mpr ⟨rfl, h⟩⟩

/-- A comment becomes blanks, and code follows it. -/
theorem blankFrom_isComment (h : IsComment w r) :
    ∃ s, AllIn isBlank s ∧ blankFrom .code (w ++ r) = s ++ blankFrom .code r := by
  cases h with
  | @line body _ hbody hr =>
    exact ⟨' ' :: ' ' :: body.flatMap blanksFor, allIn_blanks (isBlank_blanksFor body),
      blankFrom_comment hbody hr⟩
  | @wholeLine body _ hbody =>
    refine ⟨' ' :: ' ' :: (body.flatMap blanksFor ++ ['\n']),
      allIn_blanks ((isBlank_blanksFor body).append (.of_all rfl)), ?_⟩
    -- the end of the line is code again
    have hend : blankFrom .code ('\n' :: r) = '\n' :: blankFrom .code r :=
      blankFrom_inert (t := ['\n']) (by decide) r
    have hblank := blankFrom_comment hbody (.inr ⟨r, rfl⟩)
    rw [hend] at hblank
    simpa using hblank
  | @block body _ hbody =>
    obtain ⟨v, hv, hblank⟩ := blankFrom_blockComment hbody r
    have hblanks : AllIn isBlank v := by
      intro c hc
      rcases hv c hc with rfl | rfl <;> rfl
    refine ⟨' ' :: ' ' :: v, allIn_blanks hblanks, ?_⟩
    rw [List.cons_append, List.cons_append, blankFrom, hblank]
    rfl

/-- What blanking does with the pieces between tokens it does with the whole text. -/
theorem blankFrom_between {P Q : List Char → List Char → Prop}
    (hpiece : ∀ {w r}, P w r → ∃ s, Q s (blankFrom .code r) ∧
      blankFrom .code (w ++ r) = s ++ blankFrom .code r)
    (h : Between P t t') : Between Q t (blankFrom .code t') := by
  induction h with
  | nil => exact .nil
  | piece hs _ ih =>
    -- a piece becomes what `Q` allows, and the rest is code again
    obtain ⟨s, hs', hblank⟩ := hpiece hs
    rw [hblank]
    exact .piece hs' ih
  | @blank c t t' hc _ ih =>
    -- a blank between tokens is no part of a comment
    have hinert : blankFrom .code ([c] ++ t') = [c] ++ blankFrom .code t' :=
      blankFrom_inert (List.forall_mem_singleton.mpr (isInert_of_isBlank hc)) t'
    rw [List.singleton_append, List.singleton_append] at hinert
    rw [hinert]
    exact .blank hc ih
  | @token w r r' hw _ ih =>
    rw [blankFrom_token hw]
    exact .token hw ih

theorem spaced_blankComments (h : Commented t t') : Spaced t (blankComments t') :=
  blankFrom_between blankFrom_isComment h

/-- Without pieces there is nothing more. -/
theorem eq_of_between (h : Between (fun _ _ => False) t t') : t' = t := by
  induction h with
  | nil => rfl
  | piece hs => exact hs.elim
  | blank _ _ ih => rw [ih]
  | token _ _ ih => rw [ih]

theorem blankComments_of_tokens (h : Tokens t) : blankComments t = t :=
  eq_of_between (blankFrom_between (fun hs => hs.elim) h)

/-! ### Settings with comments -/

/-- What is written for a text is a string. -/
theorem token_quoted (s : String) : Token (quoted s) r := by
  obtain ⟨body, hbody, hs⟩ := exists_stringBody (units?_escaped s.toList r)
  rw [quoted, List.append_cancel_right hs]
  exact .string hbody

/-- Settings with one alias, with a text in front of their options and one at their end. -/
def settings (note last : List Char) : List Char :=
  '\x7b' :: (quoted "compilerOptions" ++ ':' :: (note ++ '\x7b' :: (quoted "paths" ++ ':' ::
    '\x7b' :: (quoted "@/*" ++ ':' :: '[' :: (quoted "src//" ++
      ']' :: '\x7d' :: '\x7d' :: '\x7d' :: last)))))

/-- A comment with an opening quote. -/
def openingNote : List Char :=
  '/' :: '/' :: (" the \"base".toList ++ ['\n'])

/-- A comment with marks of other comments and a quote in it. -/
def closingNote : List Char :=
  '/' :: '*' :: (" that's it // ".toList ++ "*/".toList)

/-- Both comments stand between tokens. -/
theorem commented_settings : Commented (settings [] []) (settings openingNote closingNote) := by
  have hlast : Commented [] (closingNote ++ []) := .piece (.block (by decide)) .nil
  rw [List.append_nil] at hlast
  have htargets : Commented ('[' :: (quoted "src//" ++ ']' :: '\x7d' :: '\x7d' :: ['\x7d']))
      ('[' :: (quoted "src//" ++ ']' :: '\x7d' :: '\x7d' :: '\x7d' :: closingNote)) :=
    .mark rfl (.token (token_quoted _) (.mark rfl (.mark rfl (.mark rfl (.mark rfl hlast)))))
  exact .mark rfl (.token (token_quoted _) (.mark rfl (.piece (.wholeLine (by decide))
    (.mark rfl (.token (token_quoted _) (.mark rfl (.mark rfl (.token (token_quoted _)
      (.mark rfl htargets)))))))))

/-- What the text stands for. -/
def settingsValue : Json :=
  .object [(some "compilerOptions",
    .object [(some "paths", .object [(some "@/*", .array [.ofText "src//"])])])]

def settingsDisk (text : List Char) : Disk :=
  { tree := .directory [("tsconfig.json", .file (String.ofList text).toUTF8)] }

/-! ### The value -/

/-- **Comments.** A text that spells a value is made of tokens, and blanking leaves it alone. With
comments between its tokens, however many and whatever is in them, the blanked text spells the same
value, and settings with such comments define the same path aliases. -/
theorem parse?_blankComments {j : Json} (h : parse? t = some j) :
    Tokens t ∧ blankComments t = t ∧ ∀ t', Commented t t' →
      parse? (blankComments t') = some j ∧
        ∀ (d d' : Disk) (root : Path),
          d.readText (root.join "tsconfig.json") = .ok (String.ofList t) →
          d'.readText (root.join "tsconfig.json") = .ok (String.ofList t') →
          Discovery.pathAliases d' root = Discovery.pathAliases d root := by
  have htokens : Tokens t := tokens_of_parse? h
  have hsame : blankComments t = t := blankComments_of_tokens htokens
  refine ⟨htokens, hsame, fun t' ht' => ?_⟩
  -- blanked comments are blanks between tokens
  have hvalue : parse? (blankComments t') = some j := parse?_of_spaced h (spaced_blankComments ht')
  refine ⟨hvalue, fun d d' root hd hd' => ?_⟩
  -- the aliases are read off the value alone
  rw [Discovery.pathAliases, Discovery.pathAliases, hd, hd']
  simp only [String.toList_ofList, hvalue, hsame, h]

/-- A comment behind a key and one at the end leave the settings what they are, with a quote in the
first and slashes in the other: the one alias is read from both files. -/
theorem parse?_blankComments_of_settings :
    parse? (settings [] []) = some settingsValue ∧
      parse? (blankComments (settings openingNote closingNote)) = some settingsValue ∧
      Discovery.pathAliases (settingsDisk (settings openingNote closingNote)) ⟨"/"⟩ =
        [("@/*", ⟨"/src"⟩)] := by
  have hvalue : parse? (settings [] []) = some settingsValue := rfl
  obtain ⟨-, -, hcommented⟩ := parse?_blankComments hvalue
  obtain ⟨hblanked, haliases⟩ := hcommented _ commented_settings
  have hplain : Discovery.pathAliases (settingsDisk (settings [] [])) ⟨"/"⟩ =
      [("@/*", ⟨"/src"⟩)] := by
    decide +kernel
  exact ⟨hvalue, hblanked, (haliases _ _ _ rfl rfl).trans hplain⟩

end ImportAtlas.Json
