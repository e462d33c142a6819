import ImportAtlas.Proofs.Pattern
import ImportAtlas.Proofs.Source.Layout
import ImportAtlas.Source.Python

/-!
# What the patterns of statements match

Both patterns begin with the indentation and a keyword and end with the rest of the text, without
the blanks at its end.

* `mem_ends_keyword`, `search?_keyword` — a statement is searched for at the beginning of the text;
* `mem_ends_restOfText` — the last part of a statement;
* `exists_search?_import` — what is read of an `import` statement;
* `search?_from_of_import` — which is no statement of the other kind.
-/

namespace ImportAtlas.Source.Python

open Pattern

variable {n : Nat} {p e : Place} {a : Pattern} {i t r : List Char}

/-! ### The beginning and the end of a statement -/

/-- The indent is matched at the beginning of the text only, by any of its beginnings. -/
theorem mem_ends_indent : e ∈ ends n indent p ↔
    p.before = none ∧ ∃ i r, AllIn isIndentChar i ∧ p.rest = i ++ r ∧
      e = p.captured "indent" i r := by
  rw [indent, mem_ends_seq_textStart]
  exact and_congr_right fun _ => mem_ends_group spans_run

/-- An indent and a keyword, at the beginning of the text, and the rest of the pattern behind
them. -/
theorem mem_ends_keyword {keyword : String} :
    e ∈ ends n (seq indent (seq (literal keyword) a)) p ↔
      p.before = none ∧ ∃ i r, AllIn isIndentChar i ∧ p.rest = i ++ (keyword.toList ++ r) ∧
        e ∈ ends n a ((p.captured "indent" i (keyword.toList ++ r)).past keyword.toList r) := by
  rw [mem_ends_seq]
  constructor
  · -- the indent is left, then the letters of the keyword
    rintro ⟨q, hq, he⟩
    obtain ⟨hbefore, i, r, hi, hr, rfl⟩ := mem_ends_indent.mp hq
    obtain ⟨_, r', rfl, hr', he⟩ := (mem_ends_seq_of_spans (spans_literal keyword)).mp he
    obtain rfl : r = keyword.toList ++ r' := hr'
    exact ⟨hbefore, i, r', hi, hr, he⟩
  · rintro ⟨hbefore, i, r, hi, hr, he⟩
    exact ⟨_, mem_ends_indent.mpr ⟨hbefore, i, _, hi, hr, rfl⟩,
      (mem_ends_seq_of_spans (spans_literal keyword)).mpr ⟨_, r, rfl, rfl, he⟩⟩

/-- A statement is searched for at the beginning of the text. -/
theorem search?_keyword (keyword : String) (a : Pattern) (text : List Char) :
    search? (seq indent (seq (literal keyword) a)) text =
      (ends text.length (seq indent (seq (literal keyword) a)) (Place.first text)).head?.map
        (⟨0, ·⟩) :=
  search?_of_textStart fun _ hp => List.eq_nil_iff_forall_not_mem.mpr fun _ he =>
    hp (mem_ends_keyword.mp he).1

/-- The rest of the line is a text that is not empty and, behind it, blanks to the end. How many of
the blanks at the end belong to the text is left open: a match takes the first possibility. -/
theorem mem_ends_restOfText {name : String} : e ∈ ends n (restOfText name) p ↔
    ∃ t b, t ≠ [] ∧ '\n' ∉ t ∧ Text.Blanks b ∧ p.rest = t ++ b ∧
      e = (p.captured name t b).past b [] := by
  have hsequence : restOfText name =
      seq (group name (few1 (· != '\n'))) (seq blanks textEnd) := rfl
  -- a text of characters that end no line is one without a line end
  have hline : ∀ t : List Char, (∀ c ∈ t, (c != '\n') = true) ↔ '\n' ∉ t := fun t => by
    simp only [bne_iff_ne]
    exact ⟨fun h hmem => h _ hmem rfl, fun h c hc heq => h (heq ▸ hc)⟩
  rw [hsequence, mem_ends_seq_group spans_few1]
  constructor
  · rintro ⟨t, r, ⟨hne, ht⟩, hr, he⟩
    obtain ⟨b, r', hb, hr', he⟩ := (mem_ends_seq_of_spans spans_run).mp he
    obtain ⟨hnil, rfl⟩ := mem_ends_textEnd.mp he
    obtain rfl : r' = [] := hnil
    obtain rfl : r = b := by simpa using hr'
    exact ⟨t, r, hne, (hline t).mp ht, hb, hr, rfl⟩
  · rintro ⟨t, b, hne, ht, hb, hr, rfl⟩
    exact ⟨t, b, ⟨hne, (hline t).mpr ht⟩, hr,
      (mem_ends_seq_of_spans spans_run).mpr ⟨b, [], hb, by simp, mem_ends_textEnd.mpr ⟨rfl, rfl⟩⟩⟩

/-- The keyword of a text behind its indentation is known. -/
theorem indent_inj {i i' x y : List Char} {c d : Char} (hi : AllIn isIndentChar i)
    (hi' : AllIn isIndentChar i') (hc : isIndentChar c = false) (hd : isIndentChar d = false)
    (h : i ++ c :: x = i' ++ d :: y) : i = i' ∧ c = d ∧ x = y := by
  refine Text.append_cons_inj (P := fun c => ¬ isIndentChar c) h (fun c hc hn => hn (hi c hc)) ?_
    (fun c hc hn => hn (hi' c hc)) ?_
  · simp [hc]
  · simp [hd]

/-! ### Imports -/

/-- The pattern of an `import` finds the statement at its indent, and its body is the list up to
blanks. The match is the first of several ends. All of them have the same indent, since the indent
is where the keyword begins. -/
theorem exists_search?_import {b : List Char} (hi : AllIn isIndentChar i) (hb0 : b ≠ [])
    (hb : Text.Blanks b) (hne : t ≠ []) (hline : '\n' ∉ t) :
    ∃ m, search? importStatement (i ++ ("import".toList ++ (b ++ t))) = some m ∧
      m.finish.group "indent" = i ∧ ∃ b₁ b₂, Text.Blanks b₁ ∧ Text.Blanks b₂ ∧
        b ++ t = b₁ ++ m.finish.group "body" ++ b₂ := by
  let text := i ++ ("import".toList ++ (b ++ t))
  -- one end exists, so there is a first one
  have hexists : ∃ e, e ∈ ends text.length importStatement (Place.first text) :=
    ⟨_, mem_ends_keyword.mpr ⟨rfl, i, b ++ t, hi, rfl, (mem_ends_seq_of_spans spans_many1).mpr
      ⟨b, t, ⟨hb0, hb⟩, rfl, mem_ends_restOfText.mpr
        ⟨t, [], hne, hline, .nil, (List.append_nil t).symm, rfl⟩⟩⟩⟩
  obtain ⟨e, he⟩ := Option.ne_none_iff_exists'.mp
    (mt List.head?_eq_none_iff.mp (List.ne_nil_of_mem hexists.choose_spec))
  refine ⟨⟨0, e⟩, (search?_keyword "import" _ text).trans (congrArg (Option.map _) he), ?_⟩
  -- what the first one is, part by part of the pattern
  obtain ⟨-, i', r, hi', hr, he⟩ := mem_ends_keyword.mp (List.mem_of_mem_head? he)
  obtain ⟨b₁, r', ⟨-, hb₁⟩, hr', he⟩ := (mem_ends_seq_of_spans spans_many1).mp he
  obtain ⟨t', b₂, -, -, hb₂, hr'', rfl⟩ := mem_ends_restOfText.mp he
  obtain ⟨rfl, -, hbehind⟩ := indent_inj hi hi' (by decide) (by decide)
    (c := 'i') (d := 'i') (x := "mport".toList ++ (b ++ t)) (y := "mport".toList ++ r) hr
  obtain rfl : b ++ t = r := List.append_cancel_left hbehind
  rw [Place.past_rest] at hr' hr''
  refine ⟨?_, b₁, b₂, hb₁, hb₂, ?_⟩
  · simp [Place.group_captured_of_ne]
  · simp [hr', hr'']

/-- The pattern of a `from` statement, with the first two parts apart. -/
theorem fromStatement_eq : fromStatement =
    seq indent (seq (literal "from") (seq
      (group "dots" (alt
        (sequence [blanks, one (· == '.'), many fun c => Text.isBlank c || c == '.']) blanks1))
      (seq (optional (group "path" (seq pathSegment
        (star (sequence [blanks, one (· == '.'), blanks, pathSegment])))))
        (seq blanks (seq (literal "import") (seq blanks (restOfText "names"))))))) := rfl

/-- A text with the keyword `import` is no statement of the other kind. -/
theorem search?_from_of_import (hi : AllIn isIndentChar i) (r : List Char) :
    search? fromStatement (i ++ ("import".toList ++ r)) = none := by
  rw [fromStatement_eq, search?_keyword, Option.map_eq_none_iff, List.head?_eq_none_iff,
    List.eq_nil_iff_forall_not_mem]
  intro e he
  obtain ⟨-, i', r', hi', hr, -⟩ := mem_ends_keyword.mp he
  obtain ⟨-, hkeyword, -⟩ := indent_inj hi hi' (by decide) (by decide)
    (c := 'i') (d := 'f') (x := "mport".toList ++ r) (y := "rom".toList ++ r') hr
  exact absurd hkeyword (by decide)

end ImportAtlas.Source.Python
