import ImportAtlas.Proofs.Source.Python.Match
import ImportAtlas.Proofs.Source.Python.Word

/-!
# What the pattern of statements with a path reads

Each part of the pattern takes as much as it can: the dots the blanks behind them, the path all of
its segments. Where there is no path, the second keyword is tried as one before the empty path is.

* `head?_ends_dots`, `head?_ends_path`, `exists_head?_ends_names` — the preferred end of each part;
* `ends_path_eq_nil` — when the second keyword is not read as a path;
* `exists_search?_from` — what is read of a statement.
-/

namespace ImportAtlas.Source.Python

open Pattern

variable {n : Nat} {p q e : Place} {a b : Pattern} {i r body w : List Char} {c : Char}

/-! ### Words of ASCII characters -/

namespace Word

/-- No character of the word is outside ASCII. -/
def Ascii (w : Word) : Prop :=
  ∀ c ∈ w.chars, c.toNat < 128

theorem isAlpha_of_early : ∀ c : Char, c.toNat < 128 → Text.isAlphabetic c → c.isAlpha :=
  Text.forall_early (by decide +kernel)

theorem isWord_of_early : ∀ c : Char, c.toNat < 128 → isWordChar c → Text.isWord c :=
  Text.forall_early (by decide +kernel)

variable {w : Word}

theorem Ascii.isWord (h : w.Ascii) : ∀ c ∈ w.chars, Text.isWord c := fun c hc =>
  isWord_of_early c (h c hc) (w.allIn c hc)

/-- A word of ASCII characters is a segment of a path. -/
theorem Ascii.exists_cons (h : w.Ascii) :
    ∃ c r, w.chars = c :: r ∧ (c.isAlpha || c == '_') ∧ ∀ d ∈ r, Text.isWord d := by
  obtain ⟨c, r, hw⟩ := List.exists_cons_of_ne_nil w.ne_nil
  have hfirst := w.isIdentifier
  have hword := h.isWord
  rw [hw] at hfirst hword
  refine ⟨c, r, hw, ?_, fun d hd => hword d (.tail _ hd)⟩
  have halpha := isAlpha_of_early c (h c (by simp [hw]))
  rcases Bool.or_eq_true_iff.mp (Bool.and_eq_true_iff.mp hfirst).1 with hc | hc
  · exact Bool.or_eq_true_iff.mpr (.inr hc)
  · exact Bool.or_eq_true_iff.mpr (.inl (halpha hc))

end Word

/-! ### Parts of the pattern -/

/-- The dots of a relative path, or blanks. -/
def dotsPart : Pattern :=
  alt (sequence [blanks, one (· == '.'), many fun c => Text.isBlank c || c == '.']) blanks1

/-- A dot and a segment behind it, with blanks around the dot. -/
def dottedSegment : Pattern :=
  sequence [blanks, one (· == '.'), blanks, pathSegment]

/-- The keyword behind the path, and the names. -/
def namesPart : Pattern :=
  sequence [blanks, literal "import", blanks, restOfText "names"]

/-- The pattern of a `from` statement, part by part. -/
theorem fromStatement_eq_parts : fromStatement =
    seq indent (seq (literal "from") (seq (group "dots" dotsPart)
      (seq (optional (group "path" (seq pathSegment (star dottedSegment)))) namesPart))) := rfl

/-- There is no match behind blanks when a word that it needs does not stand there. -/
theorem ends_blanks_eq_nil (ha : Spans n a {w}) (hw : Text.Solid w)
    (h : ¬ w <+: Text.trimStart p.rest) : ends n (seq blanks (seq a b)) p = [] := by
  rw [List.eq_nil_iff_forall_not_mem]
  intro e he
  obtain ⟨t, r, ht, hr, he⟩ := (mem_ends_seq_of_spans spans_run).mp he
  obtain ⟨t', r', ht', hr', -⟩ := (mem_ends_seq_of_spans ha).mp he
  obtain rfl : t' = w := ht'
  obtain rfl : r = t' ++ r' := hr'
  obtain ⟨c, u, rfl, hc⟩ := hw.head
  refine h ⟨r', ?_⟩
  rw [hr, Text.trimStart_append ht, List.cons_append, Text.trimStart_of_head hc]

/-- The pattern of a dot goes over a dot. -/
theorem spans_dot : Spans n (one (· == '.')) {['.']} :=
  spans_one.congr (Language.ext fun u => by
    rw [mem_oneOf]
    constructor
    · rintro ⟨c, hc, rfl⟩
      rw [beq_iff_eq.mp hc]
      rfl
    · rintro rfl
      exact ⟨'.', rfl, rfl⟩)

/-- Without a dot behind the blanks the path does not go on. -/
theorem dottedSegment_eq_nil (h : ¬ ['.'] <+: Text.trimStart p.rest) :
    ends n dottedSegment p = [] :=
  ends_blanks_eq_nil spans_dot (.singleton (by decide)) h

/-- Without the keyword behind the blanks there are no names. -/
theorem namesPart_eq_nil (h : ¬ "import".toList <+: Text.trimStart p.rest) :
    ends n namesPart p = [] :=
  ends_blanks_eq_nil (spans_literal "import") (.of_forall (by decide) (by simp [Text.isBlank])) h

/-! ### The preferred end of each part -/

/-- The first end of the indent takes all of it. -/
theorem head?_ends_indent (hbefore : p.before = none) (hp : p.rest = i ++ r)
    (hi : AllIn isIndentChar i) (hr : ∀ c ∈ r.head?, ¬ isIndentChar c) :
    (ends n indent p).head? = some (p.captured "indent" i r) := by
  have hstart : (ends n textStart p).head? = some p := by
    rw [ends_textStart, if_pos hbefore]
    rfl
  exact head?_ends_seq hstart (head?_ends_group hp (head?_ends_many hp hi hr))

/-- The first end of the dots takes the space, the dots and the blanks behind them. Without dots the
pattern has its other branch, that wants blanks alone. -/
theorem head?_ends_dots {d : Nat} {s : List Char} (hs : Text.Blanks s) (hd : d = 0 → s = [])
    (hc : Text.isBlank c = false) (hdot : c ≠ '.')
    (hp : p.rest = (' ' :: (List.replicate d '.' ++ s)) ++ c :: r) :
    (ends n (group "dots" dotsPart) p).head? =
      some (p.captured "dots" (' ' :: (List.replicate d '.' ++ s)) (c :: r)) := by
  refine head?_ends_group hp ?_
  cases d with
  | zero =>
    obtain rfl : s = [] := hd rfl
    -- there is no dot, so the branch for dots has no end
    have hnone : ends n (sequence [blanks, one (· == '.'),
        many fun c => Text.isBlank c || c == '.']) p = [] := by
      refine ends_blanks_eq_nil spans_dot (.singleton (by decide)) fun hbegins => hdot ?_
      have htrim : Text.trimStart p.rest = c :: r := by
        rw [hp, List.replicate_zero, List.nil_append, Text.trimStart_append .space,
          Text.trimStart_of_head hc]
      rw [htrim] at hbegins
      simpa [eq_comm] using hbegins
    rw [dotsPart, head?_ends_alt_of_nil hnone]
    exact head?_ends_many1 hp (by simp) (by simp; decide) (by simp [hc])
  | succ d =>
    -- the space first, then one dot, then the others with the blanks
    have hblank : (ends n blanks p).head? =
        some (p.past [' '] ('.' :: (List.replicate d '.' ++ s ++ c :: r))) :=
      head?_ends_many (by simpa [List.replicate_succ] using hp) (by simp; decide) (by simp; decide)
    refine head?_ends_alt (head?_ends_seq hblank (head?_ends_seq (head?_ends_one rfl rfl)
      ((head?_ends_many (t := List.replicate d '.' ++ s) (r := c :: r) (by simp) ?_ ?_).trans ?_)))
    · -- what is taken is a dot or a blank
      intro x hx
      rcases List.mem_append.mp hx with hx | hx
      · simp [(List.mem_replicate.mp hx).2]
      · simp [hs x hx]
    · simp [hc, hdot]
    · simp [Place.past_past, List.replicate_succ]

/-- A place behind which a path does not go on. -/
structure Stops (r : List Char) : Prop where
  word : ∀ c ∈ r.head?, ¬ Text.isWord c
  dot : ¬ ['.'] <+: Text.trimStart r

/-- The first end of a segment takes the whole name, since what follows is no character of a
word. -/
theorem head?_ends_segment {w : Word} (hw : w.Ascii) (hp : p.rest = w.chars ++ r)
    (hr : ∀ c ∈ r.head?, ¬ Text.isWord c) :
    (ends n pathSegment p).head? = some (p.past w.chars r) := by
  obtain ⟨c, u, hchars, hc, hu⟩ := hw.exists_cons
  rw [hchars] at hp ⊢
  refine (head?_ends_seq (head?_ends_one hp hc) (head?_ends_many rfl hu hr)).trans ?_
  rw [Place.past_past]
  rfl

/-- The segments behind the first one, each with the dot before it. -/
def tailText (ws : List Word) : List Char :=
  ws.flatMap fun w => '.' :: w.chars

/-- The first end of a dotted segment takes the dot and the name behind it. No blanks stand
between. -/
theorem head?_ends_dottedSegment {w : Word} (hw : w.Ascii) (hr : ∀ c ∈ r.head?, ¬ Text.isWord c)
    (hp : p.rest = '.' :: w.chars ++ r) :
    (ends n dottedSegment p).head? = some (p.past ('.' :: w.chars) r) := by
  have hblanks : (ends n blanks p).head? = some (p.past [] p.rest) :=
    head?_ends_many rfl (by simp) (by rw [hp]; simp; decide)
  have hdot : (ends n (one (· == '.')) (p.past [] p.rest)).head? =
      some (p.past ['.'] (w.chars ++ r)) := by
    refine (head?_ends_one (c := '.') (r := w.chars ++ r) ?_ rfl).trans ?_
    · simp [hp]
    · rw [Place.past_past]
      rfl
  -- nor are there any behind the dot, since the name begins with none
  have hblanks' : (ends n blanks (p.past ['.'] (w.chars ++ r))).head? =
      some (p.past ['.'] (w.chars ++ r)) := by
    have hfirst : ∀ c ∈ w.chars.head?, ¬ Text.isBlank c := fun c hc => by
      simp [w.not_isBlank c (List.mem_of_mem_head? hc)]
    obtain ⟨c, u, hw'⟩ := List.exists_cons_of_ne_nil w.ne_nil
    refine (head?_ends_many (t := []) rfl (by simp) ?_).trans ?_
    · simpa [hw'] using hfirst
    · rw [Place.past_past]
      rfl
  refine head?_ends_seq hblanks (head?_ends_seq hdot (head?_ends_seq hblanks' ?_))
  refine (head?_ends_segment hw rfl hr).trans ?_
  rw [Place.past_past]
  rfl

/-- A segment ends where the next one has its dot. -/
theorem not_isWord_head?_tailText {ws : List Word} (hr : Stops r) :
    ∀ c ∈ (tailText ws ++ r).head?, ¬ Text.isWord c := by
  cases ws with
  | nil => exact hr.word
  | cons u us => simp [tailText]; decide

/-- The segments are taken one after the other, as many as there are, by induction on them. -/
theorem head?_ends_dottedSegments {ws : List Word} (hws : ∀ w ∈ ws, w.Ascii) (hr : Stops r)
    {m : Nat} (hm : ws.length ≤ m) (hp : p.rest = tailText ws ++ r) :
    (repeated (ends n dottedSegment) m p).head? = some (p.past (tailText ws) r) := by
  induction ws generalizing p m with
  | nil =>
    obtain rfl : p.rest = r := hp
    rw [repeated_of_nil m (dottedSegment_eq_nil hr.dot)]
    rfl
  | cons w ws ih =>
    obtain ⟨hw, hws⟩ := List.forall_mem_cons.mp hws
    -- the next segment is taken first, and the repetition goes on behind it
    have hstep : (ends n dottedSegment p).head? =
        some (p.past ('.' :: w.chars) (tailText ws ++ r)) :=
      head?_ends_dottedSegment hw (not_isWord_head?_tailText hr) (by simpa [tailText] using hp)
    cases m with
    | zero => exact absurd hm (by simp)
    | succ m =>
      refine head?_repeated_succ hstep (by simp) ((ih hws (by simpa using hm) rfl).trans ?_)
      rw [Place.past_past]
      simp [tailText]

/-- A path is its first name and, for each other name, a dot and the name. -/
theorem dotted_cons (w : Word) (ws : List Word) : dotted (w :: ws) = w.chars ++ tailText ws := by
  rw [dotted, List.map_cons, Text.join_cons, List.flatMap_map]
  rfl

/-- There are no more segments than characters, so a repetition bounded by the text sees them
all. -/
theorem length_le_tailText (ws : List Word) : ws.length ≤ (tailText ws).length := by
  induction ws with
  | nil => simp [tailText]
  | cons w ws ih =>
    simp only [tailText, List.flatMap_cons, List.length_append, List.length_cons] at ih ⊢
    omega

/-- The first end of the path takes all of its names. -/
theorem head?_ends_path {path : List Word} (hne : path ≠ []) (hpath : ∀ w ∈ path, w.Ascii)
    (hr : Stops r) (hn : (dotted path).length ≤ n) (hp : p.rest = dotted path ++ r) :
    (ends n (group "path" (seq pathSegment (star dottedSegment))) p).head? =
      some (p.captured "path" (dotted path) r) := by
  refine head?_ends_group hp ?_
  obtain ⟨w, ws, rfl⟩ := List.exists_cons_of_ne_nil hne
  obtain ⟨hw, hws⟩ := List.forall_mem_cons.mp hpath
  rw [dotted_cons] at hp hn ⊢
  have hsegment : (ends n pathSegment p).head? = some (p.past w.chars (tailText ws ++ r)) :=
    head?_ends_segment hw (by simpa using hp) (not_isWord_head?_tailText hr)
  -- the bound of the repetition is the length of the text
  have hlength : ws.length ≤ n := by
    have hle := length_le_tailText ws
    rw [List.length_append] at hn
    omega
  have hstar : (ends n (star dottedSegment) (p.past w.chars (tailText ws ++ r))).head? =
      some ((p.past w.chars (tailText ws ++ r)).past (tailText ws) r) := by
    rw [ends_star]
    exact head?_ends_dottedSegments hws hr hlength rfl
  refine (head?_ends_seq hsegment hstar).trans ?_
  rw [Place.past_past]

/-- The names are what stands behind the keyword. -/
theorem exists_head?_ends_names {s : List Char} (hs : Text.Blanks s)
    (hp : p.rest = s ++ ("import".toList ++ ' ' :: body)) (hne : body ≠ []) (hline : '\n' ∉ body) :
    ∃ e, (ends n namesPart p).head? = some e ∧
      (∀ name, name ≠ "names" → e.group name = p.group name) ∧
      ∃ b₁ b₂, Text.Blanks b₁ ∧ Text.Blanks b₂ ∧ ' ' :: body = b₁ ++ e.group "names" ++ b₂ := by
  have hmem : ∀ e, e ∈ ends n namesPart p ↔ ∃ t r, t ∈ allOf Text.isBlank ∧ p.rest = t ++ r ∧
      e ∈ ends n (seq (literal "import") (seq blanks (restOfText "names"))) (p.past t r) := fun e =>
    mem_ends_seq_of_spans spans_run
  have hexists : ∃ e, e ∈ ends n namesPart p :=
    ⟨_, (hmem _).mpr ⟨s, _, hs, hp, (mem_ends_seq_of_spans (spans_literal _)).mpr
      ⟨_, ' ' :: body, rfl, rfl, (mem_ends_seq_of_spans spans_run).mpr
        ⟨[' '], body, by simp [mem_allOf]; decide, rfl, mem_ends_restOfText.mpr
          ⟨body, [], hne, hline, .nil, (List.append_nil body).symm, rfl⟩⟩⟩⟩⟩
  obtain ⟨e, he⟩ := Option.ne_none_iff_exists'.mp
    (mt List.head?_eq_none_iff.mp (List.ne_nil_of_mem hexists.choose_spec))
  refine ⟨e, he, ?_⟩
  obtain ⟨t, r, ht, hr, he⟩ := (hmem e).mp (List.mem_of_mem_head? he)
  obtain ⟨_, r', rfl, hr', he⟩ := (mem_ends_seq_of_spans (spans_literal _)).mp he
  obtain ⟨b₁, r'', hb₁, hr'', he⟩ := (mem_ends_seq_of_spans spans_run).mp he
  obtain ⟨t', b₂, -, -, hb₂, hrest, rfl⟩ := mem_ends_restOfText.mp he
  obtain rfl : r = "import".toList ++ r' := hr'
  -- the keyword stands behind the blanks
  have hbody : ' ' :: body = r' := by
    have hfirst := Text.append_cons_inj (P := fun c => ¬ Text.isBlank c)
      (show s ++ 'i' :: ("mport".toList ++ ' ' :: body) = t ++ 'i' :: ("mport".toList ++ r') from
        hp.symm.trans hr) (fun c hc hn => hn (hs c hc)) (by decide)
      (fun c hc hn => hn (ht c hc)) (by decide)
    exact List.append_cancel_left hfirst.2.2
  rw [Place.past_rest] at hr'' hrest
  refine ⟨fun name hname => ?_, b₁, b₂, hb₁, hb₂, ?_⟩
  · simp [Place.group_captured_of_ne _ _ _ _ hname]
  · simp [hbody, hr'', hrest]

/-- What a segment leaves of the keyword and the text behind it. -/
theorem stops_of_segment {t : List Char} (hne : t ≠ []) (ht : ∀ c ∈ t, Text.isWord c)
    (h : "import".toList ++ ' ' :: body = t ++ r)
    (hkeyword : ¬ "import".toList <+: Text.trimStart body)
    (hdot : ¬ ['.'] <+: Text.trimStart body) :
    ¬ "import".toList <+: Text.trimStart r ∧ ¬ ['.'] <+: Text.trimStart r := by
  obtain ⟨m, hm, rfl⟩ : ∃ m, "import".toList = t ++ m ∧ r = m ++ ' ' :: body := by
    rcases List.append_eq_append_iff.mp h with ⟨m, rfl, hr⟩ | hm
    · -- the segment ends before the blank
      cases m with
      | nil => exact ⟨[], by simp, hr.symm⟩
      | cons c m =>
        obtain ⟨rfl, -⟩ := List.cons.inj hr
        exact absurd (ht ' ' (by simp)) (by decide)
    · exact hm
  have hsuffix : m ∈ "mport".toList.tails := by
    obtain ⟨c, u, rfl⟩ := List.exists_cons_of_ne_nil hne
    obtain ⟨-, hm⟩ := List.cons.inj hm
    exact (List.mem_tails _ _).mpr ⟨u, hm.symm⟩
  have hletters : ∀ m ∈ "mport".toList.tails,
      m.head?.all fun c => !Text.isBlank c && c != 'i' && c != '.' := by decide
  cases m with
  | nil => exact ⟨hkeyword, hdot⟩
  | cons c u =>
    have hc := hletters _ hsuffix
    simp only [List.head?_cons, Option.all_some, Bool.and_eq_true, Bool.not_eq_true', bne_iff_ne]
      at hc
    obtain ⟨⟨hblank, hi⟩, hd⟩ := hc
    rw [List.cons_append, Text.trimStart_of_head hblank]
    simp [hi.symm, hd.symm]

/-- Where the path is missing, the keyword is no path. The pattern can take it, or a part of it, for
a segment, and then finds neither a dot nor the keyword behind. -/
theorem ends_path_eq_nil (hp : p.rest = "import".toList ++ ' ' :: body)
    (hkeyword : ¬ "import".toList <+: Text.trimStart body)
    (hdot : ¬ ['.'] <+: Text.trimStart body) :
    ends n (seq (group "path" (seq pathSegment (star dottedSegment))) namesPart) p = [] := by
  rw [List.eq_nil_iff_forall_not_mem]
  intro e he
  obtain ⟨_, hgroup, he⟩ := mem_ends_seq.mp he
  rw [ends_group] at hgroup
  obtain ⟨q, hq, rfl⟩ := List.mem_map.mp hgroup
  obtain ⟨q₁, hsegment, hq⟩ := mem_ends_seq.mp hq
  -- what is taken for the segment is a word at the beginning of the keyword
  obtain ⟨t, r, ⟨_, ⟨c, hc, rfl⟩, u, hu, rfl⟩, hr, rfl⟩ :=
    ((spans_one.seq spans_run) p q₁).mp hsegment
  have hword : ∀ d ∈ [c] ++ u, Text.isWord d := by
    obtain ⟨rfl, -⟩ := List.cons.inj (hp.symm.trans hr)
    exact List.forall_mem_cons.mpr ⟨by decide, hu⟩
  obtain ⟨hkeyword, hdot⟩ := stops_of_segment (by simp) hword (hp.symm.trans hr) hkeyword hdot
  -- the path cannot go on behind it, and no names follow
  rw [ends_star, repeated_of_nil n (dottedSegment_eq_nil hdot), List.mem_singleton] at hq
  rw [hq, namesPart_eq_nil hkeyword] at he
  exact absurd he (List.not_mem_nil)

/-! ### Statements -/

/-- A statement before its names. -/
def frontText (i : List Char) (d : Nat) (path : List Word) : List Char :=
  i ++ ("from".toList ++ (' ' :: (List.replicate d '.' ++ (dotted path ++ " import".toList))))

/-- The second keyword ends the path. -/
theorem stops_keyword (body : List Char) : Stops (" import".toList ++ ' ' :: body) where
  word := by simp; decide
  dot := by
    have htext :
        " import".toList ++ ' ' :: body = [' '] ++ 'i' :: ("mport".toList ++ ' ' :: body) := rfl
    rw [htext, Text.trimStart_append Text.Blanks.space,
      Text.trimStart_of_head (by decide)]
    simp

/-- What is read behind the first keyword. Without a path, the names must not go on with the second
keyword or a dot. -/
theorem exists_head?_ends_parts {d : Nat} {path : List Word} (hpath : ∀ w ∈ path, w.Ascii)
    (hd : path = [] → d ≠ 0) (hne : body ≠ []) (hline : '\n' ∉ body)
    (hkeyword : path = [] → ¬ "import".toList <+: Text.trimStart body)
    (hdot : path = [] → ¬ ['.'] <+: Text.trimStart body) (hn : (dotted path).length ≤ n)
    (hgroup : p.group "path" = [])
    (hp : p.rest =
      ' ' :: (List.replicate d '.' ++ (dotted path ++ (" import".toList ++ ' ' :: body)))) :
    ∃ e, (ends n (seq (group "dots" dotsPart) (seq (optional (group "path" (seq pathSegment
        (star dottedSegment)))) namesPart)) p).head? = some e ∧
      e.group "indent" = p.group "indent" ∧ (e.group "dots").count '.' = d ∧
      e.group "path" = dotted path ∧ ∃ b₁ b₂, Text.Blanks b₁ ∧ Text.Blanks b₂ ∧
        ' ' :: body = b₁ ++ e.group "names" ++ b₂ := by
  cases path with
  | nil =>
    -- the blank before the keyword belongs to the dots
    let dots := ' ' :: (List.replicate d '.' ++ [' '])
    let q := p.captured "dots" dots ("import".toList ++ ' ' :: body)
    have hdots : (ends n (group "dots" dotsPart) p).head? = some q :=
      head?_ends_dots (c := 'i') (r := "mport".toList ++ ' ' :: body) .space
        (fun h => absurd h (hd rfl)) (by decide) (by decide) (by simpa [dotted, Text.join] using hp)
    obtain ⟨e, he, hsame, hnames⟩ :=
      exists_head?_ends_names (n := n) (p := q) (s := []) .nil rfl hne hline
    have hoptional := head?_ends_seq_optional (n := n) (group "path" (seq pathSegment
      (star dottedSegment))) namesPart q
    rw [ends_path_eq_nil rfl (hkeyword rfl) (hdot rfl), List.head?_nil, Option.none_or, he]
      at hoptional
    refine ⟨e, head?_ends_seq hdots hoptional, ?_, ?_, ?_, hnames⟩
    · rw [hsame _ (by decide), Place.group_captured_of_ne _ _ _ _ (by decide)]
    · rw [hsame _ (by decide), Place.group_captured]
      simp [dots]
    · rw [hsame _ (by decide), Place.group_captured_of_ne _ _ _ _ (by decide), hgroup]
      rfl
  | cons w ws =>
    let dots := ' ' :: (List.replicate d '.' ++ [])
    let q := p.captured "dots" dots (dotted (w :: ws) ++ (" import".toList ++ ' ' :: body))
    let q' := q.captured "path" (dotted (w :: ws)) (" import".toList ++ ' ' :: body)
    have hdots : (ends n (group "dots" dotsPart) p).head? = some q := by
      obtain ⟨c, u, hw⟩ := List.exists_cons_of_ne_nil w.ne_nil
      have hc : c ∈ w.chars := by simp [hw]
      have hpart : dotted (w :: ws) ++ (" import".toList ++ ' ' :: body) =
          c :: (u ++ (tailText ws ++ (" import".toList ++ ' ' :: body))) := by
        rw [dotted_cons, hw]
        simp
      simp only [q, hpart]
      refine head?_ends_dots .nil (fun _ => rfl) (w.not_isBlank c hc) (fun h => ?_) ?_
      · exact w.allIn.not_mem (show isWordChar '.' = false by decide) (h ▸ hc)
      · rw [hp, hpart]
        simp
    have hend : (ends n (group "path" (seq pathSegment (star dottedSegment))) q).head? = some q' :=
      head?_ends_path (List.cons_ne_nil w ws) hpath (stops_keyword body) hn rfl
    obtain ⟨e, he, hsame, hnames⟩ := exists_head?_ends_names (n := n) (p := q') (s := [' '])
      .space rfl hne hline
    refine ⟨e, head?_ends_seq hdots (head?_ends_seq (head?_ends_alt hend) he), ?_, ?_, ?_, hnames⟩
    · rw [hsame _ (by decide), Place.group_captured_of_ne _ _ _ _ (by decide),
        Place.group_captured_of_ne _ _ _ _ (by decide)]
    · rw [hsame _ (by decide), Place.group_captured_of_ne _ _ _ _ (by decide), Place.group_captured]
      simp [dots]
    · rw [hsame _ (by decide), Place.group_captured]

/-- The pattern of a `from` finds the statement with its indent, the number of its dots, its path
and, up to blanks, its names. The search takes the first of all ends, so the proof follows the first
end of each part. -/
theorem exists_search?_from {d : Nat} {path : List Word} (hi : AllIn isIndentChar i)
    (hpath : ∀ w ∈ path, w.Ascii) (hd : path = [] → d ≠ 0) (hne : body ≠ []) (hline : '\n' ∉ body)
    (hkeyword : path = [] → ¬ "import".toList <+: Text.trimStart body)
    (hdot : path = [] → ¬ ['.'] <+: Text.trimStart body) :
    ∃ m, search? fromStatement (frontText i d path ++ ' ' :: body) = some m ∧
      m.finish.group "indent" = i ∧ (m.finish.group "dots").count '.' = d ∧
      m.finish.group "path" = dotted path ∧ ∃ b₁ b₂, Text.Blanks b₁ ∧ Text.Blanks b₂ ∧
        ' ' :: body = b₁ ++ m.finish.group "names" ++ b₂ := by
  let text := frontText i d path ++ ' ' :: body
  -- the text behind the keyword, and the place where the dots begin
  let behind := ' ' :: (List.replicate d '.' ++ (dotted path ++ (" import".toList ++ ' ' :: body)))
  let q :=
    ((Place.first text).captured "indent" i ("from".toList ++ behind)).past "from".toList behind
  have hindent : (ends text.length indent (Place.first text)).head? =
      some ((Place.first text).captured "indent" i ("from".toList ++ behind)) :=
    head?_ends_indent rfl (by simp [text, behind, frontText, Place.first]) hi (by simp; decide)
  have hlength : (dotted path).length ≤ text.length := by
    simp only [text, frontText, List.length_append, List.length_cons]
    omega
  obtain ⟨e, he, hgroups⟩ := exists_head?_ends_parts (p := q) hpath hd hne hline hkeyword hdot
    hlength (by simp [q, Place.group_captured_of_ne]; rfl) rfl
  refine ⟨⟨0, e⟩, ?_, by simpa [q] using hgroups⟩
  rw [fromStatement_eq_parts, search?_keyword]
  exact congrArg (Option.map _)
    (head?_ends_seq hindent (head?_ends_seq (head?_ends_literal "from" rfl) he))

end ImportAtlas.Source.Python
