import ImportAtlas.Proofs.Source.Python.Lines

/-!
# Statements with parentheses

The lines up to a closing parenthesis are joined to one text, in which the blanks at their ends are
other ones.

* `closedLines` — the lines;
* `listedWords_lineStart`, `listedWords_lineEnd` — which blanks of a line make no difference;
* `readLine_opening`, `readLine_inside`, `readLine_closing` — what each of the lines does;
* `exists_runs_closed` — the lines behind an open parenthesis end the statement;
* `exists_runs_parens` — the lines of a statement are joined to its text.
-/

namespace ImportAtlas.Source.Python

/-! ### Joining the lines of parentheses -/

/-- The lines up to a closing parenthesis, the first of them with `front` before it and the last
with `after` behind the parenthesis. -/
def closedLines (front after : List Char) : List (List Char) → List (List Char)
  | [] => []
  | [p] => [front ++ p ++ ')' :: after]
  | p :: q :: ps => (front ++ p) :: closedLines [] after (q :: ps)

variable {front after u x : List Char} {ps xs : List (List Char)} {n k : Nat}

/-- The lines, joined, are the front, what stands between the brackets, the closing one and the
rest. -/
theorem join_closedLines (hne : ps ≠ []) :
    Text.join ['\n'] (closedLines front after ps) =
      front ++ Text.join ['\n'] ps ++ ')' :: after := by
  induction ps generalizing front with
  | nil => exact absurd rfl hne
  | cons p ps ih =>
    cases ps with
    | nil => rfl
    | cons q ps =>
      have hlines : Text.join ['\n'] (closedLines [] after (q :: ps)) = _ :=
        ih (List.cons_ne_nil q ps)
      -- the front stands before the first line only, the bracket behind the last
      rw [closedLines, Text.join_cons_cons]
      cases ps with
      | nil => simp [closedLines, Text.join]
      | cons r ps =>
        rw [closedLines, Text.join_cons_cons, ← closedLines, hlines]
        simp

/-! ### Blanks at the ends of lines -/

/-- One blank may stand for the end of a line and the blanks that the next line begins with. -/
theorem listedWords_lineStart (x p t : List Char) :
    listedWords (x ++ ' ' :: (Text.trimStart p ++ t)) = listedWords (x ++ '\n' :: (p ++ t)) := by
  obtain ⟨b, hb, hstart⟩ := Text.exists_trimStart p
  have hblank : Text.Blanks ('\n' :: b) := List.forall_mem_cons.mpr ⟨by decide, hb⟩
  calc listedWords (x ++ ([' '] ++ (Text.trimStart p ++ t)))
      = listedWords (x ++ ('\n' :: b ++ (Text.trimStart p ++ t))) :=
        listedWords_blanks (by simp) Text.Blanks.space (by simp) hblank _ _
    _ = listedWords (x ++ '\n' :: (b ++ Text.trimStart p ++ t)) := by simp
    _ = listedWords (x ++ '\n' :: (p ++ t)) := by rw [← hstart]

/-- Before a blank, the blanks at the end of a line make no difference. -/
theorem listedWords_lineEnd (x p t : List Char) :
    listedWords (x ++ Text.trimEnd p ++ ' ' :: t) = listedWords (x ++ p ++ ' ' :: t) := by
  obtain ⟨b, hb, hend⟩ := Text.exists_trimEnd p
  calc listedWords (x ++ Text.trimEnd p ++ ([' '] ++ t))
      = listedWords (x ++ Text.trimEnd p ++ (b ++ [' '] ++ t)) :=
        listedWords_blanks (by simp) Text.Blanks.space (by simp) (hb.append Text.Blanks.space) _ _
    _ = listedWords (x ++ (Text.trimEnd p ++ b) ++ ' ' :: t) := by simp
    _ = listedWords (x ++ p ++ ' ' :: t) := by rw [← hend]

/-! ### Reading the lines -/

variable {i y p raw : List Char}

/-- A line of names leaves the parenthesis open. -/
theorem readLine_inside (hraw : Code raw p) (hp : AllIn isPlainChar p) (t : List Char) :
    readLine { pending := some ⟨⟨k, t⟩, true⟩ } n raw =
      ({ pending := some ⟨⟨k, t ++ ' ' :: Text.trim p⟩, true⟩ }, none) := by
  have htrim : AllIn isPlainChar (Text.trim p) := fun c hc => hp c (Text.mem_of_mem_trim hc)
  have hbody : dropContinuation (Text.trim p) = (Text.trim p, false) :=
    dropContinuation_of_not_mem (htrim.not_mem (by decide))
  have hparen : (Text.trim p).contains ')' = false := by
    simpa using htrim.not_mem (show isPlainChar ')' = false by decide)
  rw [readLine_pending hraw _ hbody, hparen]
  rfl

/-- The line with the closing parenthesis ends the statement. -/
theorem readLine_closing (hraw : Code raw (p ++ ')' :: after)) (hafter : Text.Blanks after)
    (t : List Char) :
    readLine { pending := some ⟨⟨k, t⟩, true⟩ } n raw =
      ({}, some ⟨k, t ++ ' ' :: (Text.trimStart p ++ [')'])⟩) := by
  have htrim : Text.trim (p ++ ')' :: after) = Text.trimStart p ++ [')'] := by
    rw [Text.trim, Text.trimStart_append_cons p (by decide), Text.trimEnd_append_cons _ (by decide),
      hafter.trimEnd_eq]
  have hbody : dropContinuation (Text.trim (p ++ ')' :: after)) =
      (Text.trimStart p ++ [')'], false) := by
    rw [htrim, dropContinuation_of_last _ (by decide)]
  simpa using readLine_pending (n := n) hraw ⟨⟨k, t⟩, true⟩ hbody

/-- The lines behind the first one end the statement: of the names, only the blanks between them are
other ones. -/
theorem exists_runs_closed (hux : ∀ t, listedWords (u ++ ' ' :: t) = listedWords (x ++ ' ' :: t))
    (hu : '\n' ∉ u) (hne : ps ≠ []) (hps : ∀ p ∈ ps, AllIn isPlainChar p ∧ '\n' ∉ p)
    (hafter : Text.Blanks after) (hxs : List.Forall₂ Code xs (closedLines [] after ps)) :
    ∃ v, Runs { pending := some ⟨⟨k, front ++ u⟩, true⟩ } n xs {} [⟨k, front ++ (v ++ [')'])⟩] ∧
      '\n' ∉ v ∧ listedWords v = listedWords (x ++ '\n' :: Text.join ['\n'] ps) := by
  -- `u` is what has been joined so far, and has the words of the lines `x` that it was joined from
  induction ps generalizing u x n xs with
  | nil => exact absurd rfl hne
  | cons p ps ih =>
    obtain ⟨⟨hp, hline⟩, hps⟩ := List.forall_mem_cons.mp hps
    cases ps with
    | nil =>
      obtain ⟨raw, hraw, rfl⟩ : ∃ raw, Code raw (p ++ ')' :: after) ∧ xs = [raw] := by
        simpa [closedLines, List.forall₂_cons_right_iff] using hxs
      have hread : readLine { pending := some ⟨⟨k, front ++ u⟩, true⟩ } n raw =
          ({}, some ⟨k, front ++ (u ++ ' ' :: Text.trimStart p ++ [')'])⟩) := by
        simpa using readLine_closing (n := n) hraw hafter (front ++ u)
      obtain ⟨b, -, hstart⟩ := Text.exists_trimStart p
      have hmem : '\n' ∉ Text.trimStart p :=
        fun hmem => hline (hstart ▸ List.mem_append_right b hmem)
      refine ⟨u ++ ' ' :: Text.trimStart p, .cons hread (.nil _ _), by simp [hu, hmem], ?_⟩
      rw [hux]
      simpa [Text.join] using listedWords_lineStart x p []
    | cons q ps =>
      obtain ⟨raw, raws, hraw, hraws, rfl⟩ := List.forall₂_cons_right_iff.mp hxs
      have hread : readLine { pending := some ⟨⟨k, front ++ u⟩, true⟩ } n raw =
          ({ pending := some ⟨⟨k, front ++ (u ++ ' ' :: Text.trim p)⟩, true⟩ }, none) := by
        simpa using readLine_inside (n := n) hraw hp (front ++ u)
      -- what is joined with this line has the words of the lines with it
      have hnext : ∀ t, listedWords (u ++ ' ' :: Text.trim p ++ ' ' :: t) =
          listedWords (x ++ '\n' :: p ++ ' ' :: t) := fun t =>
        calc listedWords (u ++ ' ' :: Text.trim p ++ ' ' :: t)
            = listedWords (u ++ ' ' :: (Text.trim p ++ ' ' :: t)) := by simp
          _ = listedWords (x ++ ' ' :: (Text.trim p ++ ' ' :: t)) := hux _
          _ = listedWords (x ++ [' '] ++ Text.trimEnd (Text.trimStart p) ++ ' ' :: t) := by
              rw [Text.trim]; simp
          _ = listedWords (x ++ ' ' :: (Text.trimStart p ++ ' ' :: t)) := by
              rw [listedWords_lineEnd]; simp
          _ = listedWords (x ++ '\n' :: p ++ ' ' :: t) := by rw [listedWords_lineStart]; simp
      have hmem : '\n' ∉ Text.trim p := fun hmem => hline (Text.mem_of_mem_trim hmem)
      have hline' : '\n' ∉ u ++ ' ' :: Text.trim p := by simp [hu, hmem]
      obtain ⟨v, hruns, hv, hwords⟩ := ih (n := n + 1) hnext hline' (by simp) hps hraws
      refine ⟨v, .cons hread hruns, hv, hwords.trans ?_⟩
      rw [Text.join_cons_cons]
      simp

/-! ### Reading a statement -/

/-- The line with the opening parenthesis leaves it open. -/
theorem readLine_opening (hi : AllIn isIndentChar i) (hy : AllIn isPlainChar y)
    (hp : AllIn isPlainChar p) (hraw : Code raw (i ++ ("from".toList ++ y) ++ '(' :: p)) :
    readLine {} n raw =
      ({ pending := some ⟨⟨n, i ++ ("from".toList ++ y) ++ '(' :: Text.trimEnd p⟩, true⟩ },
        none) := by
  have hstart : beginsStatement (dropComment none raw) := by
    rw [List.append_assoc, List.append_assoc] at hraw
    exact hraw.beginsStatement hi (.inr rfl)
  have hindent : Text.Blanks i := fun c hc =>
    isBlank_of_isGapChar (isGapChar_of_isIndentChar c (hi c hc))
  have hplain : AllIn isPlainChar (i ++ ("from".toList ++ y)) :=
    (allIn_blanks hindent).append (AllIn.append (.of_all (by decide)) hy)
  generalize i ++ ("from".toList ++ y) = front at hplain hraw
  have htrim : AllIn isPlainChar (Text.trimEnd p) := fun c hc => hp c (Text.mem_of_mem_trimEnd hc)
  -- neither a backslash nor a closing parenthesis is plain
  have hbody : dropContinuation (Text.trimEnd (front ++ '(' :: p)) =
      (front ++ '(' :: Text.trimEnd p, false) := by
    rw [Text.trimEnd_append_cons front (by decide), dropContinuation_of_not_mem]
    simp [hplain.not_mem (show isPlainChar '\\' = false by decide),
      htrim.not_mem (show isPlainChar '\\' = false by decide)]
  have hclose : (front ++ '(' :: Text.trimEnd p).contains ')' = false := by
    simp [hplain.not_mem (show isPlainChar ')' = false by decide),
      htrim.not_mem (show isPlainChar ')' = false by decide)]
  rw [readLine_start hraw hstart hbody, hclose]
  simp

/-- A statement whose brackets close on its first line is complete: the bracket is the last
character that is no blank, and it is no backslash. -/
theorem readLine_parens (hi : AllIn isIndentChar i) (hafter : Text.Blanks after)
    (hraw : Code raw (i ++ ("from".toList ++ y) ++ '(' :: (p ++ ')' :: after))) :
    readLine {} n raw = ({}, some ⟨n, i ++ ("from".toList ++ y) ++ '(' :: (p ++ [')'])⟩) := by
  have hstart : beginsStatement (dropComment none raw) := by
    rw [List.append_assoc, List.append_assoc] at hraw
    exact hraw.beginsStatement hi (.inr rfl)
  generalize i ++ ("from".toList ++ y) = front at hraw
  -- trimming takes what stands behind the closing bracket
  have htrim : Text.trimEnd (front ++ '(' :: (p ++ ')' :: after)) = front ++ '(' :: p ++ [')'] := by
    have hend := Text.trimEnd_append_cons (front ++ '(' :: p) (c := ')') (by decide) after
    rw [hafter.trimEnd_eq] at hend
    simpa using hend
  have hbody : dropContinuation (Text.trimEnd (front ++ '(' :: (p ++ ')' :: after))) =
      (front ++ '(' :: p ++ [')'], false) := by
    rw [htrim, dropContinuation_of_last _ (by decide)]
  simpa using readLine_start (n := n) hraw hstart hbody

/-- The reader of lines makes one statement of the lines of a `from` with brackets. It drops the
line ends and the blanks around them, and so keeps the words that are listed. -/
theorem exists_runs_parens (hi : AllIn isIndentChar i) (hy : AllIn isPlainChar y) (hne : ps ≠ [])
    (hps : ∀ p ∈ ps, AllIn isPlainChar p ∧ '\n' ∉ p) (hafter : Text.Blanks after)
    (hxs : List.Forall₂ Code xs (closedLines (i ++ ("from".toList ++ y) ++ ['(']) after ps)) :
    ∃ v, Runs {} n xs {} [⟨n, i ++ ("from".toList ++ y) ++ '(' :: (v ++ [')'])⟩] ∧ '\n' ∉ v ∧
      listedWords v = listedWords (Text.join ['\n'] ps) := by
  obtain ⟨p, ps, rfl⟩ := List.exists_cons_of_ne_nil hne
  obtain ⟨⟨hp, hline⟩, hps⟩ := List.forall_mem_cons.mp hps
  cases ps with
  | nil =>
    obtain ⟨raw, hraw, rfl⟩ : ∃ raw, Code raw (i ++ ("from".toList ++ y) ++ '(' ::
        (p ++ ')' :: after)) ∧ xs = [raw] := by
      simpa [closedLines, List.forall₂_cons_right_iff] using hxs
    exact ⟨p, .cons (readLine_parens hi hafter hraw) (.nil _ _), hline, rfl⟩
  | cons q ps =>
    obtain ⟨raw, raws, hraw, hraws, rfl⟩ := List.forall₂_cons_right_iff.mp hxs
    -- the first line opens a bracket, and the lines behind it run to the closing one
    have hopening : Code raw (i ++ ("from".toList ++ y) ++ '(' :: p) := by simpa using hraw
    have hread := readLine_opening (n := n) hi hy hp hopening
    have hline' : '\n' ∉ Text.trimEnd p := fun hmem => hline (Text.mem_of_mem_trimEnd hmem)
    generalize i ++ ("from".toList ++ y) = front at hread
    obtain ⟨v, hruns, hv, hwords⟩ : ∃ v,
        Runs { pending := some ⟨⟨n, (front ++ ['(']) ++ Text.trimEnd p⟩, true⟩ } (n + 1) raws {}
          [⟨n, (front ++ ['(']) ++ (v ++ [')'])⟩] ∧
        '\n' ∉ v ∧ listedWords v = listedWords ([] ++ p ++ '\n' :: Text.join ['\n'] (q :: ps)) :=
      exists_runs_closed (listedWords_lineEnd [] p) hline' (by simp) hps hafter hraws
    refine ⟨v, .cons hread (by simpa using hruns), hv, hwords.trans ?_⟩
    rw [List.nil_append, Text.join_cons_cons]
    simp

/-! ### Characters of the lines -/

/-- The characters of the lines are those of their parts and the closing bracket. -/
theorem allIn_closedLines {f : Char → Bool} (hf : f ')') (hfront : AllIn f front)
    (hafter : AllIn f after) (hps : ∀ p ∈ ps, AllIn f p) :
    ∀ l ∈ closedLines front after ps, AllIn f l := by
  induction ps generalizing front with
  | nil => simp [closedLines]
  | cons p ps ih =>
    obtain ⟨hp, hps⟩ := List.forall_mem_cons.mp hps
    -- the bracket and what follows it stand on the last line
    cases ps with
    | nil =>
      simp only [closedLines, List.forall_mem_singleton]
      exact (hfront.append hp).append (List.forall_mem_cons.mpr ⟨hf, hafter⟩)
    | cons q ps =>
      exact List.forall_mem_cons.mpr ⟨hfront.append hp, ih (.of_all rfl) hps⟩

/-- The last line is not empty, as the closing bracket stands on it. -/
theorem getLast?_closedLines (hne : ps ≠ []) :
    ∃ l, (closedLines front after ps).getLast? = some l ∧ l ≠ [] := by
  induction ps generalizing front with
  | nil => exact absurd rfl hne
  | cons p ps ih =>
    cases ps with
    | nil => exact ⟨_, rfl, by simp⟩
    | cons q ps =>
      obtain ⟨l, hl, hlne⟩ : ∃ l, (closedLines [] after (q :: ps)).getLast? = some l ∧ l ≠ [] :=
        ih (List.cons_ne_nil q ps)
      refine ⟨l, ?_, hlne⟩
      rw [closedLines, List.getLast?_cons, hl]
      rfl

end ImportAtlas.Source.Python
