import ImportAtlas.Proofs.Results
import ImportAtlas.Proofs.Source.Python.Word
import Mathlib.Data.List.Forall2

/-!
# From lines to statements

The code of a line is what stands before its comment. Of lines of code without quotes, those that
begin a statement open it or are all of it, those behind an open statement go on with it, and the
others leave no trace.

* `Code` — a line holds a code, blanks at its end and a comment aside;
* `readLine_other`, `readLine_start`, `readLine_pending` — what one line does;
* `Runs` — what lines do one after another, and the statements that end with them;
* `Gives` — the records of these statements, when the lines leave nothing open;
* `forall₂_lines`, `forall₂_lines_concat` — the lines of a text hold the codes of which it was put
  together.
-/

namespace ImportAtlas.Source.Python

/-! ### Code and comments -/

/-- A character that begins neither a comment nor quoted text, and ends no line. -/
def isCodeChar (c : Char) : Bool :=
  !(c == '"' || c == '\'' || c == '#' || c == '\n')

/-- A plain character that ends no line is code. -/
theorem isCodeChar_of_isPlainChar {c : Char} (h : isPlainChar c) (hline : c ≠ '\n') :
    isCodeChar c := by
  rw [isCodeChar, Bool.not_eq_true']
  by_contra hc
  simp only [Bool.not_eq_false, Bool.or_eq_true, beq_iff_eq] at hc
  -- the characters that are not code are four, and none of them is plain
  rcases hc with ((rfl | rfl) | rfl) | rfl
  iterate 3 exact absurd h (by decide)
  exact hline rfl

/-- A plain text on one line is code. -/
theorem allIn_code {t : List Char} (h : AllIn isPlainChar t) (hline : '\n' ∉ t) :
    AllIn isCodeChar t := fun c hc =>
  isCodeChar_of_isPlainChar (h c hc) fun heq => hline (heq ▸ hc)

/-- A line holds a code: the two differ by a comment and by blanks at the end. -/
structure Code (raw code : List Char) : Prop where
  line : '\n' ∉ raw
  plain : AllIn isCodeChar code
  eq : ∃ b, Text.Blanks b ∧ code = dropComment none raw ++ b

variable {raw code t r : List Char} {n : Nat}

/-- Code is kept by the search for a comment, which goes on behind it outside every string. -/
theorem dropComment_append (h : AllIn isCodeChar t) (r : List Char) :
    dropComment none (t ++ r) = t ++ dropComment none r := by
  induction t with
  | nil => rfl
  | cons c t ih =>
    obtain ⟨hc, ht⟩ := List.forall_mem_cons.mp h
    simp only [isCodeChar, Bool.not_eq_true', Bool.or_eq_false_iff, beq_eq_false_iff_ne] at hc
    obtain ⟨⟨⟨hdouble, hsingle⟩, hhash⟩, -⟩ := hc
    rw [List.cons_append, dropComment]
    simp only [if_neg hhash, if_neg (not_or.mpr ⟨hdouble, hsingle⟩), ih ht, List.cons_append]

/-- A carriage return at the end of a line is kept or goes with the comment, and nothing else
changes. -/
theorem dropComment_return (quote : Option Char) (t : List Char) :
    dropComment quote (t ++ ['\r']) = dropComment quote t ∨
      dropComment quote (t ++ ['\r']) = dropComment quote t ++ ['\r'] := by
  induction t generalizing quote with
  | nil => cases quote <;> exact .inr rfl
  | cons c t ih =>
    -- outside a string a hash sign ends the search, inside one only its quote matters
    cases quote with
    | none =>
      simp only [List.cons_append, dropComment]
      split
      · exact .inl rfl
      · exact (ih _).imp (congrArg (c :: ·)) (congrArg (c :: ·))
    | some q =>
      simp only [List.cons_append, dropComment]
      exact (ih _).imp (congrArg (c :: ·)) (congrArg (c :: ·))

/-- The text of a comment, if there is one. -/
def noteText (note : Option (Run (· != '\n'))) : List Char :=
  note.elim [] fun t => '#' :: t.1

/-- Code with a comment behind it is that code. -/
theorem Code.of_note (h : AllIn isCodeChar code) (note : Option (Run (· != '\n'))) :
    Code (code ++ noteText note) code := by
  -- the comment begins with its hash sign, or there is none
  have hnote : '\n' ∉ noteText note ∧ dropComment none (noteText note) = [] := by
    cases note with
    | none => exact ⟨by simp [noteText], rfl⟩
    | some t => exact ⟨by simpa [noteText] using AllIn.not_mem t.2 (by decide), rfl⟩
  have hline : '\n' ∉ code := h.not_mem (by decide)
  refine ⟨by simp [hline, hnote.1], h, [], .nil, ?_⟩
  rw [dropComment_append h, hnote.2, List.append_nil]
  simp

/-- Code without a comment is code. -/
theorem Code.of_plain (h : AllIn isCodeChar code) : Code code code := by
  have hcode := Code.of_note h none
  rwa [noteText, Option.elim_none, List.append_nil] at hcode

/-- The carriage return of a line may be dropped: it is in the comment, or else it is one more blank
behind the code. -/
theorem Code.dropReturn (h : Code raw code) : Code (Text.dropReturn raw) code := by
  obtain ⟨b, hb, hcode⟩ := h.eq
  have hline : '\n' ∉ Text.dropReturn raw := by
    rcases Text.dropReturn_eq raw with heq | heq
    · exact heq.symm ▸ h.line
    · exact fun hmem => h.line (heq ▸ List.mem_append_left _ hmem)
  refine ⟨hline, h.plain, ?_⟩
  rcases Text.dropReturn_eq raw with heq | heq
  · exact ⟨b, hb, by rw [heq, hcode]⟩
  · rw [heq] at hcode
    -- the return went with the comment, or it is left at the end
    rcases dropComment_return none (Text.dropReturn raw) with hdrop | hdrop
    · exact ⟨b, hb, hdrop ▸ hcode⟩
    · refine ⟨'\r' :: b, List.forall_mem_cons.mpr ⟨by decide, hb⟩, ?_⟩
      rw [hcode, hdrop, List.append_assoc]
      rfl

/-- What is left of the line has characters of code only. -/
theorem Code.plain_dropComment (h : Code raw code) : AllIn isCodeChar (dropComment none raw) := by
  obtain ⟨b, -, hcode⟩ := h.eq
  exact fun c hc => h.plain c (by simp [hcode, hc])

/-- Trimmed at its end, the line is its code trimmed. -/
theorem Code.trimEnd_eq (h : Code raw code) :
    Text.trimEnd (dropComment none raw) = Text.trimEnd code := by
  obtain ⟨b, hb, hcode⟩ := h.eq
  rw [hcode, Text.trimEnd_append _ hb]

/-- Trimmed on both sides, the line is its code trimmed. -/
theorem Code.trim_eq (h : Code raw code) : Text.trim (dropComment none raw) = Text.trim code := by
  obtain ⟨b, hb, hcode⟩ := h.eq
  rw [hcode]
  simpa using (Text.trim_between .nil (dropComment none raw) hb).symm

/-! ### One line -/

/-- Code opens no long string, since there is no quote in it: it is neither split by the three
quotes nor counts any. -/
theorem openLongString?_eq_none (h : AllIn isCodeChar t) : openLongString? t = none := by
  have hnone : ∀ q ∈ longQuotes, Text.splitFirst? q t = none := by
    intro q hq
    have hquote : ∃ c ∈ q, isCodeChar c = false := by
      simp only [longQuotes, List.mem_cons, List.not_mem_nil, or_false] at hq
      rcases hq with rfl | rfl
      · exact ⟨'"', by simp, by decide⟩
      · exact ⟨'\'', by simp, by decide⟩
    obtain ⟨c, hc, hcode⟩ := hquote
    exact Text.splitFirst?_eq_none.mpr fun hin => h.not_mem hcode (hin.subset hc)
  -- the number of quotes is even, as it is zero
  have hcount : ∀ q ∈ longQuotes, Text.occurrences q t = 0 := by
    intro q hq
    rw [Text.occurrences]
    cases t.length with
    | zero => rfl
    | succ n => rw [Text.occurrences.go, hnone q hq]
  rw [openLongString?, List.findSome?_eq_none_iff]
  intro q hq
  simp [hcount q hq]

/-- The keywords that begin a statement. -/
def beginsStatement (t : List Char) : Bool :=
  Text.beginsWith "import".toList (Text.trimStart t) ||
    Text.beginsWith "from".toList (Text.trimStart t)

/-- A line that begins with a keyword still does when more follows it. -/
theorem beginsStatement_append (h : beginsStatement t) (r : List Char) :
    beginsStatement (t ++ r) := by
  have hkeyword : ∀ w : List Char, w ≠ [] → Text.beginsWith w (Text.trimStart t) →
      Text.beginsWith w (Text.trimStart (t ++ r)) := by
    intro w hw hbegins
    obtain ⟨x, hx⟩ := Option.isSome_iff_exists.mp hbegins
    have htrim := Text.dropStart?_eq_some.mp hx
    -- the trimmed line is not empty, so trimming stops before what follows
    have happend : Text.trimStart (t ++ r) = Text.trimStart t ++ r := by
      rw [Text.trimStart, List.dropWhile_append, if_neg]
      · rfl
      · rw [show t.dropWhile Text.isBlank = w ++ x from htrim]
        simp [hw]
    rw [happend, htrim, List.append_assoc]
    exact Option.isSome_iff_exists.mpr ⟨_, Text.dropStart?_eq_some.mpr rfl⟩
  simp only [beginsStatement, Bool.or_eq_true] at h ⊢
  exact h.imp (hkeyword _ (by decide)) (hkeyword _ (by decide))

/-- A keyword behind spaces and tabs begins a statement, whatever stands at the end of the line. -/
theorem Code.beginsStatement {i w y : List Char} (h : Code (raw) (i ++ (w ++ y)))
    (hi : AllIn isIndentChar i) (hw : w = "import".toList ∨ w = "from".toList) :
    beginsStatement (dropComment none raw) := by
  obtain ⟨b, hb, hcode⟩ := h.eq
  have hsolid : Text.Solid w := by
    rcases hw with rfl | rfl <;> exact .of_forall (by decide) (by simp [Text.isBlank])
  have hblank : Text.Blanks i :=
    fun c hc => isBlank_of_isGapChar (isGapChar_of_isIndentChar c (hi c hc))
  -- the keyword does not end with a blank
  obtain ⟨m, hm⟩ : ∃ m, dropComment none raw = i ++ (w ++ m) := by
    rw [← List.append_assoc] at hcode
    rcases List.append_eq_append_iff.mp hcode with ⟨m, hm, -⟩ | ⟨m, hm, rfl⟩
    · exact ⟨m, by rw [hm, List.append_assoc]⟩
    · obtain ⟨r, c, rfl, hc⟩ := hsolid.last
      cases m using List.reverseRecOn with
      | nil => exact ⟨[], by simpa using hm.symm⟩
      | append_singleton m d =>
        have hlast := congrArg List.getLast? hm
        obtain rfl : c = d := by simpa [← List.append_assoc] using hlast
        simp [hb c (by simp)] at hc
  obtain ⟨c, r, rfl, hc⟩ := hsolid.head
  have htrim : Text.trimStart (dropComment none raw) = (c :: r) ++ m := by
    rw [hm, Text.trimStart_append hblank, List.cons_append, Text.trimStart_of_head hc]
  rw [Python.beginsStatement, htrim]
  rcases hw with hw | hw <;> rw [hw]
  · exact Bool.or_eq_true_iff.mpr (.inl (Option.isSome_iff_exists.mpr
      ⟨m, Text.dropStart?_eq_some.mpr rfl⟩))
  · exact Bool.or_eq_true_iff.mpr (.inr (Option.isSome_iff_exists.mpr
      ⟨m, Text.dropStart?_eq_some.mpr rfl⟩))

/-- A line of code opens no long string either. -/
theorem Code.openLongString?_eq_none (h : Code raw code) :
    openLongString? (dropComment none raw) = none :=
  Python.openLongString?_eq_none h.plain_dropComment

/-- A line that begins no statement does nothing. -/
theorem readLine_other (h : Code raw code) (hother : ¬ beginsStatement code) :
    readLine {} n raw = ({}, none) := by
  have hbegins : ¬ beginsStatement (dropComment none raw) := fun hbegins => by
    obtain ⟨b, -, hcode⟩ := h.eq
    exact hother (hcode ▸ beginsStatement_append hbegins b)
  rw [readLine]
  simp only [h.openLongString?_eq_none]
  exact if_neg hbegins

/-- A line that begins a statement opens it, or is all of it. -/
theorem readLine_start (h : Code raw code) (hbegins : beginsStatement (dropComment none raw))
    {body : List Char} {continues : Bool}
    (hbody : dropContinuation (Text.trimEnd code) = (body, continues)) :
    readLine {} n raw =
      if (body.contains '(' && !body.contains ')') || continues then
        ({ pending := some ⟨⟨n, body⟩, body.contains '(' && !body.contains ')'⟩ }, none)
      else ({}, some ⟨n, body⟩) := by
  rw [readLine]
  simp only [h.openLongString?_eq_none, h.trimEnd_eq, hbody]
  exact if_pos hbegins

/-- A line behind an open statement goes on with it, or ends it. -/
theorem readLine_pending (h : Code raw code) (p : Pending) {body : List Char} {continues : Bool}
    (hbody : dropContinuation (Text.trim code) = (body, continues)) :
    readLine { pending := some p } n raw =
      if (p.inParens && !body.contains ')') || continues then
        ({ pending := some ⟨{ p.statement with text := p.statement.text ++ ' ' :: body },
          p.inParens && !body.contains ')'⟩ }, none)
      else ({}, some { p.statement with text := p.statement.text ++ ' ' :: body }) := by
  rw [readLine]
  simp only [h.openLongString?_eq_none, h.trim_eq, hbody]

/-- A backslash at the end is dropped, with the blanks before it. -/
theorem dropContinuation_backslash (t : List Char) :
    dropContinuation (t ++ ['\\']) = (Text.trimEnd t, true) := by
  rw [dropContinuation, Text.dropEnd?_append]

/-- A body that ends with another character goes on only in parentheses. -/
theorem dropContinuation_of_last (t : List Char) {c : Char} (hc : c ≠ '\\') :
    dropContinuation (t ++ [c]) = (t ++ [c], false) := by
  rw [dropContinuation, Text.dropEnd?]
  simp [Text.dropStart?, Ne.symm hc]

/-- A line without a backslash does not go on. -/
theorem dropContinuation_of_not_mem (h : '\\' ∉ t) : dropContinuation t = (t, false) := by
  cases t using List.reverseRecOn with
  | nil => rfl
  | append_singleton r c => exact dropContinuation_of_last r fun hc => h (by simp [hc])

/-! ### Lines one after another -/

/-- What lines do, the first of which has a number: what is open behind them, and the statements
that have ended with them. -/
inductive Runs : Joining → Nat → List (List Char) → Joining → List Statement → Prop where
  | nil (s : Joining) (n : Nat) : Runs s n [] s []
  | cons {s s₁ s' : Joining} {n : Nat} {x : List Char} {xs : List (List Char)}
      {ended : Option Statement} {out : List Statement} (step : readLine s n x = (s₁, ended))
      (run : Runs s₁ (n + 1) xs s' out) : Runs s n (x :: xs) s' (ended.toList ++ out)

/-- Two runs, one behind the other. The second counts its lines from where the first stopped. -/
theorem Runs.append {s s₁ s' : Joining} {xs ys : List (List Char)} {out out' : List Statement}
    (hx : Runs s n xs s₁ out) (hy : Runs s₁ (n + xs.length) ys s' out') :
    Runs s n (xs ++ ys) s' (out ++ out') := by
  induction hx with
  | nil => exact hy
  | @cons s s₂ s₃ n x xs ended out hstep _ ih =>
    rw [List.length_cons, Nat.add_comm xs.length 1, ← Nat.add_assoc] at hy
    rw [List.append_assoc]
    exact .cons hstep (ih hy)

/-- What waits for nothing at the end of the lines is all that there is. -/
theorem Runs.statementsFrom {s : Joining} {xs : List (List Char)} {out : List Statement}
    (h : Runs s n xs {} out) : statementsFrom s n xs = .ok out := by
  generalize hs : ({} : Joining) = s' at h
  induction h with
  | nil => rw [← hs]; rfl
  | cons hstep _ ih =>
    rw [Python.statementsFrom, hstep]
    simp only [ih hs]
    rfl

/-- Lines that leave nothing open, and the records of the statements that end with them. -/
def Gives (n : Nat) (xs : List (List Char)) (records : List ImportRecord) : Prop :=
  ∃ (out : List Statement) (recordLists : List (List ImportRecord)), Runs {} n xs {} out ∧
    out.map readStatement = recordLists.map .ok ∧ recordLists.flatten = records

theorem Gives.nil (n : Nat) : Gives n [] [] :=
  ⟨[], [], .nil _ _, rfl, rfl⟩

/-- Lines that are one statement. -/
theorem Gives.of_statement {s : Statement} {xs : List (List Char)} {records : List ImportRecord}
    (hruns : Runs {} n xs {} [s]) (hread : readStatement s = .ok records) : Gives n xs records :=
  ⟨[s], [records], hruns, by simp [hread], by simp⟩

/-- What two sequences of lines give, one behind the other, when the first leaves nothing open. -/
theorem Gives.append {xs ys : List (List Char)} {records records' : List ImportRecord}
    (hx : Gives n xs records) (hy : Gives (n + xs.length) ys records') :
    Gives n (xs ++ ys) (records ++ records') := by
  obtain ⟨out, recordLists, hruns, hread, rfl⟩ := hx
  obtain ⟨out', recordLists', hruns', hread', rfl⟩ := hy
  exact ⟨out ++ out', recordLists ++ recordLists', hruns.append hruns', by simp [hread, hread'],
    List.flatten_append⟩

/-- What the lines of a text give is all that it has. -/
theorem Gives.extract {text : List Char} {records : List ImportRecord}
    (h : Gives 1 (Text.lines text) records) (skipConditional : Bool) :
    extract skipConditional text =
      .ok (records.filter fun r => !(skipConditional && r.conditional)) := by
  obtain ⟨out, recordLists, hruns, hread, rfl⟩ := h
  have hrecords := mapM_eq_ok_iff.mpr hread
  rw [Python.extract, statements, hruns.statementsFrom]
  simp only [bind, Except.bind, hrecords]
  rfl

/-! ### The lines of a text -/

variable {xs codes : List (List Char)}

/-- The lines of a text hold the codes of which it was put together. -/
theorem forall₂_lines (h : List.Forall₂ Code xs codes) (hlast : xs.getLast? ≠ some []) :
    List.Forall₂ Code (Text.lines (Text.join ['\n'] xs)) codes := by
  induction h with
  | nil => exact .nil
  | @cons x code xs codes hcode hrest ih =>
    cases xs with
    | nil =>
      -- the last line is not empty, so it is read as a line
      rw [Text.join, Text.lines_of_not_mem hcode.line (by simpa using hlast)]
      exact .cons hcode hrest
    | cons y ys =>
      rw [List.getLast?_cons_cons] at hlast
      rw [Text.lines_join_cons hcode.line]
      exact .cons hcode.dropReturn (ih hlast)

/-- A newline at the end of a text makes no further line. -/
theorem forall₂_lines_concat (h : List.Forall₂ Code xs codes) (hne : xs ≠ []) :
    List.Forall₂ Code (Text.lines (Text.join ['\n'] (xs ++ [[]]))) codes := by
  induction h with
  | nil => exact absurd rfl hne
  | @cons x code xs codes hcode hrest ih =>
    cases xs with
    | nil =>
      -- the line end behind the last line ends it and begins none
      rw [List.singleton_append, Text.lines_join_cons hcode.line]
      exact .cons hcode.dropReturn hrest
    | cons y ys =>
      rw [List.cons_append, List.cons_append, Text.lines_join_cons hcode.line]
      exact .cons hcode.dropReturn (ih (by simp))

end ImportAtlas.Source.Python
