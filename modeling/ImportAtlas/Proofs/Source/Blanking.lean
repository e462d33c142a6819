import ImportAtlas.Proofs.Source.Comment
import ImportAtlas.Proofs.Text.Bytes
import ImportAtlas.Source.JavaScript
import ImportAtlas.Source.Rust
import Mathlib.Data.List.Forall2

/-!
# Blanked texts

Blanking a text changes no byte but to a blank, and no line end at all, so each byte keeps its
offset and its line. What is left has no comments, and blanking it again changes nothing.

* `faded_blankFrom` — byte for byte, what blanking makes of a text;
* `lineAtByte`, `lineAt_eq_lineAtByte` — the line of a byte, and that the lines of characters are
  those of their bytes;
* `isCommentFree` — whether no comment begins in a text; blanking leaves such a text alone
  (`blankFrom_of_isCommentFree`) and gives one (`isCommentFree_blankFrom`);
* `blankComments_blanked` — all of it, and that the imports of a text are those of the blanked one.
-/

namespace ImportAtlas.Source

open Glob (bytesOf bytesOf_cons)

variable {g : Region} {q c : Char} {r u : List Char}

/-! ### Bytes -/

/-- The byte of a newline. -/
def newline : UInt8 := UInt8.ofNat '\n'.toNat

/-- The byte of a blank. -/
def blank : UInt8 := UInt8.ofNat ' '.toNat

/-- What blanking may make of a byte: it stays or, if it ends no line, becomes a blank. -/
def Fades (before after : UInt8) : Prop :=
  after = before ∨ after = blank ∧ before ≠ newline

/-- One text is the other with some of its bytes blanked. -/
abbrev Faded (before after : List Char) : Prop :=
  List.Forall₂ Fades (bytesOf before) (bytesOf after)

/-- A character that stays. -/
theorem Faded.cons (h : Faded r u) (c : Char) : Faded (c :: r) (c :: u) := by
  rw [Faded, bytesOf_cons, bytesOf_cons]
  exact List.rel_append (List.forall₂_same.mpr fun _ _ => .inl rfl) h

/-- Bytes that are no newlines may all become blanks. -/
theorem faded_replicate {bytes : List UInt8} (h : newline ∉ bytes) :
    List.Forall₂ Fades bytes (List.replicate bytes.length blank) := by
  induction bytes with
  | nil => exact .nil
  | cons b bytes ih =>
    rw [List.mem_cons, not_or] at h
    exact .cons (.inr ⟨rfl, Ne.symm h.1⟩) (ih h.2)

/-- A character becomes as many blanks as it has bytes. -/
theorem bytesOf_blanksFor (c : Char) : bytesOf (blanksFor c) = List.replicate c.utf8Size blank := by
  rw [blanksFor]
  induction c.utf8Size with
  | zero => rfl
  | succ n ih =>
    rw [List.replicate_succ, bytesOf_cons, ih]
    rfl

/-- So a character that is no newline may become its blanks. -/
theorem Faded.blanks (h : Faded r u) (hc : c ≠ '\n') : Faded (c :: r) (blanksFor c ++ u) := by
  have hbytes := faded_replicate (Glob.not_mem_utf8EncodeChar (d := '\n') (by decide) hc)
  rw [String.length_utf8EncodeChar, ← bytesOf_blanksFor] at hbytes
  rw [Faded, bytesOf_cons, Glob.bytesOf_append]
  exact List.rel_append hbytes h

/-- **Byte by byte** a text stays or becomes blank, whatever it begins within. -/
theorem faded_blankFrom (g : Region) (t : List Char) : Faded t (blankFrom g t) := by
  fun_induction blankFrom g t with
  | case1 => exact .nil
  -- the two signs of a comment are blanked, what stands in code is kept
  | case2 r ih => exact (ih.blanks (c := '/') (by decide)).blanks (c := '/') (by decide)
  | case3 r ih => exact (ih.blanks (c := '*') (by decide)).blanks (c := '/') (by decide)
  | case4 c r _ _ ih => exact ih.cons c
  | case5 r ih => exact ih.cons '\n'
  | case6 c r hc ih => exact ih.blanks hc
  | case7 r ih => exact (ih.blanks (c := '/') (by decide)).blanks (c := '*') (by decide)
  | case8 r _ ih => exact ih.cons '\n'
  | case9 c r _ hc ih => exact ih.blanks hc
  | case10 q c r ih => exact (ih.cons c).cons '\\'
  | case11 q c r _ ih => exact ih.cons c

/-- Between lists that fade, bytes that are no line ends do not become line ends. -/
theorem getElem?_of_fades {before after : List UInt8} (h : List.Forall₂ Fades before after)
    (i : Nat) :
    (after[i]? = before[i]? ∨ after[i]? = some blank) ∧
      (after[i]? = some newline ↔ before[i]? = some newline) := by
  induction h generalizing i with
  | nil => exact ⟨.inl rfl, Iff.rfl⟩
  | cons hb _ ih =>
    cases i with
    | succ i => exact ih i
    | zero =>
      -- the byte stays, or it becomes blank and was no newline
      rcases hb with rfl | ⟨rfl, hline⟩
      · exact ⟨.inl rfl, Iff.rfl⟩
      · have hblank : blank ≠ newline := by decide
        exact ⟨.inr rfl, iff_of_false (fun heq => hblank (Option.some.inj heq))
          (fun heq => hline (Option.some.inj heq))⟩

/-! ### Lines -/

/-- The number of the line at an offset in bytes, counted from one. -/
def lineAtByte (bytes : List UInt8) (offset : Nat) : Nat :=
  (bytes.take offset).count newline + 1

/-- The line of a character is that of its first byte. -/
theorem lineAt_eq_lineAtByte (t : List Char) (n : Nat) :
    lineAt t n = lineAtByte (bytesOf t) (bytesOf (t.take n)).length := by
  rw [lineAt, lineAtByte, Glob.take_bytesOf, newline, Glob.count_bytesOf (by decide)]

/-- The newlines stay in their places, so every byte stays in its line. -/
theorem lineAtByte_of_fades {before after : List UInt8} (h : List.Forall₂ Fades before after)
    (offset : Nat) : lineAtByte after offset = lineAtByte before offset := by
  rw [lineAtByte, lineAtByte]
  congr 1
  induction h generalizing offset with
  | nil => rfl
  | cons hb _ ih =>
    cases offset with
    | zero => rfl
    | succ n =>
      rw [List.take_succ_cons, List.take_succ_cons, List.count_cons, List.count_cons, ih]
      -- the byte stays, or neither it nor the blank is a newline
      rcases hb with rfl | ⟨rfl, hline⟩
      · rfl
      · rw [if_neg (by decide), if_neg (by simpa using hline)]

/-! ### Comments -/

/-- Whether no comment begins in the rest of a text, read from inside code or quoted text. -/
def isCommentFree : Region → List Char → Bool
  | _, [] => true
  | .code, '/' :: '/' :: _ => false
  | .code, '/' :: '*' :: _ => false
  | .code, c :: r =>
    isCommentFree (if c = '"' ∨ c = '\'' ∨ c = '\x60' then .quoted c else .code) r
  | .quoted q, '\\' :: _ :: r => isCommentFree (.quoted q) r
  | .quoted q, c :: r =>
    isCommentFree (if c = q ∨ (c = '\n' ∧ q ≠ '\x60') then .code else .quoted q) r
  | .lineComment, _ :: _ => false
  | .blockComment, _ :: _ => false

/-- Without comments a text stays as it is. -/
theorem blankFrom_of_isCommentFree {t : List Char} (h : isCommentFree g t) : blankFrom g t = t := by
  fun_induction isCommentFree g t with
  | case1 => rw [blankFrom]
  -- no comment begins, so every character is kept
  | case2 | case3 | case7 | case8 => cases h
  | case4 c r hline hblock ih =>
    rw [blankFrom, ih h]
    · exact hline
    · exact hblock
  | case5 q c r ih => rw [blankFrom, ih h]
  | case6 q c r hescape ih =>
    rw [blankFrom, ih h]
    exact hescape

/-- The region in which what is left of a region is read. -/
def outside : Region → Region
  | .quoted q => .quoted q
  | _ => .code

/-- A character of the code that begins no comment. -/
theorem isCommentFree_code_cons (h : c = '/' → u.head? ≠ some '/' ∧ u.head? ≠ some '*') :
    isCommentFree .code (c :: u) =
      isCommentFree (if c = '"' ∨ c = '\'' ∨ c = '\x60' then .quoted c else .code) u := by
  rw [isCommentFree]
  · rintro v hc rfl
    exact (h hc).1 rfl
  · rintro v hc rfl
    exact (h hc).2 rfl

/-- A character of a string that escapes nothing. -/
theorem isCommentFree_quoted_cons (h : c = '\\' → u = []) :
    isCommentFree (.quoted q) (c :: u) =
      isCommentFree (if c = q ∨ (c = '\n' ∧ q ≠ '\x60') then .code else .quoted q) u := by
  rw [isCommentFree]
  rintro d v hc rfl
  cases h hc

/-- Blanks are no part of a comment. -/
theorem isCommentFree_blanksFor (c : Char) (u : List Char) :
    isCommentFree .code (blanksFor c ++ u) = isCommentFree .code u := by
  rw [blanksFor]
  induction c.utf8Size with
  | zero => rfl
  | succ n ih =>
    have hblank : ' ' = '/' → False := by decide
    rw [List.replicate_succ, List.cons_append,
      isCommentFree_code_cons fun h => absurd h hblank, ← ih]
    rfl

/-- Code that does not begin with a slash begins as before when its comments are blanked. -/
theorem head?_blankFrom_code (h : r.head? ≠ some '/') : (blankFrom .code r).head? = r.head? := by
  cases r with
  | nil => rw [blankFrom]
  | cons d r =>
    have hd : d ≠ '/' := fun heq => h (congrArg some heq)
    rw [blankFrom]
    · rfl
    all_goals exact fun _ heq => absurd heq hd

/-- Blanking leaves no comment. Two characters of code that begin none have none between them, so
they stay neighbours. -/
theorem isCommentFree_blankFrom (g : Region) (t : List Char) :
    isCommentFree (outside g) (blankFrom g t) := by
  fun_induction blankFrom g t with
  | case1 => rw [isCommentFree]
  | case2 r ih | case3 r ih | case7 r ih =>
    exact (isCommentFree_blanksFor '/' _).trans ((isCommentFree_blanksFor '/' _).trans ih)
  | case4 c r hline hblock ih =>
    change isCommentFree .code (c :: _)
    rw [isCommentFree_code_cons]
    · rwa [apply_ite outside] at ih
    · -- a slash keeps its neighbour, so that it begins no comment afterwards either
      rintro rfl
      have hr : r.head? ≠ some '/' := fun heq => by
        obtain ⟨v, rfl⟩ := List.head?_eq_some_iff.mp heq
        exact hline v rfl rfl
      rw [if_neg (by decide), head?_blankFrom_code hr]
      refine ⟨hr, fun heq => ?_⟩
      obtain ⟨v, rfl⟩ := List.head?_eq_some_iff.mp heq
      exact hblock v rfl rfl
  | case5 r ih | case8 r _ ih =>
    change isCommentFree .code ('\n' :: _)
    rw [isCommentFree_code_cons (fun h => absurd h (by decide))]
    exact ih
  | case6 c r hc ih | case9 c r _ hc ih => exact (isCommentFree_blanksFor c _).trans ih
  | case10 q c r ih =>
    rw [outside, isCommentFree]
    exact ih
  | case11 q c r hescape ih =>
    -- a backslash stands here only where the text ends
    rw [outside, isCommentFree_quoted_cons]
    · rwa [apply_ite outside] at ih
    · rintro rfl
      cases r with
      | nil => rw [blankFrom]
      | cons d r => exact absurd rfl (hescape d r rfl)

/-- **Idempotence.** What has been blanked has no comments any more. -/
theorem blankComments_blankComments (t : List Char) :
    blankComments (blankComments t) = blankComments t :=
  blankFrom_of_isCommentFree (isCommentFree_blankFrom .code t)

/-- **Blanked texts.** Byte for byte, a blanked text is the text or blank, and ends its lines where
the text does; so both have the same line at every byte. It has no comments, and so the same
imports. -/
theorem blankComments_blanked (text : List Char) :
    let code := blankComments text
    (bytesOf code).length = (bytesOf text).length ∧
      (∀ i : Nat, (bytesOf code)[i]? = (bytesOf text)[i]? ∨ (bytesOf code)[i]? = some blank) ∧
      (∀ i : Nat, (bytesOf code)[i]? = some newline ↔ (bytesOf text)[i]? = some newline) ∧
      (∀ i, lineAtByte (bytesOf code) i = lineAtByte (bytesOf text) i) ∧
      (∀ n, lineAt code n = lineAtByte (bytesOf text) (bytesOf (code.take n)).length) ∧
      isCommentFree .code code ∧ blankComments code = code ∧
      JavaScript.extract code = JavaScript.extract text ∧
      Rust.extract code = Rust.extract text := by
  intro code
  have hfaded : Faded text code := faded_blankFrom .code text
  have hagain : blankComments code = code := blankComments_blankComments text
  -- blanking keeps a byte or puts a blank in its place, and a line end it always keeps
  refine ⟨hfaded.length_eq.symm, fun i => (getElem?_of_fades hfaded i).1,
    fun i => (getElem?_of_fades hfaded i).2, lineAtByte_of_fades hfaded, fun n => ?_,
    isCommentFree_blankFrom .code text, hagain, ?_, ?_⟩
  · rw [lineAt_eq_lineAtByte, lineAtByte_of_fades hfaded]
  · -- both extractors blank comments first, and blanking twice is blanking once
    rw [JavaScript.extract, hagain, JavaScript.extract]
  · rw [Rust.extract, hagain, Rust.extract]

end ImportAtlas.Source
