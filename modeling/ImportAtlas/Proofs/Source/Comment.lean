import ImportAtlas.Source.Comment
import Mathlib.Algebra.Group.Nat.Even
import Mathlib.Data.List.Infix

/-!
# What blanking leaves alone

Code without comments and quoted text stay as they are, a `//` comment becomes blanks up to the end
of its line, and of a block comment its blanks and line ends are left.

* `blankFrom_inert`, `blankFrom_quoted`, `blankFrom_comment`, `blankFrom_blockComment` — the four of
  them, with whatever follows;
* `blankFrom_singleQuotes` — on a line with single quotes as its only quotes, each of them begins or
  ends quoted text, so the region at its end is told by their number;
* `lineAt_append` — all places of a line have its number.
-/

namespace ImportAtlas.Source

/-- In code, a character that begins neither a comment nor quoted text. -/
def isInert (c : Char) : Bool :=
  !(c == '/' || c == '"' || c == '\'' || c == '\x60')

/-- Text without marks and quotes stays, and the code goes on behind it. -/
theorem blankFrom_inert {t : List Char} (h : ∀ c ∈ t, isInert c) (r : List Char) :
    blankFrom .code (t ++ r) = t ++ blankFrom .code r := by
  induction t with
  | nil => rfl
  | cons c t ih =>
    obtain ⟨hc, ht⟩ := List.forall_mem_cons.mp h
    simp only [isInert, Bool.not_eq_true', Bool.or_eq_false_iff, beq_eq_false_iff_ne] at hc
    obtain ⟨⟨⟨hslash, hdouble⟩, hsingle⟩, hback⟩ := hc
    rw [List.cons_append, blankFrom, if_neg (by simp [*]), ih ht, List.cons_append]
    all_goals simp [hslash]

/-- Quoted text on one line without backslashes ends at the first quote like the one before it. -/
theorem blankFrom_quoted {q : Char} (hq : q = '"' ∨ q = '\'' ∨ q = '\x60') {t : List Char}
    (h : ∀ c ∈ t, c ≠ q ∧ c ≠ '\\' ∧ c ≠ '\n') (r : List Char) :
    blankFrom .code (q :: (t ++ q :: r)) = q :: (t ++ q :: blankFrom .code r) := by
  -- up to the closing quote every character stays
  have hinside : blankFrom (.quoted q) (t ++ q :: r) = t ++ q :: blankFrom .code r := by
    induction t with
    | nil =>
      have hback : q ≠ '\\' := by rcases hq with rfl | rfl | rfl <;> decide
      rw [List.nil_append, blankFrom, if_pos (.inl rfl), List.nil_append]
      simp [hback]
    | cons c t ih =>
      obtain ⟨⟨hcq, hback, hline⟩, ht⟩ := List.forall_mem_cons.mp h
      rw [List.cons_append, blankFrom, if_neg (by simp [hcq, hline]), ih ht, List.cons_append]
      simp [hback]
  have hslash : q ≠ '/' := by rcases hq with rfl | rfl | rfl <;> decide
  rw [blankFrom, if_pos hq, hinside]
  all_goals simp [hslash]

/-- A comment ends at the end of its line, and leaves as many blanks as it has bytes. -/
theorem blankFrom_comment {t r : List Char} (h : '\n' ∉ t) (hr : r = [] ∨ ∃ s, r = '\n' :: s) :
    blankFrom .code ('/' :: '/' :: (t ++ r)) =
      ' ' :: ' ' :: (t.flatMap blanksFor ++ blankFrom .code r) := by
  rw [blankFrom]
  congr 2
  -- character by character, up to the end of the line
  induction t with
  | nil =>
    rcases hr with rfl | ⟨s, rfl⟩
    · rfl
    · simp [blankFrom]
  | cons c t ih =>
    rw [List.mem_cons, not_or] at h
    rw [List.cons_append, blankFrom, if_neg (Ne.symm h.1), ih h.2, List.flatMap_cons,
      List.append_assoc]

theorem mem_blanksFor {c d : Char} (h : d ∈ blanksFor c) : d = ' ' :=
  List.eq_of_mem_replicate h

/-- On a line, a character that begins no comment and is no quote but a single one. -/
def isPlain (c : Char) : Bool :=
  !(c == '\n' || c == '/' || c == '"' || c == '\x60' || c == '\\')

/-- Each single quote begins quoted text or ends it, whatever it is meant for. -/
theorem blankFrom_singleQuotes {t : List Char} (h : ∀ c ∈ t, isPlain c) (r : List Char) :
    blankFrom .code (t ++ r) =
        t ++ blankFrom (if Even (t.count '\'') then .code else .quoted '\'') r ∧
      blankFrom (.quoted '\'') (t ++ r) =
        t ++ blankFrom (if Even (t.count '\'') then .quoted '\'' else .code) r := by
  induction t with
  | nil => simp
  | cons c t ih =>
    obtain ⟨hc, ht⟩ := List.forall_mem_cons.mp h
    simp only [isPlain, Bool.not_eq_true', Bool.or_eq_false_iff, beq_eq_false_iff_ne] at hc
    obtain ⟨⟨⟨⟨hline, hslash⟩, hdouble⟩, hback⟩, hescape⟩ := hc
    obtain ⟨hcode, hquoted⟩ := ih ht
    have hfromCode : blankFrom .code (c :: (t ++ r)) =
        c :: blankFrom (if c = '\'' then .quoted '\'' else .code) (t ++ r) := by
      rw [blankFrom]
      · by_cases hsingle : c = '\'' <;> simp [*]
      all_goals simp [hslash]
    have hfromQuoted : blankFrom (.quoted '\'') (c :: (t ++ r)) =
        c :: blankFrom (if c = '\'' then .code else .quoted '\'') (t ++ r) := by
      rw [blankFrom]
      · simp [hline]
      · simp [hescape]
    rw [List.cons_append, hfromCode, hfromQuoted]
    -- a quote swaps the two regions, and the number of quotes left is even just if it was odd
    by_cases hsingle : c = '\''
    · subst hsingle
      simp only [if_true, hcode, hquoted, List.count_cons_self, Nat.even_add_one, ite_not,
        List.cons_append, and_self]
    · simp only [hsingle, if_false, hcode, hquoted, List.count_cons_of_ne hsingle,
        List.cons_append, and_self]

/-- Of a block comment, blanks and line ends are left. It ends at the first place where it can. -/
theorem blankFrom_blockComment {t : List Char} (h : ¬ "*/".toList <:+: t) (r : List Char) :
    ∃ w, (∀ c ∈ w, c = ' ' ∨ c = '\n') ∧
      blankFrom .blockComment (t ++ "*/".toList ++ r) = w ++ blankFrom .code r := by
  induction t with
  | nil => exact ⟨"  ".toList, fun c hc => .inl (by simpa using hc), rfl⟩
  | cons c t ih =>
    rw [List.infix_cons_iff, not_or] at h
    obtain ⟨w, hw, hrest⟩ := ih h.2
    -- the comment does not end here, because its end would begin with this character
    have hgo : ∀ s, c = '*' → t ++ "*/".toList ++ r = '/' :: s → False := by
      rintro s rfl hs
      cases t with
      | nil => exact absurd (List.cons.inj hs).1 (by decide)
      | cons d t =>
        obtain ⟨rfl, -⟩ := List.cons.inj hs
        exact h.1 ⟨t, rfl⟩
    refine ⟨(if c = '\n' then ['\n'] else blanksFor c) ++ w, fun d hd => ?_, ?_⟩
    · rcases List.mem_append.mp hd with hd | hd
      · split at hd
        · exact .inr (List.mem_singleton.mp hd)
        · exact .inl (mem_blanksFor hd)
      · exact hw d hd
    · rw [List.cons_append, List.cons_append, blankFrom, hrest]
      · split <;> simp
      · exact hgo

/-- All places of a line have the number of the line. -/
theorem lineAt_append {x y : List Char} (hy : '\n' ∉ y) (r : List Char) {n : Nat}
    (hn : n ≤ y.length) : lineAt (x ++ (y ++ r)) (x.length + n) = x.count '\n' + 1 := by
  have htake : (x ++ (y ++ r)).take (x.length + n) = x ++ y.take n := by
    rw [List.take_length_add_append, List.take_append_of_le_length hn]
  have hcount : (y.take n).count '\n' = 0 :=
    List.count_eq_zero.mpr fun h => hy (List.mem_of_mem_take h)
  rw [lineAt, htake, List.count_append, hcount]

end ImportAtlas.Source
