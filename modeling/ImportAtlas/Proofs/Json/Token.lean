import ImportAtlas.Json.Parse
import ImportAtlas.Proofs.Json.Printed
import ImportAtlas.Proofs.Source.Layout
import Mathlib.Data.List.Find

/-!
# The tokens of JSON

A text of JSON is made of tokens: marks, strings, and words, which are numbers and names. The reader
takes a string up to its closing quote and looks no further, and of a word at most the word.

* `StringBody` — what stands between the quotes of a string; `units?_stringBody` and
  `exists_stringBody` say that the reader takes such texts and no others;
* `Takes` — a reader that takes characters of words, and looks no further than the word; the parts
  of a number are such readers, and `Takes.andThen` puts them together (`takes_number`);
* `word?`, `word?_append` — the value that a word begins with, whatever follows the word.
-/

namespace ImportAtlas.Json.Reader

open Source (AllIn)

variable {c : Char} {t r s w body rest : List Char}

/-! ### Strings -/

/-- What a string holds between its quotes. -/
inductive StringBody : List Char → Prop where
  | nil : StringBody []
  | char {c : Char} {r : List Char} (hquote : c ≠ '"') (hback : c ≠ '\\')
    (hcontrol : ¬ c.toNat < 0x20) (h : StringBody r) : StringBody (c :: r)
  | escape {c : Char} {r : List Char} (hc : c ∈ ['"', '\\', '/', 'b', 'f', 'n', 'r', 't'])
    (h : StringBody r) : StringBody ('\\' :: c :: r)
  | unicode {a b c d : Char} {n : Nat} {r : List Char} (hn : hex4? a b c d = some n)
    (h : StringBody r) : StringBody ('\\' :: 'u' :: a :: b :: c :: d :: r)

/-- A string is read up to the quote that closes it, whatever follows. -/
theorem units?_stringBody (h : StringBody body) :
    ∃ us, ∀ rest, units? (body ++ '"' :: rest) = some (us, rest) := by
  induction h with
  | nil => exact ⟨[], fun rest => by rw [List.nil_append, units?]⟩
  | @char c r hquote hback hcontrol _ ih =>
    obtain ⟨us, hus⟩ := ih
    refine ⟨.char c :: us, fun rest => ?_⟩
    rw [List.cons_append, units?, if_neg hcontrol, hus]
    · rfl
    -- it is neither a quote nor a backslash, nor a control character
    all_goals simp [hquote, hback]
  | @escape c r hc _ ih =>
    obtain ⟨us, hus⟩ := ih
    simp only [List.mem_cons, List.not_mem_nil, or_false] at hc
    -- each short escape stands for one character
    rcases hc with rfl | rfl | rfl | rfl | rfl | rfl | rfl | rfl <;>
      exact ⟨_, fun rest => by simp [units?, hus]; rfl⟩
  | @unicode a b c d n r hn _ ih =>
    obtain ⟨us, hus⟩ := ih
    refine ⟨.escaped n :: us, fun rest => ?_⟩
    simp only [List.cons_append, units?, hn, hus]
    rfl

/-- When a unit was read, the rest of the string was. -/
theorem exists_of_unit {x : StringUnit} {us : List StringUnit}
    (h : ((units? r).bind fun p => some (x :: p.1, p.2)) = some (us, rest)) :
    ∃ us', units? r = some (us', rest) := by
  obtain ⟨⟨us', rest'⟩, hr, heq⟩ := Option.bind_eq_some_iff.mp h
  cases heq
  exact ⟨us', hr⟩

/-- What was read as a string has a quote that closes it. -/
theorem exists_stringBody {us : List StringUnit} (h : units? t = some (us, rest)) :
    ∃ body, StringBody body ∧ t = body ++ '"' :: rest := by
  fun_induction units? t generalizing us with
  | case1 => cases h
  | case2 r =>
    cases h
    exact ⟨[], .nil, rfl⟩
  | case3 a b c d r ih =>
    obtain ⟨n, hn, h⟩ := Option.bind_eq_some_iff.mp h
    obtain ⟨us', hr⟩ := exists_of_unit h
    obtain ⟨body, hbody, rfl⟩ := ih hr
    exact ⟨_, .unicode hn hbody, rfl⟩
  | case4 r | case5 r | case6 r | case7 r | case8 r
  | case9 r | case10 r | case11 r =>
    rename_i ih
    obtain ⟨us', hr⟩ := exists_of_unit h
    obtain ⟨body, hbody, rfl⟩ := ih hr
    exact ⟨_, .escape (by decide) hbody, rfl⟩
  | case12 => cases h
  | case13 => cases h
  | case14 c r hquote _ hescape hcontrol ih =>
    obtain ⟨us', hr⟩ := exists_of_unit h
    obtain ⟨body, hbody, rfl⟩ := ih hr
    have hback : c ≠ '\\' := by
      rintro rfl
      -- a backslash is followed by something, at least by the closing quote
      obtain ⟨d, u, hu⟩ := List.exists_cons_of_ne_nil
        (List.append_ne_nil_of_right_ne_nil body (List.cons_ne_nil '"' rest))
      exact hescape d u rfl hu
    exact ⟨_, .char hquote hback hcontrol hbody, rfl⟩

/-! ### Words -/

/-- A character of a number or of a name. -/
def isWordChar (c : Char) : Bool :=
  c.isAlphanum || c == '+' || c == '-' || c == '.'

/-- What does not go on a word. -/
def Stops (r : List Char) : Prop :=
  ∀ c ∈ r.head?, isWordChar c = false

theorem Stops.nil : Stops [] := by
  simp [Stops]

theorem Stops.cons (hc : isWordChar c = false) (r : List Char) : Stops (c :: r) := by
  simpa [Stops] using hc

/-- Where a word ends no character of a word follows. -/
theorem Stops.ne_cons (h : Stops r) (hc : isWordChar c) (u : List Char) : r ≠ c :: u := by
  rintro rfl
  rw [h c rfl] at hc
  cases hc

theorem isWordChar_of_isDigit (h : c.isDigit) : isWordChar c := by
  simp [isWordChar, Char.isAlphanum, h]

/-- Digits end where the word does. -/
theorem digits_append (hr : Stops r) (w : List Char) :
    (w ++ r).takeWhile Char.isDigit = w.takeWhile Char.isDigit ∧
      (w ++ r).dropWhile Char.isDigit = w.dropWhile Char.isDigit ++ r := by
  induction w with
  | nil =>
    cases r with
    | nil => exact ⟨rfl, rfl⟩
    | cons c r =>
      -- digits are characters of words, so the rest begins with none
      have hc : ¬ c.isDigit := fun h => hr.ne_cons (isWordChar_of_isDigit h) r rfl
      simp [hc]
  | cons c w ih =>
    by_cases hc : c.isDigit
    · simp [hc, ih]
    · simp [hc]

/-- A reader that takes characters of words, and looks no further than to the end of the word. -/
structure Takes (f : List Char → Option (List Char × List Char)) : Prop where
  taken : ∀ {t s rest}, f t = some (s, rest) → t = s ++ rest ∧ AllIn isWordChar s
  append : ∀ {w r}, AllIn isWordChar w → Stops r →
    f (w ++ r) = (f w).map fun (s, v) => (s, v ++ r)

/-- One reader after another. -/
def andThen (f g : List Char → Option (List Char × List Char)) (t : List Char) :
    Option (List Char × List Char) :=
  (f t).bind fun (s, u) => (g u).map fun (s', v) => (s ++ s', v)

/-- Two readers one after the other take what they take, and the second does not see where the text
ends. -/
theorem Takes.andThen {f g : List Char → Option (List Char × List Char)} (hf : Takes f)
    (hg : Takes g) : Takes (andThen f g) where
  taken {t s rest} h := by
    obtain ⟨⟨s₁, u⟩, hfirst, h⟩ := Option.bind_eq_some_iff.mp h
    obtain ⟨⟨s₂, v⟩, hsecond, heq⟩ := Option.map_eq_some_iff.mp h
    cases heq
    obtain ⟨rfl, hs₁⟩ := hf.taken hfirst
    obtain ⟨rfl, hs₂⟩ := hg.taken hsecond
    exact ⟨(List.append_assoc ..).symm, hs₁.append hs₂⟩
  append {w r} hw hr := by
    rw [Reader.andThen, Reader.andThen, hf.append hw hr]
    cases hfirst : f w with
    | none => rfl
    | some read =>
      obtain ⟨s, u⟩ := read
      -- what the first reader leaves of a word is characters of words again
      obtain ⟨rfl, -⟩ := hf.taken hfirst
      have hu : AllIn isWordChar u := fun c hc => hw c (List.mem_append_right s hc)
      simp only [Option.map_some, Option.bind_some, hg.append hu hr, Option.map_map]
      rfl

/-- Digits are characters of words. -/
theorem takes_digits : Takes digits? where
  taken {t s rest} h := by
    rw [digits?] at h
    split at h
    · cases h
    · next ds hds =>
      cases h
      refine ⟨(List.takeWhile_append_dropWhile ..).symm, fun c hc => ?_⟩
      exact isWordChar_of_isDigit (List.mem_takeWhile_imp hc)
  append {w r} _ hr := by
    obtain ⟨htake, hdrop⟩ := digits_append hr w
    rw [digits?, digits?, htake, hdrop]
    split <;> rfl

/-- A whole number consists of characters of words. -/
theorem takes_whole : Takes whole? where
  taken {t s rest} h := by
    rw [whole?.eq_def] at h
    split at h
    · split at h
      · cases h
      · cases h
        exact ⟨rfl, .of_all rfl⟩
    · exact takes_digits.taken h
  append {w r} hw hr := by
    cases w with
    | nil =>
      have hzero : ∀ u, r ≠ '0' :: u := hr.ne_cons (by decide)
      rw [List.nil_append, whole?.eq_2 r hzero]
      exact takes_digits.append (w := []) hw hr
    | cons c w =>
      by_cases hc : c = '0'
      · subst hc
        -- whether a digit follows the zero is seen within the word
        have hhead : (w ++ r).head?.any Char.isDigit = w.head?.any Char.isDigit := by
          cases w with
          | cons d w => rfl
          | nil =>
            cases r with
            | nil => rfl
            | cons d r =>
              exact Bool.eq_false_iff.mpr fun h => hr.ne_cons (isWordChar_of_isDigit h) r rfl
        rw [List.cons_append, whole?, whole?, hhead]
        split <;> rfl
      · have hzero : ∀ v u : List Char, c :: v ≠ '0' :: u := fun _ _ h => hc (List.cons.inj h).1
        rw [List.cons_append, whole?.eq_2 _ (hzero _), whole?.eq_2 _ (hzero _)]
        exact takes_digits.append (w := c :: w) hw hr

/-- A reader that takes nothing. -/
def nothing (t : List Char) : Option (List Char × List Char) :=
  some ([], t)

/-- Nothing is taken from any text. -/
theorem takes_nothing : Takes nothing where
  taken h := by
    cases h
    exact ⟨rfl, .of_all rfl⟩
  append _ _ := rfl

/-- A reader behind a character of a kind; without such a character nothing is taken. -/
def behind (mark : Char → Bool) (f : List Char → Option (List Char × List Char)) :
    List Char → Option (List Char × List Char)
  | c :: r => if mark c then (f r).map fun (s, v) => (c :: s, v) else some ([], c :: r)
  | [] => some ([], [])

/-- A mark that is a character of words may be read or not. Whether it is does not depend on what
follows the word. -/
theorem Takes.behind {mark : Char → Bool} (hmark : ∀ c, mark c → isWordChar c)
    {f : List Char → Option (List Char × List Char)} (hf : Takes f) : Takes (behind mark f) where
  taken {t s rest} h := by
    cases t with
    | nil =>
      cases h
      exact ⟨rfl, .of_all rfl⟩
    | cons c t =>
      rw [Reader.behind] at h
      split at h
      · next hc =>
        obtain ⟨⟨s, u⟩, hread, heq⟩ := Option.map_eq_some_iff.mp h
        cases heq
        obtain ⟨rfl, hword⟩ := hf.taken hread
        exact ⟨rfl, List.forall_mem_cons.mpr ⟨hmark c hc, hword⟩⟩
      · cases h
        exact ⟨rfl, .of_all rfl⟩
  append {w r} hw hr := by
    cases w with
    | nil =>
      cases r with
      | nil => rfl
      | cons c r =>
        -- the word is empty, and what follows begins with no mark
        have hc : ¬ mark c := fun h => hr.ne_cons (hmark c h) r rfl
        rw [List.nil_append, Reader.behind, if_neg hc]
        rfl
    | cons c w =>
      rw [List.cons_append, Reader.behind, Reader.behind]
      split
      · rw [hf.append (List.forall_mem_cons.mp hw).2 hr, Option.map_map, Option.map_map]
        rfl
      · rfl

/-- The fraction is digits behind a point. -/
theorem fraction?_eq : fraction? = behind (· == '.') digits? := by
  funext t
  rw [fraction?.eq_def]
  split
  · rfl
  · next h =>
    cases t with
    | nil => rfl
    | cons c t =>
      have hc : ¬ (c == '.') := fun hc => h t (congrArg (· :: t) (beq_iff_eq.mp hc))
      rw [behind, if_neg hc]

/-- The mark of an exponent. -/
def isExponentMark (c : Char) : Bool :=
  c == 'e' || c == 'E'

/-- The signs of an exponent. -/
def isSign (c : Char) : Bool :=
  c == '+' || c == '-'

/-- The exponent is digits behind a letter, with or without a sign. -/
theorem exponent?_eq :
    exponent? = behind isExponentMark (andThen (behind isSign nothing) digits?) := by
  funext t
  cases t with
  | nil => rfl
  | cons c t =>
    rw [exponent?.eq_def, behind]
    simp only [isExponentMark, Bool.or_eq_true, beq_iff_eq]
    congr 1
    -- with either sign, and without
    split
    · next r => cases h : digits? r <;> simp [andThen, behind, isSign, nothing, h]
    · next r => cases h : digits? r <;> simp [andThen, behind, isSign, nothing, h]
    · next hplus hminus =>
      have hsign : behind isSign nothing t = some ([], t) := by
        cases t with
        | nil => rfl
        | cons d t =>
          have hd : ¬ isSign d := by
            simp only [isSign, Bool.or_eq_true, beq_iff_eq, not_or]
            exact ⟨fun h => hplus t (congrArg (· :: t) h), fun h => hminus t (congrArg (· :: t) h)⟩
          rw [behind, if_neg hd]
      cases h : digits? t <;> simp [andThen, hsign, h]

/-- A number is its four parts, one after the other: sign, whole number, fraction and exponent. -/
theorem number?_eq : number? =
    andThen (andThen (andThen (behind (· == '-') nothing) whole?) fraction?) exponent? := by
  funext t
  -- a number begins with its sign, or with its digits when there is none
  by_cases h : ∃ u, t = '-' :: u
  · obtain ⟨u, rfl⟩ := h
    have hsign : behind (· == '-') nothing ('-' :: u) = some (['-'], u) := rfl
    simp only [number?, andThen, hsign, Option.bind_some, Option.bind_eq_bind, Option.map_eq_bind,
      Option.bind_assoc, Function.comp_apply, List.append_assoc]
    rfl
  · have hne : ∀ u, t = '-' :: u → False := fun u hu => h ⟨u, hu⟩
    have hsign : behind (· == '-') nothing t = some ([], t) := by
      cases t with
      | nil => rfl
      | cons c u =>
        have hc : ¬ (c == '-') := fun hc => hne u (by rw [beq_iff_eq.mp hc])
        rw [behind, if_neg hc]
    simp only [number?, andThen, hsign, Option.bind_some, Option.bind_eq_bind, Option.map_eq_bind,
      Option.bind_assoc, Function.comp_apply, List.append_assoc, List.nil_append]
    rfl

/-- **Numbers.** A number is taken from the front of a word. -/
theorem takes_number : Takes number? := by
  have hexponent : ∀ c, isExponentMark c → isWordChar c := by
    intro c hc
    simp only [isExponentMark, Bool.or_eq_true, beq_iff_eq] at hc
    rcases hc with rfl | rfl <;> decide
  have hsign : ∀ c, isSign c → isWordChar c := by
    intro c hc
    simp only [isSign, Bool.or_eq_true, beq_iff_eq] at hc
    rcases hc with rfl | rfl <;> decide
  have hmark : ∀ d, isWordChar d → ∀ c, (c == d) → isWordChar c := by
    intro d hd c hc
    rwa [beq_iff_eq.mp hc]
  rw [number?_eq, fraction?_eq, exponent?_eq]
  -- part by part, as `number?_eq` has them
  exact (((takes_nothing.behind (hmark '-' (by decide))).andThen takes_whole).andThen
    (takes_digits.behind (hmark '.' (by decide)))).andThen
      (((takes_nothing.behind hsign).andThen takes_digits).behind hexponent)

/-- The names of values. -/
def names : List (List Char × Json) :=
  [("null".toList, .null), ("true".toList, .bool true), ("false".toList, .bool false)]

/-- The name that a text begins with. -/
def name? (t : List Char) : Option (List Char × Json) :=
  names.find? fun p => p.1.isPrefixOf t

/-- The names of values are words. -/
theorem allIn_name : ∀ p ∈ names, AllIn isWordChar p.1 := by
  have hall : names.all fun p => p.1.all isWordChar := by decide
  exact fun p hp => .of_all (List.all_eq_true.mp hall p hp)

/-- A name that is read is taken from the beginning. -/
theorem name?_taken {p : List Char × Json} (h : name? t = some p) :
    AllIn isWordChar p.1 ∧ ∃ u, t = p.1 ++ u := by
  rw [name?] at h
  have hfront := List.find?_some h
  obtain ⟨u, hu⟩ := List.isPrefixOf_iff_prefix.mp hfront
  exact ⟨allIn_name p (List.mem_of_find?_eq_some h), u, hu.symm⟩

/-- A name does not go on behind the word that it begins. -/
theorem isPrefixOf_append_word {name : List Char} (hname : AllIn isWordChar name) (hr : Stops r) :
    name.isPrefixOf (w ++ r) = name.isPrefixOf w := by
  induction name generalizing w with
  | nil => rw [List.isPrefixOf_nil_left, List.isPrefixOf_nil_left]
  | cons c name ih =>
    obtain ⟨hc, hname⟩ := List.forall_mem_cons.mp hname
    cases w with
    | cons d w => rw [List.cons_append, List.isPrefixOf, List.isPrefixOf, ih hname]
    | nil =>
      cases r with
      | nil => rfl
      | cons d r =>
        -- the rest begins with no character of a word, so a longer name does not reach into it
        have hd : ¬ c = d := fun heq => hr.ne_cons hc r (by rw [heq])
        simp [List.isPrefixOf, hd]

theorem name?_append (hr : Stops r) : name? (w ++ r) = name? w :=
  List.find?_congr fun p hp => isPrefixOf_append_word (allIn_name p hp) hr

/-- The value that a word begins with, and what follows it. -/
def word? (t : List Char) : Option (Json × List Char) :=
  match name? t with
  | some (name, j) => some (j, t.drop name.length)
  | none => (number? t).map fun (s, rest) => (.number (String.ofList s), rest)

/-- A word that is read is a word. -/
theorem word?_taken {x : Json} (h : word? t = some (x, rest)) :
    ∃ s, t = s ++ rest ∧ AllIn isWordChar s := by
  rw [word?] at h
  split at h
  · next name j hname =>
    cases h
    obtain ⟨hword, u, rfl⟩ := name?_taken hname
    exact ⟨name, by rw [List.drop_left], hword⟩
  · obtain ⟨⟨s, u⟩, hread, heq⟩ := Option.map_eq_some_iff.mp h
    cases heq
    exact ⟨s, takes_number.taken hread⟩

/-- **Words.** The value that a word begins with does not hang on what follows the word. -/
theorem word?_append (hw : AllIn isWordChar w) (hr : Stops r) :
    word? (w ++ r) = (word? w).map fun (x, v) => (x, v ++ r) := by
  rw [word?, word?, name?_append hr]
  cases hname : name? w with
  | some p =>
    obtain ⟨-, u, rfl⟩ := name?_taken hname
    simp only [Option.map_some, List.append_assoc, List.drop_left]
  | none =>
    simp only [takes_number.append hw hr, Option.map_map]
    rfl

end ImportAtlas.Json.Reader
