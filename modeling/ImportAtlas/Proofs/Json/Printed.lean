import ImportAtlas.Json.Parse
import ImportAtlas.Json.Print
import Mathlib.Data.List.DropRight

/-!
# Reading what was written

Of a value whose numbers are natural and whose strings spell texts, the written text is read as that
value again (`Json.parse?_pretty`).

* `Json.Plain` — the values that are meant;
* `Reader.string?_escaped` — a text is read back from its escaped characters, whichever these are;
* `Reader.number?_repr` — a number is read up to where it ends;
* `Reader.readBack` — a value is read from its text whatever follows, as long as that cannot go
  on a number (`Reader.Ends`).

The reader has a bound on its depth. Every part of a value has a shorter text than the whole, so the
length of the text is bound enough.
-/

namespace ImportAtlas.Json

/-- A value with natural numbers, and with texts as its strings and keys. -/
inductive Plain : Json → Prop where
  | null : Plain .null
  | bool (b : Bool) : Plain (.bool b)
  | natural (n : Nat) : Plain (.ofNat n)
  | text (s : String) : Plain (.ofText s)
  | array {xs : List Json} (hxs : ∀ x ∈ xs, Plain x) : Plain (.array xs)
  | object {fields : List (String × Json)} (hfields : ∀ f ∈ fields, Plain f.2) :
    Plain (.ofFields fields)

namespace Reader

variable {rest t : List Char}

/-! ### Strings -/

/-- The unit that a character is read as: a control character without a short escape is read by
its number. -/
def unitOf (c : Char) : StringUnit :=
  if c.toNat < 0x20 ∧ c ≠ '\n' ∧ c ≠ '\r' ∧ c ≠ '\t' ∧ c ≠ '\x08' ∧ c ≠ '\x0c' then
    .escaped c.toNat
  else .char c

/-- The escapes of control characters are read back, by trying all of them. -/
theorem hex4?_control :
    ∀ n < 0x20, hex4? '0' '0' (hexChar (n / 16)) (hexChar (n % 16)) = some n := by
  decide

/-- What a character is written as is one unit. -/
theorem units?_escapeChar (c : Char) (rest : List Char) :
    units? (escapeChar c ++ rest) = (units? rest).map fun (us, r) => (unitOf c :: us, r) := by
  by_cases hquote : c = '"'
  · subst hquote
    cases h : units? rest <;> simp [escapeChar, units?, unitOf, h]
  by_cases hslash : c = '\\'
  · subst hslash
    cases h : units? rest <;> simp [escapeChar, units?, unitOf, h]
  -- the control characters that have a short escape
  by_cases hshort : c = '\n' ∨ c = '\r' ∨ c = '\t' ∨ c = '\x08' ∨ c = '\x0c'
  · rcases hshort with rfl | rfl | rfl | rfl | rfl <;>
      cases h : units? rest <;> simp [escapeChar, units?, unitOf, h]
  simp only [not_or] at hshort
  -- the other ones are written as four digits, and anything else as it is
  by_cases hcontrol : c.toNat < 0x20
  · have hhex := hex4?_control c.toNat hcontrol
    have hunit : unitOf c = .escaped c.toNat := if_pos ⟨hcontrol, hshort⟩
    simp only [escapeChar, hquote, hslash, hshort, hcontrol, if_true, if_false, List.cons_append,
      List.nil_append, units?, hhex, hunit]
    cases units? rest <;> rfl
  · have hunit : unitOf c = .char c := if_neg fun h => hcontrol h.1
    simp only [escapeChar, hquote, hslash, hshort, hcontrol, if_false, List.singleton_append, hunit]
    rw [units?.eq_def]
    split <;> simp_all
    next r _ _ =>
      rw [if_neg (by omega)]
      cases units? r <;> rfl

/-- Escaped characters are read up to the quote that ends them. -/
theorem units?_escaped (cs : List Char) (rest : List Char) :
    units? (cs.flatMap escapeChar ++ '"' :: rest) = some (cs.map unitOf, rest) := by
  induction cs with
  | nil => rfl
  | cons c cs ih =>
    rw [List.flatMap_cons, List.append_assoc, units?_escapeChar, ih]
    rfl

/-- A number below the surrogates is a character by itself, whatever unit follows. -/
theorem spell?_escaped {n : Nat} (hn : n < 0xD800) (us : List StringUnit) :
    spell? (.escaped n :: us) = (spell? us).map (Char.ofNat n :: ·) := by
  have hlow : ¬ (0xD800 ≤ n ∧ n < 0xDC00) := by omega
  have hhigh : ¬ (0xDC00 ≤ n ∧ n < 0xE000) := by omega
  have hany : ¬ (0xD800 ≤ n ∧ n < 0xE000) := by omega
  match us with
  | [] => simp only [spell?, if_neg hany]
  | .char c :: us => simp only [spell?, if_neg hany]
  | .escaped m :: us => simp only [spell?, if_neg hlow, if_neg hhigh]

/-- The characters are spelled as they were. -/
theorem spell?_map_unitOf (cs : List Char) : spell? (cs.map unitOf) = some cs := by
  induction cs with
  | nil => rfl
  | cons c cs ih =>
    rw [List.map_cons, unitOf]
    split
    · next h =>
      rw [spell?_escaped (by omega), ih, Option.map_some, Char.ofNat_toNat]
    · rw [spell?, ih, Option.map_some]

/-- **Strings.** A text is read back from its characters, whichever of them are escaped. -/
theorem string?_escaped (s : String) (rest : List Char) :
    string? (s.toList.flatMap escapeChar ++ '"' :: rest) = some (some s, rest) := by
  rw [string?, units?_escaped, Option.map_some]
  simp only [spell?_map_unitOf, Option.map_some, String.ofList_toList]

/-! ### Numbers -/

/-- What follows a value that has been written: nothing, a comma, or the end of its line. -/
def Ends (rest : List Char) : Prop :=
  ∀ c ∈ rest.head?, c = ',' ∨ c = '\n'

theorem Ends.nil : Ends [] := by
  simp [Ends]

theorem Ends.comma (r : List Char) : Ends (',' :: r) := by
  simp [Ends]

theorem Ends.lineStart (level : Nat) (r : List Char) : Ends (lineStart level ++ r) := by
  simp [Ends, Json.lineStart]

/-- Digits end where something else begins. -/
theorem takeWhile_digits {ds : List Char} (hds : ∀ c ∈ ds, c.isDigit) (hrest : Ends rest) :
    (ds ++ rest).takeWhile Char.isDigit = ds ∧ (ds ++ rest).dropWhile Char.isDigit = rest := by
  have hstop : rest.takeWhile Char.isDigit = [] ∧ rest.dropWhile Char.isDigit = rest := by
    cases rest with
    | nil => exact ⟨rfl, rfl⟩
    | cons c r =>
      have hc : ¬ c.isDigit := by
        rcases hrest c rfl with rfl | rfl <;> decide
      simp [hc]
  rw [List.takeWhile_append_of_pos hds, List.dropWhile_append_of_pos hds, hstop.1, hstop.2]
  simp

theorem isDigit_toDigits (n : Nat) : ∀ c ∈ Nat.toDigits 10 n, c.isDigit :=
  fun _ hc => Nat.isDigit_of_mem_toDigits (by decide) (by decide) hc

/-- A number has a first digit. -/
theorem toDigits_eq_cons (n : Nat) : ∃ d ds, Nat.toDigits 10 n = d :: ds ∧ d.isDigit := by
  cases hds : Nat.toDigits 10 n with
  | nil => exact absurd hds Nat.toDigits_ne_nil
  | cons d ds => exact ⟨d, ds, rfl, isDigit_toDigits n d (by rw [hds]; exact .head _)⟩

/-- What begins with a number begins with a digit. -/
theorem toDigits_append_ne (n : Nat) {c : Char} (hc : c.isDigit = false) (r : List Char) :
    Nat.toDigits 10 n ++ rest ≠ c :: r := by
  obtain ⟨d, ds, hds, hd⟩ := toDigits_eq_cons n
  intro h
  rw [hds, List.cons_append] at h
  rw [(List.cons.inj h).1, hc] at hd
  exact absurd hd (by decide)

/-- The digits of a number other than zero do not begin with one. -/
theorem toDigits_head {n : Nat} (hn : 0 < n) : ∃ d ds, Nat.toDigits 10 n = d :: ds ∧ d ≠ '0' := by
  induction n using Nat.strongRecOn with
  | ind n ih =>
    by_cases hsmall : n < 10
    · have hdigit : ∀ m < 10, 0 < m → Nat.digitChar m ≠ '0' := by decide
      exact ⟨_, [], Nat.toDigits_of_lt_base hsmall, hdigit n hsmall hn⟩
    · obtain ⟨d, ds, hds, hd⟩ := ih (n / 10) (by omega) (by omega)
      rw [Nat.toDigits_of_base_le (by omega) (by omega), hds]
      exact ⟨d, _, List.cons_append, hd⟩

/-- What ends a number has neither a point nor an exponent. -/
theorem fraction?_ends (hrest : Ends rest) : fraction? rest = some ([], rest) := by
  cases rest with
  | nil => rfl
  | cons c r => rcases hrest c rfl with rfl | rfl <;> rfl

/-- There is no exponent at the end of a number. -/
theorem exponent?_ends (hrest : Ends rest) : exponent? rest = some ([], rest) := by
  cases rest with
  | nil => rfl
  | cons c r => rcases hrest c rfl with rfl | rfl <;> rfl

/-- The digits of a number are read as a whole one. Zero is the only one that begins with a zero. -/
theorem whole?_repr (n : Nat) (hrest : Ends rest) :
    whole? (Nat.toDigits 10 n ++ rest) = some (Nat.toDigits 10 n, rest) := by
  -- a number begins with a zero only if it is zero
  rcases Nat.eq_zero_or_pos n with rfl | hn
  · cases rest with
    | nil => rfl
    | cons c r => rcases hrest c rfl with rfl | rfl <;> rfl
  · obtain ⟨d, ds, hds, hd⟩ := toDigits_head hn
    obtain ⟨htake, hdrop⟩ := takeWhile_digits (isDigit_toDigits n) hrest
    rw [hds] at htake hdrop ⊢
    have hdigits : digits? (d :: ds ++ rest) = some (d :: ds, rest) := by
      rw [digits?, htake, hdrop]
    rw [← hdigits, List.cons_append]
    exact whole?.eq_2 _ fun r h => hd (List.cons.inj h).1

/-- **Numbers.** A natural number is read up to where it ends. -/
theorem number?_repr (n : Nat) (hrest : Ends rest) :
    number? (Nat.toDigits 10 n ++ rest) = some (Nat.toDigits 10 n, rest) := by
  rw [number?, whole?_repr n hrest]
  · simp [fraction?_ends hrest, exponent?_ends hrest]
  · exact toDigits_append_ne n (by decide)

/-! ### Values -/

/-- Nothing is skipped before a token. -/
theorem skipBlanks_cons {c : Char} (hc : isBlank c = false) (t : List Char) :
    skipBlanks (c :: t) = c :: t :=
  List.dropWhile_cons_of_neg (by simp [hc])

/-- Blanks are skipped. -/
theorem skipBlanks_append {blanks : List Char} (hblanks : ∀ c ∈ blanks, isBlank c)
    (t : List Char) : skipBlanks (blanks ++ t) = skipBlanks t :=
  List.dropWhile_append_of_pos hblanks

/-- A line begins with a newline and spaces. -/
theorem isBlank_lineStart (level : Nat) : ∀ c ∈ lineStart level, isBlank c := by
  intro c hc
  rcases List.mem_cons.mp hc with rfl | hc
  · rfl
  · rw [(List.mem_replicate.mp hc).2]
    rfl

theorem skipBlanks_skipBlanks (t : List Char) : skipBlanks (skipBlanks t) = skipBlanks t := by
  simp only [skipBlanks, List.dropWhile_idempotent]

/-- Blanks before a value do not matter. -/
theorem value?_of_skipBlanks {n : Nat} {t t' : List Char} (h : skipBlanks t = skipBlanks t') :
    value? n t = value? n t' := by
  cases n with
  | zero => rfl
  | succ n => rw [value?, value?, h]

theorem value?_space (n : Nat) (t : List Char) : value? n (' ' :: t) = value? n t :=
  value?_of_skipBlanks rfl

/-- Blanks before the items of an array do not matter. -/
theorem items?_of_skipBlanks {n : Nat} {t t' : List Char} (h : skipBlanks t = skipBlanks t') :
    items? n t = items? n t' := by
  cases n with
  | zero => rfl
  | succ n => rw [items?, items?, value?_of_skipBlanks h]

/-- Blanks before the entries of an object do not matter. -/
theorem entries?_of_skipBlanks {n : Nat} {t t' : List Char} (h : skipBlanks t = skipBlanks t') :
    entries? n t = entries? n t' := by
  cases n with
  | zero => rfl
  | succ n => rw [entries?, entries?, h]

/-- The text of a value does not begin with a blank, and not with the end of an array either. -/
theorem write_head {j : Json} (hj : Plain j) (level : Nat) :
    ∃ c t, write level j = c :: t ∧ isBlank c = false ∧ c ≠ ']' := by
  cases hj with
  | null => exact ⟨_, _, rfl, by decide, by decide⟩
  | bool b => cases b <;> exact ⟨_, _, rfl, by decide, by decide⟩
  | natural n =>
    obtain ⟨d, ds, hds, hd⟩ := toDigits_eq_cons n
    refine ⟨d, ds, ?_, ?_, ?_⟩
    · rw [ofNat, write, Nat.repr_eq_ofList_toDigits, String.toList_ofList, hds]
    · cases hblank : isBlank d with
      | false => rfl
      | true =>
        simp only [isBlank, Bool.or_eq_true, beq_iff_eq] at hblank
        -- no blank is a digit
        rcases hblank with ((rfl | rfl) | rfl) | rfl <;> exact absurd hd (by decide)
    · rintro rfl
      exact absurd hd (by decide)
  | text s => exact ⟨_, _, rfl, by decide, by decide⟩
  | @array xs _ => cases xs <;> exact ⟨_, _, rfl, by decide, by decide⟩
  | @object fields _ => cases fields <;> exact ⟨_, _, rfl, by decide, by decide⟩

/-- A value is read back from its text at any level, whatever ends it. -/
def ReadBack (j : Json) : Prop :=
  ∀ {level n : Nat} {rest : List Char}, Ends rest → (write level j).length ≤ n →
    value? n (write level j ++ rest) = some (j, rest)

/-- **Numbers are read back.** Their first character is a digit, which no other kind of value begins
with. -/
theorem readBack_natural (k : Nat) : ReadBack (.ofNat k) := by
  intro level n rest hrest hn
  have hwrite : write level (.ofNat k) = Nat.toDigits 10 k := by
    rw [ofNat, write, Nat.repr_eq_ofList_toDigits, String.toList_ofList]
  obtain ⟨d, ds, hds, hblank, -⟩ := write_head (.natural k) level
  rw [hwrite] at hds hn ⊢
  obtain _ | n := n
  · simp [hds] at hn
  have hskip : skipBlanks (Nat.toDigits 10 k ++ rest) = Nat.toDigits 10 k ++ rest := by
    rw [hds, List.cons_append, skipBlanks_cons hblank]
  rw [value?, hskip]
  split
  -- the texts that the other kinds begin with
  case h_1 h | h_2 h | h_3 h | h_4 h | h_5 h | h_6 h =>
    exact absurd h (toDigits_append_ne k (by decide) _)
  case h_7 =>
    rw [number?_repr k hrest, Option.map_some, ofNat, Nat.repr_eq_ofList_toDigits]

/-- **Texts are read back**, character by character between the quotes. -/
theorem readBack_text (s : String) : ReadBack (.ofText s) := by
  intro level n rest hrest hn
  obtain _ | n := n
  · simp [ofText, write, quoted] at hn
  rw [ofText, write, quoted, Option.getD_some, List.append_assoc]
  simp only [List.cons_append, List.nil_append, value?]
  rw [skipBlanks_cons rfl]
  simp only [string?_escaped, Option.map_some]

/-- The text of a list of values, each on its line, and of the bracket after them. -/
def itemsText (level : Nat) (xs : List Json) : List Char :=
  Text.join [','] ((writeItems (level + 1) xs).map (lineStart (level + 1) ++ ·)) ++
    lineStart level ++ [']']

/-- The text of the last item: no comma follows it. -/
theorem itemsText_single (level : Nat) (x : Json) :
    itemsText level [x] =
      lineStart (level + 1) ++ (write (level + 1) x ++ (lineStart level ++ [']'])) := by
  simp [itemsText, writeItems, Text.join]

/-- The text of an item that others follow: a comma stands behind it. -/
theorem itemsText_cons_cons (level : Nat) (x y : Json) (ys : List Json) :
    itemsText level (x :: y :: ys) =
      lineStart (level + 1) ++ (write (level + 1) x ++ ',' :: itemsText level (y :: ys)) := by
  simp [itemsText, writeItems, Text.join]

theorem length_lineStart_pos (level : Nat) : 0 < (lineStart level).length :=
  Nat.succ_pos _

/-- The last value of a list is read back, and the bracket after it. -/
theorem items?_last {level n : Nat} {x : Json} (hx : ReadBack x)
    (hn : (write (level + 1) x).length ≤ n) :
    items? (n + 1) (lineStart (level + 1) ++
      (write (level + 1) x ++ (lineStart level ++ ([']'] ++ rest)))) = some ([x], rest) := by
  rw [items?_of_skipBlanks (skipBlanks_append (isBlank_lineStart _) _), items?,
    hx (.lineStart _ _) hn]
  simp only [Option.bind_eq_bind, Option.bind_some, skipBlanks_append (isBlank_lineStart level)]
  rfl

/-- A value is read back, and the values behind the comma after it. -/
theorem items?_comma {level n : Nat} {x : Json} {xs : List Json} {t : List Char} (hx : ReadBack x)
    (hn : (write level x).length ≤ n) (ht : items? n t = some (xs, rest)) :
    items? (n + 1) (lineStart level ++ (write level x ++ ',' :: t)) = some (x :: xs, rest) := by
  have hcomma := @skipBlanks_cons ',' rfl
  rw [items?_of_skipBlanks (skipBlanks_append (isBlank_lineStart _) _), items?, hx (.comma _) hn]
  simp only [Option.bind_eq_bind, Option.bind_some, hcomma]
  rw [ht]
  rfl

/-- **Items.** A list of values is read back when each of its values is. -/
theorem items?_itemsText {level n : Nat} {x : Json} {xs : List Json}
    (hread : ∀ y ∈ x :: xs, ReadBack y) (hn : (itemsText level (x :: xs)).length ≤ n) :
    items? n (itemsText level (x :: xs) ++ rest) = some (x :: xs, rest) := by
  have hstart := length_lineStart_pos (level + 1)
  induction xs generalizing x n with
  | nil =>
    rw [itemsText_single] at hn ⊢
    simp only [List.length_append, List.length_cons, List.length_nil] at hn
    obtain _ | n := n
    · omega
    simp only [List.append_assoc]
    -- the bracket ends the list
    exact items?_last (hread x (.head _)) (by omega)
  | cons y ys ih =>
    rw [itemsText_cons_cons] at hn ⊢
    simp only [List.length_append, List.length_cons] at hn
    obtain _ | n := n
    · omega
    simp only [List.append_assoc, List.cons_append]
    -- after a comma it goes on
    exact items?_comma (hread x (.head _)) (by omega)
      (ih (fun z hz => hread z (.tail _ hz)) (by omega))

/-- The text of a list of values does not begin like the end of an array. -/
theorem skipBlanks_itemsText_ne {level : Nat} {x : Json} (hx : Plain x) (xs : List Json)
    (r : List Char) : skipBlanks (itemsText level (x :: xs) ++ rest) ≠ ']' :: r := by
  obtain ⟨c, t, hwrite, hblank, hc⟩ := write_head hx (level + 1)
  intro h
  obtain ⟨u, hu⟩ : ∃ u, itemsText level (x :: xs) = lineStart (level + 1) ++ (c :: u) := by
    cases xs with
    | nil => exact ⟨_, by rw [itemsText_single, hwrite, List.cons_append]⟩
    | cons y ys => exact ⟨_, by rw [itemsText_cons_cons, hwrite, List.cons_append]⟩
  rw [hu, List.append_assoc, skipBlanks_append (isBlank_lineStart _), List.cons_append,
    skipBlanks_cons hblank] at h
  exact hc (List.cons.inj h).1

/-- **Lists are read back**, if their items are. -/
theorem readBack_array {xs : List Json} (hxs : ∀ x ∈ xs, Plain x ∧ ReadBack x) :
    ReadBack (.array xs) := by
  intro level n rest hrest hn
  obtain _ | n := n
  · cases xs <;> simp [write, writeItems, bracketed] at hn
  cases xs with
  | nil => rfl
  | cons x xs =>
    have hwrite : write level (.array (x :: xs)) = '[' :: itemsText level (x :: xs) := by
      simp [write, writeItems, bracketed, itemsText]
    -- what follows the bracket is an item, so that the list is not taken for an empty one
    have hnonempty : ∀ r, skipBlanks (itemsText level (x :: xs) ++ rest) ≠ ']' :: r :=
      skipBlanks_itemsText_ne (hxs x (.head _)).1 xs
    rw [hwrite, List.length_cons] at hn
    have hitems : items? n (itemsText level (x :: xs) ++ rest) = some (x :: xs, rest) :=
      items?_itemsText (fun y hy => (hxs y hy).2) (Nat.le_of_succ_le_succ hn)
    rw [← items?_of_skipBlanks (skipBlanks_skipBlanks _)] at hitems
    rw [hwrite, List.cons_append, value?]
    simp only [@skipBlanks_cons '[' rfl]
    rw [hitems, Option.map_some]

/-- The text of the fields of an object, each on its line, and of the bracket after them. -/
def fieldsText (level : Nat) (fields : List (String × Json)) : List Char :=
  Text.join [','] ((writeEntries (level + 1) (fields.map fun (k, v) => (some k, v))).map
    (lineStart (level + 1) ++ ·)) ++ lineStart level ++ ['\x7d']

/-- The text of a field, up to its value. -/
def keyText (k : String) : List Char :=
  k.toList.flatMap escapeChar ++ ['"', ':', ' ']

/-- The text of the last field: no comma follows it. -/
theorem fieldsText_single (level : Nat) (k : String) (x : Json) :
    fieldsText level [(k, x)] = lineStart (level + 1) ++
      '"' :: (keyText k ++ (write (level + 1) x ++ (lineStart level ++ ['\x7d']))) := by
  simp [fieldsText, writeEntries, quoted, keyText, Text.join]

/-- The text of a field that others follow: a comma stands behind it. -/
theorem fieldsText_cons_cons (level : Nat) (k : String) (x : Json) (g : String × Json)
    (gs : List (String × Json)) :
    fieldsText level ((k, x) :: g :: gs) = lineStart (level + 1) ++
      '"' :: (keyText k ++ (write (level + 1) x ++ ',' :: fieldsText level (g :: gs))) := by
  simp [fieldsText, writeEntries, quoted, keyText, Text.join]

/-- A key is read back, so that its value is next. -/
theorem entries?_key {level n : Nat} (k : String) (t : List Char) :
    entries? (n + 1) (lineStart level ++ '"' :: (keyText k ++ t)) =
      (value? n t).bind fun (x, u) =>
        match skipBlanks u with
        | ',' :: r => (entries? n r).map fun (es, rest) => ((some k, x) :: es, rest)
        | '\x7d' :: r => some ([(some k, x)], r)
        | _ => none := by
  -- the blanks before the quote and before the colon are skipped
  have hquote := @skipBlanks_cons '"' rfl
  have hcolon := @skipBlanks_cons ':' rfl
  rw [entries?_of_skipBlanks (skipBlanks_append (isBlank_lineStart _) _), entries?, hquote]
  simp only [keyText, List.append_assoc, List.cons_append, List.nil_append, string?_escaped,
    Option.bind_eq_bind, Option.bind_some, hcolon, value?_space, Option.map_eq_bind]
  rfl

/-- **Fields.** The fields of an object are read back when each of their values is. -/
theorem entries?_fieldsText {level n : Nat} {f : String × Json} {fields : List (String × Json)}
    (hread : ∀ g ∈ f :: fields, ReadBack g.2) (hn : (fieldsText level (f :: fields)).length ≤ n) :
    entries? n (fieldsText level (f :: fields) ++ rest) =
      some ((f :: fields).map fun (k, v) => (some k, v), rest) := by
  induction fields generalizing f n with
  | nil =>
    obtain ⟨k, x⟩ := f
    rw [fieldsText_single] at hn ⊢
    simp only [List.length_append, List.length_cons, List.length_nil] at hn
    obtain _ | n := n
    · omega
    simp only [List.append_assoc, List.cons_append]
    rw [entries?_key, hread _ (.head _) (.lineStart _ _) (by dsimp only; omega)]
    simp only [Option.bind_some, skipBlanks_append (isBlank_lineStart level)]
    rfl
  | cons g gs ih =>
    have hcomma := @skipBlanks_cons ',' rfl
    obtain ⟨k, x⟩ := f
    rw [fieldsText_cons_cons] at hn ⊢
    simp only [List.length_append, List.length_cons] at hn
    obtain _ | n := n
    · omega
    simp only [List.append_assoc, List.cons_append]
    rw [entries?_key, hread _ (.head _) (.comma _) (by dsimp only; omega)]
    simp only [Option.bind_some, hcomma]
    -- after a comma it goes on
    rw [ih (fun h hh => hread h (.tail _ hh)) (by omega)]
    rfl

/-- The text of fields does not begin like the end of an object. -/
theorem skipBlanks_fieldsText_ne {level : Nat} (f : String × Json) (fields : List (String × Json))
    (r : List Char) : skipBlanks (fieldsText level (f :: fields) ++ rest) ≠ '\x7d' :: r := by
  intro h
  obtain ⟨u, hu⟩ : ∃ u, fieldsText level (f :: fields) = lineStart (level + 1) ++ ('"' :: u) := by
    cases fields with
    | nil => exact ⟨_, fieldsText_single ..⟩
    | cons y ys => exact ⟨_, fieldsText_cons_cons ..⟩
  rw [hu, List.append_assoc, skipBlanks_append (isBlank_lineStart _), List.cons_append,
    skipBlanks_cons rfl] at h
  exact absurd (List.cons.inj h).1 (by decide)

/-- **Objects are read back**, if the values of their fields are. -/
theorem readBack_fields {fields : List (String × Json)} (hfields : ∀ f ∈ fields, ReadBack f.2) :
    ReadBack (.ofFields fields) := by
  intro level n rest hrest hn
  obtain _ | n := n
  · cases fields <;> simp [ofFields, write, writeEntries, bracketed] at hn
  cases fields with
  | nil => rfl
  | cons f fields =>
    have hwrite : write level (.ofFields (f :: fields)) =
        '\x7b' :: fieldsText level (f :: fields) := by
      simp [ofFields, write, writeEntries, bracketed, fieldsText]
    -- what follows the brace is a field
    have hnonempty : ∀ r, skipBlanks (fieldsText level (f :: fields) ++ rest) ≠ '\x7d' :: r :=
      skipBlanks_fieldsText_ne f fields
    rw [hwrite, List.length_cons] at hn
    have hentries : entries? n (fieldsText level (f :: fields) ++ rest) =
        some ((f :: fields).map fun (k, v) => (some k, v), rest) :=
      entries?_fieldsText hfields (Nat.le_of_succ_le_succ hn)
    rw [← entries?_of_skipBlanks (skipBlanks_skipBlanks _)] at hentries
    rw [hwrite, List.cons_append, value?]
    simp only [@skipBlanks_cons '\x7b' rfl]
    rw [hentries, Option.map_some, ofFields]

/-- **Every value that is written plainly is read back**, by induction on the value. -/
theorem readBack {j : Json} (hj : Plain j) : ReadBack j := by
  induction hj with
  | null =>
    intro level n rest hrest hn
    obtain _ | n := n
    · simp [write] at hn
    · rfl
  | bool b =>
    intro level n rest hrest hn
    obtain _ | n := n
    · cases b <;> simp [write] at hn
    · cases b <;> rfl
  | natural n => exact readBack_natural n
  | text s => exact readBack_text s
  | array hxs ih => exact readBack_array fun x hx => ⟨hxs x hx, ih x hx⟩
  | object _ ih => exact readBack_fields ih

end Reader

/-- **Reading what was written.** The text of a value is read as that value. -/
theorem parse?_pretty {j : Json} (hj : Plain j) : parse? (pretty j).toList = some j := by
  have hread : Reader.value? ((write 0 j).length + 1) (write 0 j ++ []) = some (j, []) :=
    Reader.readBack hj .nil (Nat.le_succ _)
  rw [List.append_nil] at hread
  rw [pretty, String.toList_ofList, parse?, hread]
  rfl

end ImportAtlas.Json
