import ImportAtlas.Source.JavaScript
import ImportAtlas.Proofs.Source.Layout
import Mathlib

/-!
# Import statements, one to a line

The statements by which a module names others, each written on a line of its own, and what the
record of each should say. Names are ASCII identifiers and specifiers have neither quotes nor
blanks, so that a statement can be read in one way only.

* `Form` — what stands around the specifier: a default import, a list in braces, a namespace, a
  re-export, a call; `Statement` — a form with its specifier;
* `Row` — a line of a file: a statement, blanks, or a `//` comment;
* `Statement.record`, `records` — what a statement, and a whole file, should give.

A list in braces is kept with the blanks in it (`Entry`), so that every layout of it is meant.
-/

namespace ImportAtlas.Source.JavaScript

/-! ### Characters -/

/-- An ASCII letter, `_` or `$`. -/
def isNameStart (c : Char) : Bool :=
  c.isAlpha || c == '_' || c == '$'

/-- An ASCII letter or digit, `_` or `$`. -/
def isNameChar (c : Char) : Bool :=
  isNameStart c || c.isDigit

/-- No quote, backslash, brace or blank. -/
def isSpecifierChar (c : Char) : Bool :=
  !(isQuote c || c == '\\' || c == '{' || c == '\x7d' || Text.isBlank c)

/-- An ASCII identifier: letters, digits, `_` and `$`, with no digit in front. -/
structure Ident where
  chars : List Char
  begins : ∃ c r, chars = c :: r ∧ isNameStart c
  allowed : ∀ c ∈ chars, isNameChar c

/-- What may stand between the quotes. -/
structure Specifier where
  chars : List Char
  ne_nil : chars ≠ []
  allowed : ∀ c ∈ chars, isSpecifierChar c

/-! ### Lists in braces -/

/-- `as` and another name, with the blanks before and after the word. -/
structure Alias where
  before : Space isGapChar
  after : Space isGapChar
  name : Ident

/-- A name in a list, perhaps under another one. A renamed `type` would be read as the keyword. -/
structure Item where
  name : Ident
  rename : Option Alias
  not_type : rename ≠ none → name.chars ≠ "type".toList

/-- What stands between two commas: a name or nothing, with blanks around it. -/
structure Entry where
  before : Run isGapChar
  item : Option Item
  after : Run isGapChar

/-- An alias behind its name, with blanks around the word. -/
def Alias.text (a : Alias) : List Char :=
  a.before.chars ++ "as".toList ++ a.after.chars ++ a.name.chars

/-- A name and perhaps an alias. -/
def Item.text (i : Item) : List Char :=
  i.name.chars ++ i.rename.elim [] Alias.text

/-- An entry of a list, with blanks around it. It may be empty. -/
def Entry.text (e : Entry) : List Char :=
  e.before.1 ++ e.item.elim [] Item.text ++ e.after.1

/-- What an item imports. -/
def Item.imported (i : Item) : ImportedName where
  name := String.ofList i.name.chars
  rename := i.rename.map fun a => String.ofList a.name.chars

/-! ### Statements -/

/-- What is taken from a module: the names of a list, or all of it under one name. -/
inductive Taken where
  | list (entries : List Entry)
  | whole (name : Ident)

namespace Taken

/-- The text of what is taken. -/
def text : Taken → List Char
  | list entries => '{' :: Text.join [','] (entries.map Entry.text) ++ ['\x7d']
  | whole name => "* as ".toList ++ name.chars

theorem text_list (entries : List Entry) :
    (list entries).text = '{' :: Text.join [','] (entries.map Entry.text) ++ ['\x7d'] := rfl

theorem text_whole (name : Ident) : (whole name).text = "* as ".toList ++ name.chars := rfl

/-- The names that are taken. -/
def names : Taken → List ImportedName
  | list entries => (entries.filterMap Entry.item).map Item.imported
  | whole _ => []

/-- The name for a module that is taken as a whole. -/
def rename : Taken → Option String
  | list _ => none
  | whole name => some (String.ofList name.chars)

/-- Whether there is a `*`. -/
def wildcard : Taken → Bool
  | list _ => false
  | whole _ => true

end Taken

/-- A statement without its specifier. -/
inductive Form where
  /-- `import d from`, or with more after a comma. -/
  | default (name : Ident) (more : Option Taken) (not_type : name.chars ≠ "type".toList)
  /-- `import {…} from`, `import * as x from`, either perhaps with `type`. -/
  | taken (typed : Bool) (what : Taken)
  /-- `import`, for what running the module does. -/
  | bare
  /-- `export * from` -/
  | exportAll
  /-- `export {…} from`, `export * as x from` -/
  | exportTaken (what : Taken)
  /-- `const v = require(…)` -/
  | require (name : Ident)
  /-- `const v = await import(…)` -/
  | dynamic (name : Ident)

/-- A statement: its form and the module it is about. -/
structure Statement where
  form : Form
  specifier : Specifier

namespace Form

/-- What stands between the keyword and `from`. -/
def clause : Form → List Char
  | default name more _ => name.chars ++ more.elim [] fun t => ',' :: ' ' :: t.text
  | taken _ what => what.text
  | exportAll => ['*']
  | exportTaken what => what.text
  | bare | require _ | dynamic _ => []

/-- The words in front of the clause, or of the name that a call is kept under. -/
def before : Form → String
  | taken true _ => "import type "
  | taken false _ | default .. | bare => "import "
  | exportAll | exportTaken _ => "export "
  | require _ | dynamic _ => "const "

/-- What stands between the keyword and the rest: a clause, or the name of a constant. -/
def middle : Form → List Char
  | require name | dynamic name => name.chars
  | f => f.clause

/-- The words between the clause or the name and the specifier. -/
def after : Form → String
  | default .. | taken .. | exportAll | exportTaken _ => " from "
  | bare => ""
  | require _ => " = require("
  | dynamic _ => " = await import("

/-- The text before the specifier. -/
def head (f : Form) : List Char :=
  f.before.toList ++ f.middle ++ f.after.toList

/-- The text after the specifier. -/
def tail : Form → List Char
  | require _ | dynamic _ => [')', ';']
  | _ => [';']

/-- The names that a statement imports. -/
def names : Form → List ImportedName
  | default name more _ =>
    { name := "default", rename := some (String.ofList name.chars) } :: more.elim [] Taken.names
  | taken _ what | exportTaken what => what.names
  | bare | exportAll | require _ | dynamic _ => []

/-- The name that it gives to the module. -/
def rename : Form → Option String
  | default _ more _ => more.bind Taken.rename
  | taken _ what | exportTaken what => what.rename
  | bare | exportAll | require _ | dynamic _ => none

/-- Whether there is a `*`. -/
def wildcard : Form → Bool
  | default _ more _ => more.any Taken.wildcard
  | taken _ what | exportTaken what => what.wildcard
  | exportAll => true
  | bare | require _ | dynamic _ => false

/-- Whether it passes on what it imports. -/
def isExport : Form → Bool
  | exportAll | exportTaken _ => true
  | _ => false

end Form

/-- The text of a statement, with single quotes. -/
def Statement.text (s : Statement) : List Char :=
  s.form.head ++ '\'' :: (s.specifier.chars ++ '\'' :: s.form.tail)

/-- What a statement on a line should give. -/
def Statement.record (line : Nat) (s : Statement) : ImportRecord :=
  { specifierRecord s.specifier.chars with
    names := NameSet.ofList s.form.names, rename := s.form.rename, wildcard := s.form.wildcard
    reExport := s.form.isExport, line }

/-! ### Files -/

/-- A line of a file. -/
inductive Row where
  | statement (indent : Run isIndentChar) (s : Statement)
  | blank (blanks : Run isGapChar)
  | comment (indent : Run isGapChar) (note : Run (· != '\n'))

/-- The text of a row. -/
def Row.text : Row → List Char
  | statement indent s => indent.1 ++ s.text
  | blank blanks => blanks.1
  | comment indent note => indent.1 ++ "//".toList ++ note.1

/-- The text of a file. A last row that is empty puts a newline at its end. -/
def fileText (rows : List Row) : List Char :=
  Text.join ['\n'] (rows.map Row.text)

/-- What the rows of a file should give, the first of them on the line `line`. -/
def recordsFrom (line : Nat) : List Row → List ImportRecord
  | [] => []
  | .statement _ s :: rows => s.record line :: recordsFrom (line + 1) rows
  | .blank _ :: rows | .comment _ _ :: rows => recordsFrom (line + 1) rows

/-- The records of a file, each with its line. -/
def records (rows : List Row) : List ImportRecord :=
  recordsFrom 1 rows

namespace Form

/-- The words that stand before a clause. -/
theorem before_mem (f : Form) :
    f.before ∈ ["import type ", "import ", "export ", "const "] := by
  cases f with
  | taken typed what => cases typed <;> simp [before]
  | _ => simp [before]

/-- The words that stand before a specifier. -/
theorem after_mem (f : Form) : f.after ∈ [" from ", "", " = require(", " = await import("] := by
  cases f <;> simp [after]

/-- The middle is a clause or a name. -/
theorem middle_cases (f : Form) : f.middle = f.clause ∨ ∃ w : Ident, f.middle = w.chars := by
  cases f with
  | require w | dynamic w => exact .inr ⟨w, rfl⟩
  | default | taken | bare | exportAll | exportTaken => exact .inl rfl

end Form

/-! ### What is no part of a name -/

/-- Characters of names are ASCII. -/
theorem toNat_lt_of_isNameChar {c : Char} (h : isNameChar c) : c.toNat < 128 := by
  simp only [isNameChar, isNameStart, Char.isAlpha, Char.isUpper, Char.isLower, Char.isDigit,
    Bool.or_eq_true, Bool.and_eq_true, decide_eq_true_eq, beq_iff_eq, ge_iff_le,
    UInt32.le_iff_toNat_le] at h
  rcases h with ((((⟨-, h⟩ | ⟨-, h⟩) | rfl) | rfl) | ⟨-, h⟩)
  · exact Nat.lt_of_le_of_lt h (by decide)
  · exact Nat.lt_of_le_of_lt h (by decide)
  · decide
  · decide
  · exact Nat.lt_of_le_of_lt h (by decide)

/-- So what is to be known of them can be found out one by one. -/
theorem isNameChar_table : ∀ n < 128, isNameChar (Char.ofNat n) →
    (Text.isWord (Char.ofNat n) || Char.ofNat n == '$') ∧ Text.isBlank (Char.ofNat n) = false := by
  decide +kernel

/-- A character of a name is one of a word or a dollar sign. -/
theorem isWord_of_isNameChar {c : Char} (h : isNameChar c) : Text.isWord c || c == '$' := by
  have htable := isNameChar_table c.toNat (toNat_lt_of_isNameChar h)
  rw [Char.ofNat_toNat] at htable
  exact (htable h).1

/-- A character of a name is not blank. -/
theorem not_isBlank_of_isNameChar {c : Char} (h : isNameChar c) : Text.isBlank c = false := by
  have htable := isNameChar_table c.toNat (toNat_lt_of_isNameChar h)
  rw [Char.ofNat_toNat] at htable
  exact (htable h).2

/-- A blank is in no name. -/
theorem isNameChar_of_isBlank {c : Char} (h : Text.isBlank c) : isNameChar c = false := by
  rw [Bool.eq_false_iff]
  intro hname
  rw [not_isBlank_of_isNameChar hname] at h
  exact Bool.noConfusion h

namespace Ident

variable (w : Ident)

/-- A name is not empty. -/
theorem ne_nil : w.chars ≠ [] := by
  obtain ⟨c, r, h, -⟩ := w.begins
  exact h ▸ List.cons_ne_nil c r

theorem not_isBlank : ∀ c ∈ w.chars, Text.isBlank c = false := fun c hc =>
  not_isBlank_of_isNameChar (w.allowed c hc)

theorem solid : Text.Solid w.chars :=
  .of_forall w.ne_nil w.not_isBlank

/-- A character that can be in no name is not in this one. -/
theorem not_mem {c : Char} (h : isNameChar c = false) : c ∉ w.chars := fun hc => by
  rw [w.allowed c hc] at h
  exact Bool.noConfusion h

end Ident

end ImportAtlas.Source.JavaScript
