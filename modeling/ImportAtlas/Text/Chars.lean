import ImportAtlas.Text.Blank

/-!
# Lists of characters

The operations on text that scanners share, on lists of characters: cutting at separators, trimming
blanks, taking a known beginning or end away, finding a part.

* `cutAt`: the pieces between separators, one more than there are separators.
* `trim`, `words`: without blanks at the ends; the maximal runs of characters that are not blank.
* `lines`: what stands before each newline, and what follows the last one if that is not empty.
-/

namespace ImportAtlas.Text

/-- The pieces of a text between the characters that `sep` accepts. -/
def cutAt (sep : Char → Bool) : List Char → List (List Char)
  | [] => [[]]
  | c :: r =>
    if sep c then [] :: cutAt sep r
    else
      match cutAt sep r with
      | [] => [[c]]
      | p :: ps => (c :: p) :: ps

/-- The text after `known`, when it begins so. -/
def dropStart? {α : Type} [DecidableEq α] : (known text : List α) → Option (List α)
  | [], t => some t
  | _ :: _, [] => none
  | k :: ks, c :: t => if k = c then dropStart? ks t else none

/-- The text before `known`, when it ends so. -/
def dropEnd? (known text : List Char) : Option (List Char) :=
  (dropStart? known.reverse text.reverse).map List.reverse

/-- Whether the text begins with `known`. -/
def beginsWith (known text : List Char) : Bool :=
  (dropStart? known text).isSome

def trimStart (t : List Char) : List Char :=
  t.dropWhile isBlank

/-- The text without the characters at its end that `drop` accepts. -/
def trimEndOf (drop : Char → Bool) (t : List Char) : List Char :=
  (t.reverse.dropWhile drop).reverse

def trimEnd (t : List Char) : List Char :=
  trimEndOf isBlank t

/-- The text without blanks at either end. -/
def trim (t : List Char) : List Char :=
  trimEnd (trimStart t)

/-- The maximal runs of characters that are not blank. -/
def words (t : List Char) : List (List Char) :=
  (cutAt isBlank t).filter (!·.isEmpty)

/-- The text on both sides of the first place where `part` stands. -/
def splitFirst? (part : List Char) : List Char → Option (List Char × List Char)
  | [] => if part.isEmpty then some ([], []) else none
  | c :: r =>
    match dropStart? part (c :: r) with
    | some after => some ([], after)
    | none => (splitFirst? part r).map fun (before, after) => (c :: before, after)

/-- Whether `part` stands somewhere in the text. -/
def contains (part t : List Char) : Bool :=
  (splitFirst? part t).isSome

/-- How often `part` stands in the text, counted from the left and without overlaps. -/
def occurrences (part t : List Char) : Nat :=
  go t.length t
where
  /-- Counts in a text of at most `n` characters. -/
  go : Nat → List Char → Nat
    | 0, _ => 0
    | n + 1, t =>
      match splitFirst? part t with
      | none => 0
      | some (_, after) => 1 + go n after

/-- A line without the carriage return that stood before its newline. -/
def dropReturn (l : List Char) : List Char :=
  (dropEnd? ['\r'] l).getD l

/-- The lines of a text. A newline ends a line, with one carriage return before it if there is one;
text after the last newline is a line as it is. -/
def lines (t : List Char) : List (List Char) :=
  go (cutAt (· == '\n') t)
where
  /-- The pieces between newlines; the last of them is no line if it is empty. -/
  go : List (List Char) → List (List Char)
    | [] => []
    | [last] => if last.isEmpty then [] else [last]
    | l :: ls => dropReturn l :: go ls

/-- The texts one after another, with `sep` between neighbours. -/
def join (sep : List Char) : List (List Char) → List Char
  | [] => []
  | [t] => t
  | t :: ts => t ++ sep ++ join sep ts

end ImportAtlas.Text
