import ImportAtlas.Text.Chars

/-!
# Word wrap

Greedy wrapping of text to a width. The words of a paragraph (the text between newlines) are taken
one after the other into the line that is being filled; one that does not fit there begins the next
line. A word wider than the width is cut into chunks of exactly that width, and a last one that may
be shorter; each but the last is a line of its own.

* `Wrap.Progress`: the lines so far, and the one that is being filled.
* `Wrap.Progress.takeWord`, `Wrap.paragraph`: what a word adds, and what a paragraph does.
* `wrap`: the lines of a text.
-/

namespace ImportAtlas.Text

namespace Wrap

/-- Consecutive chunks of `width` characters, the last one possibly shorter. -/
def chunks (width : Nat) (word : List Char) : List (List Char) :=
  go word.length word
where
  /-- Cuts a word of at most `n` characters. -/
  go : Nat → List Char → List (List Char)
    | 0, w => [w]
    | n + 1, w => if w.length ≤ width then [w] else w.take width :: go n (w.drop width)

/-- How far the wrapping of a paragraph has come. -/
structure Progress where
  /-- The lines that are complete, those of earlier paragraphs included. -/
  lines : List (List Char)
  /-- The line that is being filled. -/
  current : List Char := []
  /-- The number of characters on it. -/
  length : Nat := 0
  /-- Whether a line of this paragraph is complete. -/
  produced : Bool := false
deriving DecidableEq, Repr

namespace Progress

/-- Completes the line that is being filled, if there is something on it. -/
def flush (s : Progress) : Progress :=
  if 0 < s.length then { s with lines := s.lines ++ [s.current], produced := true } else s

/-- Takes the chunks of a word, on lines of their own. The last one may be followed by more. -/
def takeChunks (s : Progress) : List (List Char) → Progress
  | [] => s
  | [last] => { s with current := last, length := last.length }
  | c :: cs => takeChunks { s with lines := s.lines ++ [c], produced := true } cs

/-- Takes a word into the line that is being filled, or into the next one. -/
def takeWord (width : Nat) (s : Progress) (word : List Char) : Progress :=
  if width < word.length then s.flush.takeChunks (chunks width word)
  else if s.length = 0 then { s with current := s.current ++ word, length := word.length }
  else if s.length + 1 + word.length ≤ width then
    { s with current := s.current ++ ' ' :: word, length := s.length + 1 + word.length }
  else
    { lines := s.lines ++ [s.current], current := word, length := word.length, produced := true }

/-- The lines at the end of a paragraph, which has one in any case. -/
def finish (s : Progress) : List (List Char) :=
  if 0 < s.length ∨ ¬ s.produced then s.lines ++ [s.current] else s.lines

end Progress

/-- The lines with those of a paragraph behind them. -/
def paragraph (width : Nat) (lines : List (List Char)) (p : List Char) : List (List Char) :=
  ((words p).foldl (Progress.takeWord width) { lines }).finish

end Wrap

/-- The lines of a text wrapped to a width. Nothing fits a width of zero, which has no lines. -/
def wrap (text : List Char) (width : Nat) : List (List Char) :=
  if width = 0 then [] else (cutAt (· == '\n') text).foldl (Wrap.paragraph width) []

end ImportAtlas.Text
