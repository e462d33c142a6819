import ImportAtlas.Import

/-!
# Comments

In texts with `//` and `/* … */` comments, comments are blanked rather than removed, so that every
byte of code keeps its place and its line. Quoted text is left alone: single and double quotes end
at the end of their line at the latest, backquotes do not.

* `blankComments`: the text with its comments blanked.
* `lineAt`: the number of the line at an offset.
-/

namespace ImportAtlas.Source

/-- What a character is read as part of. -/
inductive Region where
  | code
  | lineComment
  | blockComment
  | quoted (quote : Char)
deriving DecidableEq, Repr, Inhabited

def blanksFor (c : Char) : List Char :=
  List.replicate c.utf8Size ' '

/-- The rest of a text with its comments blanked, read from inside a region. -/
def blankFrom : Region → List Char → List Char
  | _, [] => []
  | .code, '/' :: '/' :: r => ' ' :: ' ' :: blankFrom .lineComment r
  | .code, '/' :: '*' :: r => ' ' :: ' ' :: blankFrom .blockComment r
  | .code, c :: r =>
    c :: blankFrom (if c = '"' ∨ c = '\'' ∨ c = '\x60' then .quoted c else .code) r
  | .lineComment, c :: r =>
    if c = '\n' then '\n' :: blankFrom .code r else blanksFor c ++ blankFrom .lineComment r
  -- line ends stay, so that what follows keeps its line
  | .blockComment, '*' :: '/' :: r => ' ' :: ' ' :: blankFrom .code r
  | .blockComment, c :: r =>
    if c = '\n' then '\n' :: blankFrom .blockComment r else blanksFor c ++ blankFrom .blockComment r
  -- an escaped quote does not end the quoted text, nor does an escaped line end
  | .quoted q, '\\' :: c :: r => '\\' :: c :: blankFrom (.quoted q) r
  | .quoted q, c :: r =>
    c :: blankFrom (if c = q ∨ (c = '\n' ∧ q ≠ '\x60') then .code else .quoted q) r

def blankComments (text : List Char) : List Char :=
  blankFrom .code text

/-- The number of the line at an offset, counted from one. -/
def lineAt (text : List Char) (offset : Nat) : Nat :=
  (text.take offset).count '\n' + 1

end ImportAtlas.Source
