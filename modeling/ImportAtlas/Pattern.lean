import ImportAtlas.Text.Blank
import ImportAtlas.Text.Word

/-!
# Patterns

Regular expressions with the leftmost-first rule: of all matches that begin as early as possible the
one wins that the alternatives, taken in order, reach first. A pattern is read as the list of its
successes: from a place in the text, the places where a match may end, best first.

* `Pattern`: characters of a class, runs of them, alternatives, repetition, groups and tests of
  place.
* `Pattern.ends`: the list of successes.
* `Pattern.search?`, `Pattern.findAll`: the first match, and the matches from left to right without
  overlaps.
-/

namespace ImportAtlas

/-- What a group has read: the first characters of a text, as many as `length`. -/
structure Capture where
  source : List Char
  length : Nat

/-- The characters that a group has read. -/
def Capture.text (c : Capture) : List Char :=
  c.source.take c.length

/-- A place in a text: the character before it, how many stand before it, those after it, and what
the groups of a pattern have read on the way here. -/
structure Place where
  before : Option Char
  offset : Nat
  rest : List Char
  groups : List (String × Capture)

namespace Place

/-- The place before the first character of a text. -/
def first (text : List Char) : Place :=
  ⟨none, 0, text, []⟩

/-- What the last group of a name has read, if it took part in the match. -/
def group? (p : Place) (name : String) : Option (List Char) :=
  (p.groups.lookup name).map (·.text)

/-- What a group has read, empty if it took no part in the match. -/
def group (p : Place) (name : String) : List Char :=
  (p.group? name).getD []

end Place

/-- A regular expression. -/
inductive Pattern where
  /-- Matches the empty text. -/
  | empty
  /-- One character of a class. -/
  | one (accepts : Char → Bool)
  /-- Characters of a class, any number of them; as many as possible, or as few. -/
  | run (accepts : Char → Bool) (many : Bool)
  | lineStart
  | textStart
  | textEnd
  /-- Between a word character and one that is none, or an end of the text. -/
  | wordEdge
  | seq (p q : Pattern)
  /-- The first alternative is preferred. -/
  | alt (p q : Pattern)
  /-- Any number of matches that are not empty, as many as possible. -/
  | star (p : Pattern)
  | group (name : String) (p : Pattern)

namespace Pattern

/-- All ends of a run of accepted characters from a place, the longest run first. -/
def runEnds (accepts : Char → Bool) (before : Option Char) (offset : Nat)
    (groups : List (String × Capture)) (shorter : List Place) : List Char → List Place
  | [] => ⟨before, offset, [], groups⟩ :: shorter
  | c :: r =>
    let here := ⟨before, offset, c :: r, groups⟩ :: shorter
    if accepts c then runEnds accepts (some c) (offset + 1) groups here r else here

/-- At most `n` steps that move on, as many as possible first. -/
def repeated (step : Place → List Place) : (n : Nat) → Place → List Place
  | 0, p => [p]
  -- a step that reads nothing could be repeated for ever
  | n + 1, p => ((step p).filter (p.offset < ·.offset)).flatMap (repeated step n) ++ [p]

/-- The ends of the matches that begin at a place, best first. A repetition takes at most `limit`
steps, for which the length of the text is always enough. -/
def ends (limit : Nat) : Pattern → Place → List Place
  | empty, p => [p]
  | one accepts, p =>
    match p.rest with
    | [] => []
    | c :: r =>
      if accepts c then [{ p with before := some c, offset := p.offset + 1, rest := r }] else []
  | run accepts many, p =>
    let found := runEnds accepts p.before p.offset p.groups [] p.rest
    if many then found else found.reverse
  | lineStart, p => if p.before = none ∨ p.before = some '\n' then [p] else []
  | textStart, p => if p.before = none then [p] else []
  | textEnd, p => if p.rest.isEmpty then [p] else []
  | wordEdge, p => if p.before.any Text.isWord != p.rest.head?.any Text.isWord then [p] else []
  | seq a b, p => (ends limit a p).flatMap (ends limit b)
  | alt a b, p => ends limit a p ++ ends limit b p
  | star a, p => repeated (ends limit a) limit p
  | group name a, p =>
    (ends limit a p).map fun e =>
      { e with groups := (name, ⟨p.rest, e.offset - p.offset⟩) :: e.groups }

/-- A match: where it begins, and the place at its end with what its groups have read. -/
structure Found where
  offset : Nat
  finish : Place

/-- The matches from left to right. Each begins at or after the end of the one before, and the
search goes on one character further after an empty match. `skipTo` is where the next may begin. -/
def findFrom (limit : Nat) (p : Pattern) (before : Option Char) (offset skipTo : Nat) :
    List Char → List Found
  | [] =>
    if offset < skipTo then []
    else ((p.ends limit ⟨before, offset, [], []⟩).head?.map (⟨offset, ·⟩)).toList
  | c :: r =>
    if offset < skipTo then findFrom limit p (some c) (offset + 1) skipTo r
    else
      match (p.ends limit ⟨before, offset, c :: r, []⟩).head? with
      | none => findFrom limit p (some c) (offset + 1) skipTo r
      | some e => ⟨offset, e⟩ :: findFrom limit p (some c) (offset + 1) e.offset r

/-- All matches in a text, from left to right and without overlaps. -/
def findAll (p : Pattern) (text : List Char) : List Found :=
  findFrom text.length p none 0 0 text

/-- The first match in a text. -/
def search? (p : Pattern) (text : List Char) : Option Found :=
  (findAll p text).head?

/-! ### Building patterns -/

/-- The characters of a text, in order. -/
def literal (text : String) : Pattern :=
  text.toList.foldr (fun c p => seq (one (· == c)) p) empty

def sequence : List Pattern → Pattern
  | [] => empty
  | [p] => p
  | p :: ps => seq p (sequence ps)

/-- A pattern or, failing that, nothing. -/
def optional (p : Pattern) : Pattern :=
  alt p empty

/-- Characters of a class, as many as possible. -/
def many (accepts : Char → Bool) : Pattern :=
  run accepts true

/-- At least one character of a class, as many as possible. -/
def many1 (accepts : Char → Bool) : Pattern :=
  seq (one accepts) (run accepts true)

/-- Characters of a class, as few as possible. -/
def few (accepts : Char → Bool) : Pattern :=
  run accepts false

/-- At least one character of a class, as few as possible. -/
def few1 (accepts : Char → Bool) : Pattern :=
  seq (one accepts) (run accepts false)

def blanks : Pattern :=
  many Text.isBlank

/-- At least one blank. -/
def blanks1 : Pattern :=
  many1 Text.isBlank

end Pattern

end ImportAtlas
