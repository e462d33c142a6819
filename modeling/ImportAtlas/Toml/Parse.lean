import ImportAtlas.Toml.Scalar

/-!
# Reading TOML

* `Toml.Reader.value?`: a value at the beginning of a text.
* `Toml.Reader.statements?`: the lines of a document.
* `Toml.parse?`: the table that a document describes.
-/

namespace ImportAtlas.Toml

namespace Reader

/-- How many parts a key may have, and how deeply arrays and inline tables may be nested. -/
def maxDepth : Nat := 79

def skipComment : List Char → List Char
  | '#' :: r => r.dropWhile isPlain
  | t => t

/-- What follows the end of a line: blanks, perhaps a comment, and a newline or the end of the
text. -/
def lineRest? (t : List Char) : Option (List Char) :=
  match skipComment (skipSpaces t) with
  | [] => some []
  | t => newline? t

/-- What follows blanks, newlines and comments, at most `n` of them. A comment ends with a
newline. -/
def skipLines? : (n : Nat) → List Char → Option (List Char)
  | 0, t => some t
  | n + 1, t =>
    match skipSpaces t with
    | '#' :: r => (newline? (r.dropWhile isPlain)).bind (skipLines? n)
    | t =>
      match newline? t with
      | some r => skipLines? n r
      | none => some t

/-- Blanks, newlines and comments skipped. -/
def skipAll? (t : List Char) : Option (List Char) :=
  skipLines? (t.length + 1) t

/-! ### Keys -/

/-- A character that a key may have outside of quotes. -/
def isBare (c : Char) : Bool :=
  c.isAlphanum || c == '-' || c == '_'

def part? (t : List Char) : Option (String × List Char) :=
  match t with
  | '"' :: _ | '\'' :: _ => (lineString? t).map fun (s, r) => (String.ofList s, r)
  | _ =>
    let name := t.takeWhile isBare
    if name.isEmpty then none else some (String.ofList name, t.dropWhile isBare)

/-- The parts of a key, at most `n` of them, with dots between them and blanks where one likes. -/
def parts? : (n : Nat) → List Char → Option (List String × List Char)
  | 0, _ => none
  | n + 1, t => do
    let (p, t) ← part? (skipSpaces t)
    match skipSpaces t with
    | '.' :: r =>
      let (ps, rest) ← parts? n r
      return (p :: ps, rest)
    | t => return ([p], t)

def key? (t : List Char) : Option (Key × List Char) := do
  let (ps, rest) ← parts? maxDepth t
  return (⟨ps.dropLast, ← ps.getLast?⟩, rest)

/-! ### Values -/

mutual

/-- A value. Arrays and inline tables in it are nested at most `depth` deep. -/
def value? : (n depth : Nat) → List Char → Option (Toml × List Char)
  | 0, _, _ => none
  | n + 1, depth, t =>
    match t with
    | '"' :: _ | '\'' :: _ => (string? t).map fun (s, r) => (.text (String.ofList s), r)
    | '[' :: r =>
      match depth with
      | 0 => none
      | depth + 1 => (items? n depth r).map fun (xs, rest) => (.array xs, rest)
    | '\x7b' :: r =>
      match depth with
      | 0 => none
      | depth + 1 => do
        let (es, rest) ←
          match skipSpaces r with
          | '\x7d' :: r => some ([], r)
          | _ => entries? n depth r
        return (← inlineTable? es, rest)
    | 't' :: 'r' :: 'u' :: 'e' :: r => some (.bool true, r)
    | 'f' :: 'a' :: 'l' :: 's' :: 'e' :: r => some (.bool false, r)
    | t =>
      match dateTime? t with
      | some (s, r) => some (.dateTime s, r)
      | none => (number? t).map (.number, ·)

/-- The items of an array up to its end; a comma may follow the last one. -/
def items? : (n depth : Nat) → List Char → Option (List Toml × List Char)
  | 0, _, _ => none
  | n + 1, depth, t => do
    match ← skipAll? t with
    | ']' :: r => return ([], r)
    | t =>
      let (x, t) ← value? n depth t
      match ← skipAll? t with
      | ',' :: r =>
        let (xs, rest) ← items? n depth r
        return (x :: xs, rest)
      | ']' :: r => return ([x], r)
      | _ => none

def entries? : (n depth : Nat) → List Char → Option (List (Key × Toml) × List Char)
  | 0, _, _ => none
  | n + 1, depth, t => do
    let (k, t) ← key? t
    let t ← Text.dropStart? ['='] t
    let (x, t) ← value? n depth (skipSpaces t)
    match skipSpaces t with
    | ',' :: r =>
      let (es, rest) ← entries? n depth r
      return ((k, x) :: es, rest)
    | '\x7d' :: r => return ([(k, x)], r)
    | _ => none

end

/-! ### Documents -/

/-- The line of a document with which a text begins, and the text of the lines that follow. -/
def statement? (t : List Char) : Option (Statement × List Char) :=
  match t with
  | '[' :: '[' :: r => do
    let (k, t) ← key? r
    let t ← Text.dropStart? [']', ']'] t
    return (.element k, ← lineRest? t)
  | '[' :: r => do
    let (k, t) ← key? r
    let t ← Text.dropStart? [']'] t
    return (.table k, ← lineRest? t)
  | t => do
    let (k, t) ← key? t
    let t ← Text.dropStart? ['='] t
    let (x, t) ← value? (t.length + 1) maxDepth (skipSpaces t)
    return (.entry k x, ← lineRest? t)

/-- At most `n` lines of a document. -/
def statements? : (n : Nat) → List Char → Option (List Statement)
  | 0, _ => none
  | n + 1, t =>
    match skipSpaces t with
    | [] => some []
    | t =>
      match t with
      | '#' :: _ | '\n' :: _ | '\r' :: _ => (lineRest? t).bind (statements? n)
      | _ => do
        let (s, rest) ← statement? t
        return s :: (← statements? n rest)

end Reader

/-- The table that a document describes. A byte order mark may stand in front. -/
def parse? (t : List Char) : Option Toml :=
  let t :=
    match t with
    | '\ufeff' :: r => r
    | t => t
  (Reader.statements? (t.length + 1) t).bind ofStatements?

end ImportAtlas.Toml
