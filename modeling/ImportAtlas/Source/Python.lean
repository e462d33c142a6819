import ImportAtlas.Pattern
import ImportAtlas.Import
import ImportAtlas.Text.Numeric

/-!
# Imports of Python

`import` and `from … import` statements. A statement may go on over several lines, in parentheses or
after a backslash; lines inside triple quotes are skipped. An indented statement is conditional.

* `Python.statements`: the physical lines joined into statements.
* `Python.readStatement`: the records of one statement.
* `Python.extract`: the records of a file, in the order of their statements.
-/

namespace ImportAtlas.Source.Python

open Pattern

/-! ### Statements -/

/-- A line before its comment. A `#` inside quotes begins none; `quote` is the open quote, if
any. -/
def dropComment (quote : Option Char) : List Char → List Char
  | [] => []
  | c :: r =>
    match quote with
    | none =>
      if c = '#' then []
      else c :: dropComment (if c = '"' ∨ c = '\'' then some c else none) r
    -- a quote of the other kind stands for itself
    | some q => c :: dropComment (if c = q then none else some q) r

def longQuotes : List (List Char) :=
  [List.replicate 3 '"', List.replicate 3 '\'']

/-- A long string that a line opens and does not close: the line before it, and its delimiter. -/
def openLongString? (line : List Char) : Option (List Char × List Char) :=
  longQuotes.findSome? fun q =>
    -- of two delimiters one opens and one closes; the line is cut at the first of them
    if Text.occurrences q line % 2 = 1 then
      (Text.splitFirst? q line).map fun (before, _) => (before, q)
    else none

/-- A body without the backslash at its end, and whether there was one. -/
def dropContinuation (body : List Char) : List Char × Bool :=
  match Text.dropEnd? ['\\'] body with
  | some b => (Text.trimEnd b, true)
  | none => (body, false)

/-- A statement: the line it begins on, and its text on one line. -/
structure Statement where
  line : Nat
  text : List Char

/-- A statement whose end is yet to come; `inParens` tells whether a parenthesis is open. -/
structure Pending where
  statement : Statement
  inParens : Bool

/-- What is open between two lines. -/
structure Joining where
  longString : Option (List Char) := none
  pending : Option Pending := none

/-- Reads one line: what is open after it, and the statement that ends with it. -/
def readLine (s : Joining) (number : Nat) (raw : List Char) : Joining × Option Statement :=
  match s.longString with
  -- what stands behind the closing delimiter is skipped with it
  | some q => ({ s with longString := if Text.contains q raw then none else some q }, none)
  | none =>
    let bare := dropComment none raw
    let (line, longString) :=
      match openLongString? bare with
      | some (before, q) => (before, some q)
      | none => (bare, none)
    match s.pending with
    | some p =>
      let (body, continues) := dropContinuation (Text.trim line)
      let statement := { p.statement with text := p.statement.text ++ ' ' :: body }
      -- the first `)` closes the statement, whatever stands in front of it
      let inParens := p.inParens && !body.contains ')'
      if inParens || continues then ({ longString, pending := some { statement, inParens } }, none)
      else ({ longString }, some statement)
    | none =>
      let trimmed := Text.trimStart line
      if Text.beginsWith "import".toList trimmed || Text.beginsWith "from".toList trimmed then
        let (body, continues) := dropContinuation (Text.trimEnd line)
        let inParens := body.contains '(' && !body.contains ')'
        let statement := { line := number, text := body }
        if inParens || continues then
          ({ longString, pending := some { statement, inParens } }, none)
        else ({ longString }, some statement)
      else ({ longString }, none)

/-- The statements from a line on. One that still waits for its parenthesis at the end of the text
is unterminated. -/
def statementsFrom (s : Joining) (number : Nat) :
    List (List Char) → Except ExtractionError (List Statement)
  | [] =>
    match s.pending with
    | some { statement, inParens := true } => .error (.unterminated statement.line)
    -- a backslash on the last line has nothing to join
    | some { statement, inParens := false } => .ok [statement]
    | none => .ok []
  | l :: ls =>
    let (s, ended) := readLine s number l
    (statementsFrom s (number + 1) ls).map (ended.toList ++ ·)

def statements (text : List Char) : Except ExtractionError (List Statement) :=
  statementsFrom {} 1 (Text.lines text)

/-! ### Records -/

/-- A letter or `_`, then letters, digits and `_`. -/
def isIdentifier : List Char → Bool
  | [] => false
  | c :: r =>
    (c == '_' || Text.isAlphabetic c) && r.all fun c => c == '_' || Text.isAlphanumeric c

/-- The parts of a dotted path, without blanks and without those that are empty. -/
def dottedSegments (t : List Char) : List (List Char) :=
  ((Text.cutAt (· == '.') t).map Text.trim).filter (!·.isEmpty)

/-- A name, or a name with an alias. -/
def readName (line : Nat) (part : List Char) : Except ExtractionError ImportedName :=
  let bad := .error (.invalid line ("bad imported name \"" ++ String.ofList part ++ "\""))
  match Text.words part with
  | [n] => if isIdentifier n then .ok { name := String.ofList n } else bad
  | [n, ['a', 's'], a] =>
    if isIdentifier n && isIdentifier a then
      .ok { name := String.ofList n, rename := some (String.ofList a) }
    else bad
  | _ => bad

def indent : Pattern :=
  seq textStart (group "indent" (many fun c => c == ' ' || c == '\t'))

/-- Any text on one line, as short as possible, and the blanks between it and the end. -/
def restOfText (name : String) : Pattern :=
  sequence [group name (few1 (· != '\n')), blanks, textEnd]

/-- `import …` -/
def importStatement : Pattern :=
  sequence [indent, literal "import", blanks1, restOfText "body"]

/-- An ASCII letter or `_`, then word characters. -/
def pathSegment : Pattern :=
  seq (one fun c => c.isAlpha || c == '_') (many Text.isWord)

/-- `from … import …` -/
def fromStatement : Pattern :=
  sequence [indent, literal "from",
    group "dots" (alt
      (sequence [blanks, one (· == '.'), many fun c => Text.isBlank c || c == '.'])
      blanks1),
    optional (group "path" (seq pathSegment
      (star (sequence [blanks, one (· == '.'), blanks, pathSegment])))),
    blanks, literal "import", blanks, restOfText "names"]

/-- The list of names without the parentheses around it. The closing one may be missing. -/
def dropParens (names : List Char) : List Char :=
  match names with
  | '(' :: r => Text.trim ((Text.dropEnd? [')'] r).getD r)
  | _ => Text.trim names

/-- The record of a `from … import …` statement. -/
def readFrom (line : Nat) (m : Place) : Except ExtractionError ImportRecord := do
  let depth := (m.group "dots").count '.'
  let path := dottedSegments (m.group "path")
  if depth = 0 ∧ path = [] then throw (.invalid line "missing module path")
  let record : ImportRecord :=
    { path := path.map String.ofList, depth, line, conditional := m.group "indent" ≠ [] }
  let inner := dropParens (Text.trim (m.group "names"))
  if inner = ['*'] then return { record with wildcard := true }
  let parts := ((Text.cutAt (· == ',') inner).map Text.trim).filter (!·.isEmpty)
  let names ← parts.mapM (readName line)
  if names = [] then throw (.invalid line "no imported names")
  return { record with names := NameSet.ofList names }

/-- The record of one module of an `import …` statement. -/
def readModule (line : Nat) (conditional : Bool) (part : List Char) :
    Except ExtractionError ImportRecord :=
  let (module, rename) :=
    match Text.splitFirst? " as ".toList part with
    | some (m, a) => (Text.trim m, some (String.ofList (Text.trim a)))
    | none => (part, none)
  let path := dottedSegments module
  if path = [] ∨ path.any (!isIdentifier ·) then
    .error (.invalid line ("bad module \"" ++ String.ofList part ++ "\""))
  else .ok { path := path.map String.ofList, rename, line, conditional }

/-- The records of one statement: none when it only looks like an import. -/
def readStatement (s : Statement) : Except ExtractionError (List ImportRecord) :=
  match search? fromStatement s.text with
  | some m => (readFrom s.line m.finish).map ([·])
  | none =>
    match search? importStatement s.text with
    | some m =>
      ((Text.cutAt (· == ',') (m.finish.group "body")).map Text.trim).mapM
        (readModule s.line (m.finish.group "indent" ≠ []))
    | none => .ok []

/-- The import records of a file; without the conditional ones if `skipConditional` is set. -/
def extract (skipConditional : Bool) (text : List Char) :
    Except ExtractionError (List ImportRecord) := do
  let records ← (← statements text).mapM readStatement
  return records.flatten.filter fun r => !(skipConditional && r.conditional)

end ImportAtlas.Source.Python
