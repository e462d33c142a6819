import ImportAtlas.Pattern
import ImportAtlas.Source.Comment
import ImportAtlas.Text.Numeric

/-!
# Imports of JavaScript and TypeScript

Static imports and re-exports at the beginning of a line, `require` calls and dynamic imports with a
quoted specifier anywhere in code.

* `JavaScript.specifierRecord`: the depth and the segments of a specifier.
* `JavaScript.Clause.read`: what the clause between `import` and `from` takes.
* `JavaScript.extract`: the records of a file, in the order of their statements.
-/

namespace ImportAtlas.Source.JavaScript

open Pattern

/-! ### Specifiers -/

/-- The steps up that a specifier begins with, counted on top of `depth`, and what follows them. -/
def stepsUp (depth : Nat) : List Char → Nat × List Char
  | '.' :: '.' :: '/' :: r => stepsUp (max depth 1 + 1) r
  | ['.', '.'] => (max depth 1 + 1, [])
  | t => (depth, t)

/-- The record of a specifier: `./a` has depth one, each leading `../` adds one, and a bare
specifier has depth zero. -/
def specifierRecord (spec : List Char) : ImportRecord :=
  let t := Text.trim spec
  if t = ['.'] then { path := [], depth := 1 }
  else
    let (depth, rest) :=
      match Text.dropStart? ['.', '/'] t with
      | some r => stepsUp 1 r
      | none => stepsUp 0 t
    let segments := (Text.cutAt (· == '/') rest).filter fun s => s ≠ [] ∧ s ≠ ['.']
    { path := segments.map String.ofList, depth }

/-! ### Clauses -/

/-- A letter, `_` or `$`, then letters, digits, `_` and `$`. -/
def isIdentifier : List Char → Bool
  | [] => false
  | c :: r =>
    (c == '_' || c == '$' || Text.isAlphabetic c) &&
      r.all fun c => c == '_' || c == '$' || Text.isAlphanumeric c

/-- What an import clause takes from a module. -/
structure Clause where
  names : NameSet := []
  rename : Option String := none
  wildcard : Bool := false

namespace Clause

/-- One entry of a list in braces: a name, or a name with an alias, either after `type`. -/
def readName (line : Nat) (part : List Char) : Except ExtractionError ImportedName :=
  let part :=
    match Text.dropStart? "type ".toList part with
    | some r => Text.trim r
    | none => part
  match Text.words part with
  | [n] => .ok { name := String.ofList n }
  | [n, ['a', 's'], a] => .ok { name := String.ofList n, rename := some (String.ofList a) }
  | _ => .error (.invalid line ("bad import specifier \"" ++ String.ofList part ++ "\""))

/-- The parts of a clause between commas, without blanks and without those that are empty. -/
def entries (list : List Char) : List (List Char) :=
  ((Text.cutAt (· == ',') list).map Text.trim).filter (!·.isEmpty)

/-- What follows the default import of a clause: a namespace, a list in braces, or nothing. -/
def readTail (line : Nat) (clause : Clause) (rest : List Char) : Except ExtractionError Clause :=
  match rest with
  | [] => .ok clause
  | '*' :: after =>
    match Text.dropStart? ['a', 's'] (Text.trim after) with
    | none => .ok { clause with wildcard := true }
    | some ns =>
      let ns := Text.trim ns
      if isIdentifier ns then
        .ok { clause with wildcard := true, rename := some (String.ofList ns) }
      else .error (.invalid line ("bad namespace \"" ++ String.ofList ns ++ "\""))
  | '{' :: list =>
    match Text.dropEnd? ['\x7d'] (Text.trimEnd list) with
    | none => .error (.unterminated line)
    | some inner => do
      let names ← (entries inner).mapM (readName line)
      return { clause with names := names.foldl (fun s n => NameSet.insert n s) clause.names }
  | _ => .error (.invalid line ("unexpected import clause \"" ++ String.ofList rest ++ "\""))

def read (line : Nat) (text : List Char) : Except ExtractionError Clause :=
  let text := Text.trim text
  match text with
  | [] => .ok {}
  | '*' :: _ => readTail line {} text
  | '{' :: _ => readTail line {} text
  | _ =>
    let (front, tail) := (Text.splitFirst? [','] text).getD (text, [])
    let front := Text.trim front
    if isIdentifier front then
      -- a default import takes the symbol `default` under a name of its own
      let name := { name := "default", rename := some (String.ofList front) }
      readTail line { names := [name] } (Text.trim tail)
    else .error (.invalid line ("bad default import \"" ++ String.ofList front ++ "\""))

end Clause

/-! ### Statements -/

def isQuote (c : Char) : Bool :=
  c == '\'' || c == '"'

/-- A specifier between quotes, which need not be the same on both sides. -/
def quotedSpecifier : Pattern :=
  sequence [one isQuote, group "spec" (many1 (!isQuote ·)), one isQuote]

/-- The beginning of a line and the spaces and tabs there. -/
def lineIndent : Pattern :=
  seq lineStart (many fun c => c == ' ' || c == '\t')

/-- The word `type` and blanks, or nothing. -/
def typeWord : Pattern :=
  optional (seq (literal "type") blanks1)

/-- `import … from '…'` -/
def staticImport : Pattern :=
  sequence [lineIndent, literal "import", blanks1, typeWord,
    group "clause" (few fun c => !(isQuote c || c == ';')),
    blanks, literal "from", blanks, quotedSpecifier]

/-- `import '…'` -/
def sideEffect : Pattern :=
  sequence [lineIndent, literal "import", blanks, quotedSpecifier]

/-- `export * from '…'`, `export * as x from '…'` and `export {…} from '…'` -/
def reExport : Pattern :=
  sequence [lineIndent, literal "export", blanks1, typeWord,
    group "clause" (alt
      (seq (one (· == '*')) (optional (sequence
        [blanks1, literal "as", blanks1, many1 fun c => Text.isWord c || c == '$'])))
      (sequence [one (· == '{'), many (· != '\x7d'), one (· == '\x7d')])),
    blanks, literal "from", blanks, quotedSpecifier]

def callOf (name : String) : Pattern :=
  sequence [wordEdge, literal name, blanks, one (· == '('), blanks, quotedSpecifier, blanks,
    one (· == ')')]

/-- The record of a match without a clause. -/
def bareRecord (code : List Char) (m : Found) : Nat × ImportRecord :=
  (m.offset, { specifierRecord (m.finish.group "spec") with line := lineAt code m.offset })

def clauseRecord (code : List Char) (isReExport : Bool) (m : Found) :
    Except ExtractionError (Nat × ImportRecord) := do
  let (offset, r) := bareRecord code m
  let clause ← Clause.read r.line (m.finish.group "clause")
  return (offset, { r with
    names := clause.names, rename := clause.rename, wildcard := clause.wildcard
    reExport := isReExport })

/-- The offset of the first `import {` after which no brace closes. -/
def danglingBrace? (code : List Char) : Option Nat :=
  go 0 code
where
  go (offset : Nat) : List Char → Option Nat
    | [] => none
    | c :: r =>
      if Text.beginsWith ("import \x7b".toList) (c :: r) && !(c :: r).contains '\x7d' then
        some offset
      else go (offset + 1) r

/-- The import records of a file, in the order in which their statements begin. -/
def extract (text : List Char) : Except ExtractionError (List ImportRecord) := do
  let code := blankComments text
  let static ← (findAll staticImport code).mapM (clauseRecord code false)
  let again ← (findAll reExport code).mapM (clauseRecord code true)
  let bare := [sideEffect, callOf "require", callOf "import"].flatMap fun p =>
    (findAll p code).map (bareRecord code)
  match danglingBrace? code with
  | some offset => .error (.unterminated (lineAt code offset))
  | none => return ((static ++ again ++ bare).mergeSort fun a b => a.1 ≤ b.1).map (·.2)

end ImportAtlas.Source.JavaScript
