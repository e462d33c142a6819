import ImportAtlas.Pattern
import ImportAtlas.Source.Comment
import ImportAtlas.Text.Numeric

/-!
# Imports of Rust

`mod x;` declarations and `use` trees. A tree is expanded into one record for each of its leaves;
paths that begin with `self` or `super` are relative.

* `Rust.Leaf`: a leaf of a use tree; `Rust.expand`: the leaves of a tree, from left to right.
* `Rust.Leaf.record`: the record of a leaf.
* `Rust.extract`: the records of a file, in the order of their statements.
-/

namespace ImportAtlas.Source.Rust

open Pattern

/-! ### Use trees -/

/-- A leaf of a use tree. -/
inductive Leaf where
  /-- `a::b::Item`, perhaps renamed. -/
  | item (path : List String) (rename : Option String)
  /-- `a::b::*` -/
  | glob (path : List String)
  /-- The group member `self`, perhaps renamed: the path in front of the group. -/
  | module (path : List String) (rename : Option String)
deriving DecidableEq, Repr

/-- The segments of a path between double colons, without blanks and without empty ones. -/
def pathSegments (t : List Char) : List (List Char) :=
  go t.length [] t
where
  /-- Cuts a text of at most `n` characters; `done` is the segment so far, last character first. -/
  go : Nat → List Char → List Char → List (List Char)
    | _, done, [] => keep done
    | 0, done, _ => keep done
    | n + 1, done, ':' :: ':' :: r => keep done ++ go n [] r
    | n + 1, done, c :: r => go n (c :: done) r
  /-- The segment, if it is not blank. -/
  keep (done : List Char) : List (List Char) :=
    let s := Text.trim done.reverse
    if s = [] then [] else [s]

/-- `*`, or a letter or `_` and then letters, digits and `_`. -/
def isPathSegment (s : List Char) : Bool :=
  s == ['*'] ||
    (match s with
    | [] => false
    | c :: r =>
      (c == '_' || Text.isAlphabetic c) && r.all fun c => c == '_' || Text.isAlphanumeric c)

/-- The parts of a group between the commas that stand in no inner group. -/
def splitTopLevel (depth : Nat) : List Char → List (List Char)
  | [] => [[]]
  | c :: r =>
    if c = ',' ∧ depth = 0 then [] :: splitTopLevel 0 r
    else
      let depth := if c = '\x7b' then depth + 1 else if c = '\x7d' then depth - 1 else depth
      match splitTopLevel depth r with
      | [] => [[c]]
      | p :: ps => (c :: p) :: ps

/-- The text without the double colons at its end. -/
def dropColons (t : List Char) : List Char :=
  go t.length t.reverse
where
  /-- At most `n` double colons are taken away, from a reversed text. -/
  go : Nat → List Char → List Char
    | n + 1, ':' :: ':' :: r => go n r
    | _, t => t.reverse

/-- The leaf that a path without a group names, below the path `above`. -/
def leaf (line : Nat) (above : List (List Char)) (tree : List Char) :
    Except ExtractionError (List Leaf) :=
  let (path, rename) :=
    match Text.splitFirst? " as ".toList tree with
    | some (p, a) => (Text.trim p, some (String.ofList (Text.trim a)))
    | none => (tree, none)
  let full := above ++ pathSegments path
  if full.any (!isPathSegment ·) then
    .error (.invalid line ("bad use path \"" ++ String.ofList tree ++ "\""))
  else
    let init := full.dropLast.map String.ofList
    match full.getLast? with
    | none => .ok []
    | some last =>
      if last = ['*'] then .ok [.glob init]
      else if last = "self".toList ∧ full.length > 1 then .ok [.module init rename]
      else .ok [.item (full.map String.ofList) rename]

/-- The leaves of a use tree below the path `above`, from left to right. Every group is shorter than
the tree it stands in, so `depth` levels are enough when it is the length of the tree. -/
def expandFrom (line : Nat) : (depth : Nat) → (above : List (List Char)) → List Char →
    Except ExtractionError (List Leaf)
  | 0, _, _ => .ok []
  | depth + 1, above, tree =>
    let tree := Text.trim tree
    if tree = [] then .ok []
    else
      match Text.splitFirst? ['\x7b'] tree with
      | none => leaf line above tree
      | some (head, after) =>
        -- the group is the last thing in its tree, so its brace is at the end
        match Text.dropEnd? ['\x7d'] (Text.trimEnd after) with
        | none => .error (.unterminated line)
        | some inner =>
          let scope := above ++ pathSegments (dropColons (Text.trim head))
          ((splitTopLevel 0 inner).mapM (expandFrom line depth scope)).map List.flatten

/-- The leaves of a use tree, from left to right. -/
def expand (line : Nat) (tree : List Char) : Except ExtractionError (List Leaf) :=
  expandFrom line (tree.length + 1) [] tree

/-! ### Records -/

/-- The steps up that a path begins with, counted on top of `depth`, and the path after them. -/
def supers (depth : Nat) : List String → Nat × List String
  | [] => (depth, [])
  | s :: r => if s = "super" then supers (max depth 1 + 1) r else (depth, s :: r)

/-- The depth of a path and its segments: `self` is depth one, each `super` adds one. -/
def relativePath (path : List String) : Nat × List String :=
  match path with
  | [] => (0, [])
  | s :: r => if s = "self" then supers 1 r else supers 0 (s :: r)

/-- The record of a leaf. An item is the one name that is taken. -/
def Leaf.record : Leaf → ImportRecord
  | item path rename =>
    let (depth, rest) := relativePath path
    match path.getLast? with
    | some name => { path := rest, depth, names := [{ name, rename }] }
    | none => { path := rest, depth, rename }
  | glob path =>
    let (depth, rest) := relativePath path
    { path := rest, depth, wildcard := true }
  | module path rename =>
    let (depth, rest) := relativePath path
    { path := rest, depth, rename }

/-! ### Statements -/

/-- The beginning of a line and the spaces and tabs there. -/
def lineIndent : Pattern :=
  seq lineStart (many fun c => c == ' ' || c == '\t')

/-- `pub`, perhaps with a scope in parentheses, and blanks. -/
def visibility : Pattern :=
  sequence [literal "pub",
    optional (sequence [one (· == '('), many (· != ')'), one (· == ')')]), blanks1]

/-- `mod x;` -/
def modDeclaration : Pattern :=
  sequence [lineIndent, optional visibility, literal "mod", blanks1,
    group "name"
      (seq (one fun c => c.isAlpha || c == '_') (many fun c => c.isAlphanum || c == '_')),
    blanks, one (· == ';')]

/-- `use …;` -/
def useStatement : Pattern :=
  sequence [lineIndent, optional (group "visibility" visibility), literal "use", blanks1,
    group "tree" (many1 (· != ';')), one (· == ';')]

/-- The record of a `mod x;` declaration: a module of the same directory. -/
def modRecord (code : List Char) (m : Found) : Nat × ImportRecord :=
  (m.offset,
    { path := [String.ofList (m.finish.group "name")], depth := 1, line := lineAt code m.offset })

/-- The records of a `use` statement, which is a re-export when it has a visibility. -/
def useRecords (code : List Char) (m : Found) :
    Except ExtractionError (List (Nat × ImportRecord)) := do
  let line := lineAt code m.offset
  let leaves ← expand line (m.finish.group "tree")
  let reExport := (m.finish.group? "visibility").isSome
  return leaves.map fun l => (m.offset, { l.record with line, reExport })

/-- Whether only spaces and tabs stand between a place and the beginning of its line; `before` is
the text in front of the place, last character first. -/
def startsStatement (before : List Char) : Bool :=
  (before.takeWhile (· != '\n')).all fun c => c == ' ' || c == '\t'

/-- The line of the first `use ` of the text, when a group is opened after it, no semicolon follows
and it begins its line. -/
def danglingUse? (code : List Char) : Option Nat :=
  match Text.splitFirst? "use ".toList code with
  | none => none
  | some (before, after) =>
    if after.contains '\x7b' && !after.contains ';' && startsStatement before.reverse then
      some (before.count '\n' + 1)
    else none

/-- The import records of a file, in the order in which their statements begin. -/
def extract (text : List Char) : Except ExtractionError (List ImportRecord) := do
  let code := blankComments text
  let mods := (findAll modDeclaration code).map (modRecord code)
  let uses ← (findAll useStatement code).mapM (useRecords code)
  match danglingUse? code with
  | some line => .error (.unterminated line)
  | none => return ((mods ++ uses.flatten).mergeSort fun a b => a.1 ≤ b.1).map (·.2)

end ImportAtlas.Source.Rust
