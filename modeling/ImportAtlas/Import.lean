import ImportAtlas.Text.Chars

/-!
# Import records

What one import statement says, whatever the language it is written in: the path it names, the
symbols it takes from there and under which names, where it stands.

* `ImportedName`: a symbol, perhaps renamed; `NameSet`: a set of them in their order.
* `ImportRecord`: one statement, with its `specifier` for people to read.
* `ExtractionError`: why the imports of a file cannot be read.
-/

namespace ImportAtlas

/-- A symbol taken from a module, perhaps under another name. -/
structure ImportedName where
  name : String
  rename : Option String := none
deriving DecidableEq, Repr, Inhabited

namespace ImportedName

/-- The name under which the importing module sees the symbol. -/
def localName (n : ImportedName) : String :=
  n.rename.getD n.name

/-- By name; of one name, first without an alias, then by alias. -/
instance : Ord ImportedName where
  compare := compareLex (compareOn ImportedName.name) (compareOn ImportedName.rename)

end ImportedName

/-- Adds an element to an ascending list that has each element once; one that is there stays. -/
def insertOnce {α : Type} (order : α → α → Ordering) (x : α) : List α → List α
  | [] => [x]
  | y :: ys =>
    match order x y with
    | .lt => x :: y :: ys
    | .eq => y :: ys
    | .gt => y :: insertOnce order x ys

/-- A set of imported names: ascending, each once. -/
abbrev NameSet := List ImportedName

namespace NameSet

def insert (n : ImportedName) (s : NameSet) : NameSet :=
  insertOnce compare n s

def ofList (names : List ImportedName) : NameSet :=
  names.foldl (fun s n => insert n s) []

end NameSet

/-- One import statement, or one part of it that names a module of its own. -/
structure ImportRecord where
  path : List String
  rename : Option String := none
  /-- Zero for an absolute path, one for the directory of the importing file, one more for each
  step up. -/
  depth : Nat := 0
  names : NameSet := []
  wildcard : Bool := false
  /-- The statement stands in a block that may not run. -/
  conditional : Bool := false
  /-- The statement offers what it imports to others. -/
  reExport : Bool := false
  line : Nat := 0
deriving DecidableEq, Repr, Inhabited

/-- The specifier of an import, for people to read: `./a/b`, `../a`, `pkg/sub`. -/
def ImportRecord.specifier (r : ImportRecord) : String :=
  let joined := "/".intercalate r.path
  match r.depth with
  | 0 => joined
  | 1 => if joined.isEmpty then "." else "./" ++ joined
  | d + 2 =>
    if joined.isEmpty then "/".intercalate (List.replicate (d + 1) "..")
    else String.join (List.replicate (d + 1) "../") ++ joined

/-- Why the imports of a file cannot be read. -/
inductive ExtractionError where
  | unterminated (line : Nat)
  | invalid (line : Nat) (detail : String)
  | notUtf8
deriving DecidableEq, Repr, Inhabited

/-- The text of an error, for people to read. -/
def ExtractionError.message : ExtractionError → String
  | unterminated line => "unterminated import statement at line " ++ line.repr
  | invalid line detail => "invalid import at line " ++ line.repr ++ ": " ++ detail
  | notUtf8 => "file is not valid UTF-8"

end ImportAtlas
