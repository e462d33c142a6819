import ImportAtlas.Fault
import ImportAtlas.Source.JavaScript
import ImportAtlas.Source.Python
import ImportAtlas.Source.Rust

/-!
# Languages

What a graph has to know about the language of its files: which files are its own, how a directory
is imported, where its paths begin.

* `Language`: the languages, with what they are asked.
* `Language.infer`: the language of a list of files, by majority.
-/

namespace ImportAtlas

inductive Language where
  | javaScript
  | python (skipConditional : Bool)
  | rust
deriving DecidableEq, Repr, Inhabited

namespace Language

def name : Language → String
  | javaScript => "js"
  | python _ => "python"
  | rust => "rust"

/-- The extensions of a language's files, those first that are tried first. -/
def extensions : Language → List String
  | javaScript => ["ts", "tsx", "mts", "cts", "js", "jsx", "mjs", "cjs"]
  | python _ => ["py", "pyi"]
  | rust => ["rs"]

/-- The stems of the files that stand for their directory. -/
def indexFiles : Language → List String
  | javaScript => ["index"]
  | python _ => ["__init__"]
  | rust => ["mod", "lib", "main"]

def handles (l : Language) (p : Path) : Bool :=
  p.extension?.any l.extensions.contains

def extract (l : Language) (text : String) : Except ExtractionError (List ImportRecord) :=
  match l with
  | javaScript => Source.JavaScript.extract text.toList
  | python skip => Source.Python.extract skip text.toList
  | rust => Source.Rust.extract text.toList

/-- The directory that relative imports of a file start from. In Rust a file that does not stand for
its directory has a directory of its own. -/
def moduleDir (l : Language) (file : Path) : Path :=
  let parent := file.parent?.getD ⟨""⟩
  match l with
  | rust =>
    match file.stem? with
    | none => parent
    | some stem => if rust.indexFiles.contains stem then parent else parent.join stem
  | _ => parent

/-- The directory that absolute imports start from: in Rust the directory `src`, where there is
one. -/
def sourceRoot (l : Language) (isDirectory : Path → Bool) (root : Path) : Path :=
  match l with
  | rust => if isDirectory (root.join "src") then root.join "src" else root
  | _ => root

/-- The segments of an absolute import below the source root; none when it can only name something
outside the project. -/
def rootedSegments? (l : Language) (r : ImportRecord) : Option (List String) :=
  match l with
  | rust =>
    match r.path with
    | "crate" :: rest => some rest
    | _ => none
  | _ => some r.path

/-- Whether an import that leads nowhere is taken to name a package from elsewhere. -/
def isExternal (l : Language) (r : ImportRecord) : Bool :=
  match l with
  | rust => r.depth == 0 && r.path.head? != some "crate"
  | _ => r.depth == 0

/-- Whether the last segments of an import may name something inside a module. -/
def allowsPartialPaths : Language → Bool
  | rust => true
  | _ => false

def all (skipConditional : Bool) : List Language :=
  [javaScript, python skipConditional, rust]

def supports (p : Path) : Bool :=
  (all false).any (·.handles p)

/-- The language that a file is one of. -/
def of? (skipConditional : Bool) (p : Path) : Option Language :=
  (all skipConditional).find? (·.handles p)

def score (l : Language) (ls : List Language) : Nat :=
  ls.count l

/-- The language that is the first to reach the highest count. `before` holds the languages counted
so far, and `top` the leader among them with its count. -/
def leader (before : List Language) (top : Option (Language × Nat)) :
    List Language → Option (Language × Nat)
  | [] => top
  | l :: ls =>
    let count := score l before + 1
    let top :=
      match top with
      | none => some (l, count)
      | some (m, best) => if best < count then some (l, count) else some (m, best)
    leader (l :: before) top ls

/-- The language of a list of files: the one that most of them are written in, and of several the
one that reached that number first. -/
def infer (skipConditional : Bool) (files : List Path) : Except Fault Language :=
  match leader [] none (files.filterMap (of? skipConditional)) with
  | some (l, _) => .ok l
  | none =>
    match files with
    | [] => .error (.noEntryFiles .noneGiven)
    | f :: _ => .error (.noEntryFiles (.unsupported f))

end Language

end ImportAtlas
