import ImportAtlas.Text.Chars

/-!
# Paths

A path is a text cut by slashes. Two paths are *the same* when their components are: repeated and
trailing slashes and inner `.` steps count for nothing, while the printed text of a path is kept as
it was written.

* `Path.components`: the steps of a path; `Path.same`, `Path.among` and `Path.order` compare by
  them.
* `Path.join`, `Path.parent?`, `Path.fileName?`, `Path.stem?`, `Path.extension?`,
  `Path.relativeTo?`: the usual operations, on the text.
* `Path.clean`: the lexical normal form.
-/

namespace ImportAtlas

/-- One step of a path. A leading `.` of a relative path is a step, any other `.` is none. -/
inductive Component where
  | root
  | here
  | up
  | name (text : String)
deriving DecidableEq, Repr, Inhabited

namespace Component

/-- The step that the text between two slashes stands for, if it stands for one. -/
def ofSegment? (s : List Char) : Option Component :=
  if s = [] ∨ s = ['.'] then none
  else if s = ['.', '.'] then some up
  else some (name (String.ofList s))

/-- The place of a kind of step in the order of paths. -/
def rank : Component → Nat
  | root => 0
  | here => 1
  | up => 2
  | name _ => 3

/-- The text by which names are ordered. -/
def label : Component → String
  | name s => s
  | _ => ""

def text : Component → String
  | root => "/"
  | here => "."
  | up => ".."
  | name s => s

instance : Ord Component where
  compare := compareLex (compareOn rank) (compareOn label)

end Component

/-- A path, as it was written. -/
structure Path where
  text : String
deriving DecidableEq, Repr, Inhabited

namespace Path

def segments (p : Path) : List (List Char) :=
  Text.cutAt (· == '/') p.text.toList

def isAbsolute (p : Path) : Bool :=
  p.text.toList.head? == some '/'

def components (p : Path) : List Component :=
  let steps := p.segments.filterMap Component.ofSegment?
  if p.isAbsolute then .root :: steps
  else if p.segments.head? = some ['.'] then .here :: steps
  else steps

/-- Two paths are the same when they have the same steps. -/
def same (p q : Path) : Bool :=
  p.components == q.components

/-- Whether a path is the same as one of a list. -/
def among (p : Path) (ps : List Path) : Bool :=
  ps.any (·.same p)

/-- The order of paths, step by step. -/
def order (p q : Path) : Ordering :=
  compare p.components q.components

/-- `q` below `p`; an absolute `q` stays itself. -/
def join (p : Path) (q : String) : Path :=
  if q.toList.head? = some '/' then ⟨q⟩
  else if p.text.isEmpty || p.text.toList.getLast? == some '/' then ⟨p.text ++ q⟩
  else ⟨p.text ++ "/" ++ q⟩

/-- Whether the text between two slashes is no step. -/
def isIdle (s : List Char) : Bool :=
  s == [] || s == ['.']

/-- Segments without the idle ones at their end. -/
def dropIdleEnd (segments : List (List Char)) : List (List Char) :=
  (segments.reverse.dropWhile isIdle).reverse

/-- The beginning of a path that is no segment to be taken away: its root, or its leading `.`. -/
def start (p : Path) : String × List (List Char) :=
  match p.segments with
  | [] => ("", [])
  | s :: rest =>
    if p.isAbsolute then ("/", rest)
    -- the empty segment gives back the slash that stands behind the `.`
    else if s = ['.'] then (".", if rest = [] then [] else [] :: rest)
    else ("", s :: rest)

def ofSegments (segments : List (List Char)) : String :=
  String.ofList (Text.join ['/'] segments)

/-- The path without its last step; the root and the empty path have none. -/
def parent? (p : Path) : Option Path :=
  let (front, body) := p.start
  match (dropIdleEnd body).reverse with
  | [] => if front = "." then some ⟨""⟩ else none
  | _ :: before => some ⟨front ++ ofSegments (dropIdleEnd before.reverse)⟩

/-- The last step of a path, when it is a name. -/
def fileName? (p : Path) : Option String :=
  match p.components.getLast? with
  | some (.name s) => some s
  | _ => none

/-- A file name cut at its last dot. A dot in front cuts nothing. -/
def splitName (name : String) : String × Option String :=
  let (tail, front) := name.toList.reverse.span (· != '.')
  match front with
  | [] => (name, none)
  | _ :: stem =>
    if stem.isEmpty then (name, none)
    else (String.ofList stem.reverse, some (String.ofList tail.reverse))

/-- The file name up to its last dot. -/
def stem? (p : Path) : Option String :=
  p.fileName?.map fun n => (splitName n).1

/-- The file name after its last dot. -/
def extension? (p : Path) : Option String :=
  p.fileName?.bind fun n => (splitName n).2

/-- The steps of `steps` after those of `base`, when it begins with them. -/
def dropSteps? : (base steps : List Component) → Option (List Component)
  | [], s => some s
  | _ :: _, [] => none
  | b :: bs, s :: ss => if b = s then dropSteps? bs ss else none

/-- Segments without the first `n` of them that are steps, and without the idle ones after those. -/
def dropSegments : (n : Nat) → List (List Char) → List (List Char)
  | 0, ss => ss.dropWhile isIdle
  | _ + 1, [] => []
  | n + 1, s :: ss => if isIdle s then dropSegments (n + 1) ss else dropSegments n ss

/-- What is left of a path after the steps of `base`, when it begins with them. -/
def relativeTo? (p base : Path) : Option Path :=
  (dropSteps? base.components p.components).map fun _ =>
    let (front, body) := p.start
    if base.components = [] then ⟨front ++ ofSegments (dropIdleEnd body)⟩
    else
      -- the root, or a leading `.`, is a step that has no segment
      let used := base.components.length - (if front = "" then 0 else 1)
      ⟨ofSegments (dropIdleEnd (dropSegments used body))⟩

/-- The path that steps spell. -/
def ofComponents (steps : List Component) : Path :=
  steps.foldl (fun p c => p.join c.text) ⟨""⟩

/-- The steps that are left when `.` is dropped and `..` takes back the name before it, or
nothing at the root; `done` holds the steps so far, the last one first. -/
def cleanSteps (done : List Component) : List Component → List Component
  | [] => done.reverse
  | .here :: r => cleanSteps done r
  | .up :: r =>
    match done with
    -- there is nothing above the root, and nothing to take back after a step up
    | .root :: _ => cleanSteps done r
    | .name _ :: before => cleanSteps before r
    | _ => cleanSteps (.up :: done) r
  | c :: r => cleanSteps (c :: done) r

/-- The lexical normal form of a path; the empty path is written `.`. -/
def clean (p : Path) : Path :=
  match cleanSteps [] p.components with
  | [] => ⟨"."⟩
  | steps => ofComponents steps

/-- A path and everything above it. -/
def ancestors (p : Path) : List Path :=
  go p.components.length p
where
  /-- At most `n` steps up. -/
  go : Nat → Path → List Path
    | 0, p => [p]
    | n + 1, p =>
      match p.parent? with
      | none => [p]
      | some q => p :: go n q

end Path

end ImportAtlas
