import ImportAtlas.Fault
import ImportAtlas.Glob.Set

/-!
# Files left out

Patterns of files that take no part, matched against a path as it is and against the path below the
project root.
-/

namespace ImportAtlas

/-- Patterns of files to leave out of a project. -/
structure Exclusion where
  root : Path
  globs : List Glob

namespace Exclusion

/-- A pattern without the `./` it begins with, however often. -/
def dropHere : List Char → List Char
  | '.' :: '/' :: r => dropHere r
  | t => t

def compile (pattern : String) : Except Fault Glob :=
  let trimmed := String.ofList (dropHere pattern.toList)
  match Glob.parse true trimmed with
  | .ok g => .ok g
  | .error f => .error (.badExclude pattern trimmed f)

/-- The exclusion that patterns spell; the first malformed one is the fault. -/
def ofPatterns (root : Path) (patterns : List String) : Except Fault Exclusion :=
  (patterns.mapM compile).map (⟨root, ·⟩)

def excludes (e : Exclusion) (p : Path) : Bool :=
  let hits (q : Path) := Glob.anyMatches e.globs (Glob.bytesOf q.text.toList)
  hits p || (p.relativeTo? e.root).any hits

end Exclusion

end ImportAtlas
