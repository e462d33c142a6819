import ImportAtlas.Exclude

/-!
# Projects

How the imports of a project are to be understood: where it lies, which files to leave out, and
which paths have a meaning of their own.
-/

namespace ImportAtlas

/-- The settings of a project that building its graph depends on. -/
structure Project where
  root : Path
  excludePatterns : List String := []
  /-- What paths that begin with a text stand for, in the order of these texts. -/
  aliases : List (String × Path) := []
  /-- Directories of packages that can be imported by their name. -/
  workspaceRoots : List Path := []
  followAliases : Bool := false
  followWorkspaces : Bool := false
  /-- Imports in blocks that may not run are left out. -/
  skipConditional : Bool := false
  /-- Symbols are followed to the module that declares them. -/
  unwrapReExports : Bool := false
deriving Repr, Inhabited

/-- The files that a project leaves out. -/
def Project.exclusion (p : Project) : Except Fault Exclusion :=
  Exclusion.ofPatterns p.root p.excludePatterns

end ImportAtlas
