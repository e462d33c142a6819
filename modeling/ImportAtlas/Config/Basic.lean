import ImportAtlas.Discovery
import ImportAtlas.Graph.Entropy
import ImportAtlas.Project
import ImportAtlas.Rules

/-!
# Settings

What a project can say about itself in its settings file.

* `Config`: the settings.
* `Config.ruleSet`: the dependency rules.
* `Config.project`: what building the graph depends on, with what is discovered added to what is
  set.
-/

namespace ImportAtlas

/-- How import paths of JavaScript are to be understood. -/
structure PathConfig where
  /-- The path aliases of the compiler settings count. -/
  tsconfigPaths : Bool := true
  /-- The workspaces of the manifest count. -/
  workspaces : Bool := true
  /-- Path aliases, in the order of their texts. -/
  aliases : List (String × String) := []
  workspaceRoots : List String := []
deriving DecidableEq, Repr, Inhabited

/-- What a check asks for. -/
structure CheckConfig where
  entrypoints : List String := []
  allowCircularDependencies : Bool := false
  defaultPolicy : Policy := .deny
  rules : List RuleSpec := []
deriving DecidableEq, Repr, Inhabited

/-- The settings of a project. -/
structure Config where
  exclude : List String := []
  /-- Symbols are followed to the module that declares them. -/
  unwrapExports : Bool := false
  js : PathConfig := {}
  /-- Imports in blocks that may not run are left out. -/
  excludeConditionalImports : Bool := false
  check : CheckConfig := {}
  weighting : Weighting := .symbols
  /-- The explorer starts with every module visible. -/
  overview : Bool := false
deriving Repr, Inhabited

namespace Config

/-- The dependency rules; the first malformed pattern is the fault. -/
def ruleSet (c : Config) : Except Fault RuleSet :=
  RuleSet.compile c.check.rules c.check.defaultPolicy

/-- Path aliases in the order of their texts, with one more, unless its text has one already. -/
def addAlias (key : String) (target : Path) : List (String × Path) → List (String × Path)
  | [] => [(key, target)]
  | (k, t) :: rest =>
    match compare key k with
    | .lt => (key, target) :: (k, t) :: rest
    | .eq => (k, t) :: rest
    | .gt => (k, t) :: addAlias key target rest

/-- The path aliases of a project: those of the settings, and those of the compiler settings for
other texts. -/
def aliasesIn (c : Config) (d : Disk) (root : Path) : List (String × Path) :=
  let set : List (String × Path) := c.js.aliases.map fun (k, t) => (k, ⟨t⟩)
  let found := if c.js.tsconfigPaths then Discovery.pathAliases d root else []
  found.foldl (fun all (k, t) => addAlias k t all) set

/-- The package directories of a project: those of the settings, then the workspaces that are not
among them. -/
def workspaceRootsIn (c : Config) (d : Disk) (root : Path) : List Path :=
  let set : List Path := c.js.workspaceRoots.map (⟨·⟩)
  let found := if c.js.workspaces then Discovery.workspaceRoots d root else []
  found.foldl (fun all p => if all.any (·.same p) then all else all ++ [p]) set

def project (c : Config) (d : Disk) (root : Path) : Project :=
  let aliases := c.aliasesIn d root
  let workspaceRoots := c.workspaceRootsIn d root
  { root, aliases, workspaceRoots
    excludePatterns := c.exclude
    followAliases := !aliases.isEmpty
    followWorkspaces := !workspaceRoots.isEmpty
    skipConditional := c.excludeConditionalImports
    unwrapReExports := c.unwrapExports }

end Config

end ImportAtlas
