import ImportAtlas.Files.Walk
import ImportAtlas.Json.Legible
import ImportAtlas.Json.Parse
import ImportAtlas.Source.Comment

/-!
# Discovery

What the files of a project tell about it without being asked: where its root is, which path aliases
its compiler settings define, which packages its workspaces hold.

* `Discovery.projectRoot`: the nearest directory with the mark of a project.
* `Discovery.pathAliases`: the `paths` of `tsconfig.json`.
* `Discovery.workspaceRoots`: the packages that the `workspaces` of `package.json` match.
-/

namespace ImportAtlas

namespace Discovery

/-! ### The root of a project -/

def settingsName : String := ".dep-tree.toml"

def markers : List String :=
  [settingsName, "package.json", "pyproject.toml", "setup.py", "Cargo.toml", ".git"]

/-- The nearest directory at or above a file or directory with the mark of a project; without one,
the directory itself. -/
def projectRoot (d : Disk) (start : Path) : Path :=
  let dir := if d.isDirectory start then start else start.parent?.getD start
  (dir.ancestors.find? fun p => markers.any fun m => d.exists? (p.join m)).getD dir

/-! ### Path aliases -/

/-- Path aliases as compiler settings write them: a base directory, and for each prefix the targets
that may stand for it. -/
structure PathSettings where
  baseUrl : Option String := none
  paths : List (String × List String) := []
deriving Repr, Inhabited

namespace PathSettings

/-- The `compilerOptions` of a settings file. -/
def ofOptions? (j : Json) : Option PathSettings := do
  let f ← j.fields? ["baseUrl", "paths"]
  match f.values with
  | [baseUrl, paths] =>
    if f.fromArray && baseUrl.isNone then none
    let targets (v : Json) := v.listOf? Json.text?
    return {
      baseUrl := ← (baseUrl.getD .null).nullable? Json.text?
      paths := ← match paths with
        | none => some []
        | some v => v.entries?.bind (·.mapM fun (k, t) => (targets t).map (k, ·)) }
  | _ => none

def ofJson? (j : Json) : Option PathSettings := do
  let f ← j.fields? ["compilerOptions"]
  match f.values with
  | [some options] => ofOptions? options
  | _ => some {}

end PathSettings

/-- Puts a value under a text, in the order of the texts; it takes the place of an earlier one. -/
def putAlias (key : String) (value : List String) :
    List (String × List String) → List (String × List String)
  | [] => [(key, value)]
  | (k, v) :: rest =>
    match compare key k with
    | .lt => (key, value) :: (k, v) :: rest
    | .eq => (key, value) :: rest
    | .gt => (k, v) :: putAlias key value rest

/-- The path aliases that the `tsconfig.json` of a directory defines, in the order of their texts:
each stands for its first target, below the base directory. -/
def pathAliases (d : Disk) (root : Path) : List (String × Path) :=
  match d.readText (root.join "tsconfig.json") with
  | .error _ => []
  | .ok text =>
    match (Json.parse? (Source.blankComments text.toList)).bind PathSettings.ofJson? with
    | none => []
    | some s =>
      let base := root.join (s.baseUrl.getD ".")
      let sorted := s.paths.foldl (fun out (k, v) => putAlias k v out) []
      -- an alias without targets stands for nothing
      sorted.filterMap fun (k, targets) => targets.head?.map fun t => (k, (base.join t).clean)

/-! ### Workspaces -/

/-- The patterns of `workspaces` in a manifest: a list, or an object with a list. -/
def patternsOf? (j : Json) : Option (List String) :=
  (j.listOf? Json.text?).or do
    let f ← j.fields? ["packages"]
    match f.fromArray, f.values with
    | false, [some packages] => packages.listOf? Json.text?
    | _, _ => none

/-- How deeply a manifest and its workspace patterns may be nested. -/
def maxDepth : Nat := 127

/-- The workspace patterns of a manifest; none also when it has none. The value is kept until it is
known which of the two forms it has, so all of it must be legible. -/
def workspacePatterns? (j : Json) : Option (List String) := do
  let f ← j.fields? ["workspaces"]
  match f.values with
  | [some v] => if v.depth < maxDepth && v.legible then patternsOf? v else none
  | _ => none

/-- A pattern without the `./` in front, however often, and without slashes at its end. -/
def trimPattern (pattern : String) : List Char :=
  Text.trimEndOf (· == '/') (dropHere pattern.toList)
where
  /-- Without the `./` in front. -/
  dropHere : List Char → List Char
    | '.' :: '/' :: r => dropHere r
    | t => t

/-- How deep a walk has to go for patterns: as deep as the one with the most components. -/
def patternDepth (patterns : List (List Char)) : Nat :=
  patterns.foldl (fun n p => max n (Text.cutAt (· == '/') p).length) 1

/-- The directories at and below a root that hold a manifest and match one of the workspace patterns
of the root's manifest, in order. A malformed pattern matches nothing. -/
def workspaceRoots (d : Disk) (root : Path) : List Path :=
  let manifest := (d.readText (root.join "package.json")).toOption
  match (manifest.bind (Json.parse? ·.toList)).bind workspacePatterns? with
  | none => []
  | some patterns =>
    let patterns := patterns.map trimPattern
    let globs := patterns.filterMap fun p => (Glob.parse true (String.ofList p)).toOption
    let found := d.walk .repository (some (patternDepth patterns)) root
    let packages := found.filter fun f =>
      f.node.isDirectory &&
        ((f.path.relativeTo? root).any fun rel =>
          Glob.anyMatches globs (Glob.bytesOf rel.text.toList)) &&
        d.isFile (f.path.join "package.json")
    (packages.map (·.path)).mergeSort fun p q => (p.order q).isLE

end Discovery

end ImportAtlas
