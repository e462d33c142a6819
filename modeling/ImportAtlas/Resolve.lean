import ImportAtlas.Files.Disk
import ImportAtlas.Json.Parse
import ImportAtlas.Language
import ImportAtlas.Project

/-!
# Resolving imports

The file that an import names. An import leads to a base directory and segments below it; the first
file among the candidates there is the one it names.

* `Alias`: a text with a meaning of its own in front of an import.
* `Resolver.start`: the base directory of an import and its segments.
* `Resolver.candidates`: the files that a path below it may stand for, best first.
* `Resolver.resolve`: the module that an import names, if it is one of the project.
-/

namespace ImportAtlas

/-- What imports that begin with a text stand for. -/
structure Alias where
  lead : String
  target : Path
  /-- The file that the bare text stands for, when it is the name of a package. -/
  entry : Option Path := none
deriving Repr, Inhabited

/-- An import that leads nowhere. -/
structure Unresolved where
  specifier : String
  source : Path
deriving DecidableEq, Repr, Inhabited

def Unresolved.message (u : Unresolved) : String :=
  "could not resolve import \"" ++ u.specifier ++ "\" from " ++ u.source.text

namespace Alias

/-- A text without the stars at its end, and then without the slashes there. -/
def dropStar (s : String) : String :=
  String.ofList (Text.trimEndOf (· == '/') (Text.trimEndOf (· == '*') s.toList))

/-- A path below a root, unless it is absolute. -/
def below (root p : Path) : Path :=
  if p.isAbsolute then p else root.join p.text

def ofPattern (root : Path) (pattern : String) (target : Path) : Alias :=
  { lead := dropStar pattern, target := below root ⟨dropStar target.text⟩ }

/-- What a package says of itself: its name, its module file and its main file. -/
structure Manifest where
  name : Option String
  main : Option String
  moduleFile : Option String

/-- Reads the manifest of a package. A record written as an array must have all its fields. -/
def Manifest.ofJson? (j : Json) : Option Manifest := do
  let f ← j.fields? ["name", "main", "module"]
  if f.fromArray && f.values.any (·.isNone) then none
  match f.values with
  | [name, main, moduleFile] =>
    let text (x : Option Json) := (x.getD .null).nullable? Json.text?
    return { name := ← text name, main := ← text main, moduleFile := ← text moduleFile }
  | _ => none

/-- The manifest in a directory, if there is one that can be read. -/
def manifest? (d : Disk) (dir : Path) : Option Manifest :=
  match d.readText (dir.join "package.json") with
  | .ok text => (Json.parse? text.toList).bind Manifest.ofJson?
  | .error _ => none

/-- The alias of the package in a directory: its own name, or that of the directory. -/
def ofPackage? (d : Disk) (root dir : Path) : Option Alias := do
  let dir := below root dir
  let m := manifest? d dir
  let name ← (m.bind (·.name)).or dir.fileName?
  let entry := m.bind fun m => m.moduleFile.or m.main
  return { lead := name, target := dir, entry := entry.map dir.join }

/-- What follows the text of an alias in a specifier, if the specifier begins with that text and it
ends at the end of a segment. -/
def rest? (a : Alias) (specifier : String) : Option (List Char) :=
  let spec := specifier.toList
  if a.lead.isEmpty then some spec
  else
    match Text.dropStart? a.lead.toList spec with
    | none => none
    | some [] => some []
    | some ('/' :: r) => some r
    | some _ => none

/-- The segments of a text between slashes, without those that are empty. -/
def segments (t : List Char) : List String :=
  ((Text.cutAt (· == '/') t).filter (· ≠ [])).map String.ofList

end Alias

/-- What resolving imports depends on. The aliases stand with the longest text first. -/
structure Resolver where
  disk : Disk
  language : Language
  sourceRoot : Path
  aliases : List Alias

namespace Resolver

/-- The aliases of a project, the longest text first; of equally long ones the path aliases come
before the packages. -/
def aliasesOf (d : Disk) (p : Project) : List Alias :=
  let paths :=
    if p.followAliases then
      p.aliases.map fun (pattern, target) => Alias.ofPattern p.root pattern target
    else []
  let packages :=
    if p.followWorkspaces then p.workspaceRoots.filterMap (Alias.ofPackage? d p.root) else []
  (paths ++ packages).mergeSort fun a b => b.lead.utf8ByteSize ≤ a.lead.utf8ByteSize

def ofProject (d : Disk) (l : Language) (p : Project) : Resolver :=
  { disk := d, language := l, sourceRoot := l.sourceRoot d.isDirectory p.root
    aliases := aliasesOf d p }

/-- The first alias that a specifier begins with, and the segments that follow it. -/
def matchAlias? (r : Resolver) (specifier : String) : Option (Alias × List String) :=
  r.aliases.findSome? fun a => (a.rest? specifier).map fun rest => (a, Alias.segments rest)

/-- The files that a path may stand for, best first: the file itself, the file with an extension
of the language, the index file of the directory. -/
def candidates (r : Resolver) (p : Path) : List Path :=
  let exts := r.language.extensions
  let withExtension := exts.map fun e => ⟨p.text ++ "." ++ e⟩
  let indexes := r.language.indexFiles.flatMap fun i => exts.map fun e => p.join (i ++ "." ++ e)
  p :: withExtension ++ (if r.disk.isDirectory p then indexes else [])

/-- The file that a path stands for. -/
def lookup? (r : Resolver) (p : Path) : Option Path :=
  (r.candidates p).find? r.disk.isFile

/-- A directory some steps up, if there are as many. -/
def up? : Nat → Path → Option Path
  | 0, p => some p
  | n + 1, p => p.parent?.bind (up? n)

/-- Where the search for an import begins. -/
inductive Start where
  /-- Segments below a base directory. -/
  | below (base : Path) (segments : List String)
  /-- A package by its bare name: its entry file comes first, then its directory. -/
  | package (entry base : Path)
  /-- Nowhere in the project: the import is one of something else, or an error. -/
  | nowhere

def start (r : Resolver) (record : ImportRecord) (source : Path) : Start :=
  match record.depth with
  | d + 1 =>
    -- depth one is the directory of the file, and each further one a step up
    match up? d (r.language.moduleDir source) with
    | some dir => .below dir record.path
    | none => .nowhere
  | 0 =>
    match r.matchAlias? ("/".intercalate record.path) with
    | some (a, rest) =>
      match a.entry, rest with
      | some entry, [] => .package entry a.target
      | _, _ => .below a.target rest
    | none =>
      match r.language.rootedSegments? record with
      | some segments => .below r.sourceRoot segments
      | none => .nowhere

/-- The numbers of leading segments that may name the module, the largest first. -/
def lengths (r : Resolver) (segments : List String) : List Nat :=
  if r.language.allowsPartialPaths then (List.range (segments.length + 1)).reverse
  else [segments.length]

/-- A path below a base directory. -/
def pathBelow (base : Path) (segments : List String) : Path :=
  segments.foldl Path.join base

/-- The first file that leading segments name, and how many segments those are. -/
def find? (r : Resolver) (base : Path) (segments : List String) : Option (Path × Nat) :=
  (r.lengths segments).findSome? fun k =>
    (r.lookup? (pathBelow base (segments.take k))).map (·, k)

/-- The module that an import names. None is the answer for something outside the project, and for
an item of the importing module itself. -/
def resolve (r : Resolver) (record : ImportRecord) (source : Path) :
    Except Unresolved (Option Path) :=
  let elsewhere : Except Unresolved (Option Path) :=
    if record.depth = 0 ∧ r.language.isExternal record then .ok none
    else .error ⟨record.specifier, source⟩
  let search (base : Path) (segments : List String) : Except Unresolved (Option Path) :=
    match r.find? base segments with
    | none => elsewhere
    | some (file, k) =>
      let id := r.disk.canonical file
      -- the segments that are left over name an item of the file itself
      if k < segments.length ∧ id.same source then .ok none else .ok (some id)
  match r.start record source with
  | .nowhere => elsewhere
  | .below base segments => search base segments
  | .package entry base =>
    match r.lookup? entry with
    | some file => .ok (some (r.disk.canonical file))
    -- a package without its entry file stands for its directory
    | none => search base []

end Resolver

end ImportAtlas
