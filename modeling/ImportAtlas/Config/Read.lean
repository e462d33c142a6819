import ImportAtlas.Config.Basic
import ImportAtlas.Toml.Parse
import ImportAtlas.Toml.Record

/-!
# Reading settings

Every section and every field may be missing, and then has its default; keys that are not known are
refused, save in rules.

* `Config.ofToml?`: the settings that a document holds.
* `Config.load`, `Config.loadNear`: the settings of a file, and of a project.
-/

namespace ImportAtlas

def Policy.ofToml? (x : Toml) : Option Policy :=
  match x.choice? with
  | some "allow" => some .allow
  | some "deny" => some .deny
  | _ => none

def Weighting.ofToml? (x : Toml) : Option Weighting :=
  match x.choice? with
  | some "symbols" => some .symbols
  | some "edges" => some .edges
  | _ => none

/-- A rule. Its reason may be missing. -/
def RuleSpec.ofToml? (x : Toml) : Option RuleSpec := do
  match ← x.fields? false ["policy", "from", "to", "reason"] with
  | [some policy, some source, some target, reason] =>
    return {
      policy := ← Policy.ofToml? policy
      source := ← source.text?
      target := ← target.text?
      reason := ← Toml.orDefault none (·.text?.map some) reason }
  | _ => none

/-- Adds a pair to pairs in the order of their texts. -/
def PathConfig.insertAlias (key target : String) :
    List (String × String) → List (String × String)
  | [] => [(key, target)]
  | (k, t) :: rest =>
    if key < k then (key, target) :: (k, t) :: rest
    else (k, t) :: insertAlias key target rest

/-- A table of texts, in the order of their keys. -/
def PathConfig.aliasesOfToml? (x : Toml) : Option (List (String × String)) := do
  let pairs ← (← x.entries?).mapM fun (k, v) => v.text?.map (k, ·)
  return pairs.foldl (fun all (k, t) => insertAlias k t all) []

def PathConfig.ofToml? (x : Toml) : Option PathConfig := do
  match ← x.fields? true ["tsconfig_paths", "workspaces", "aliases", "workspace_roots"] with
  | [tsconfigPaths, workspaces, aliases, workspaceRoots] =>
    return {
      tsconfigPaths := ← Toml.orDefault true Toml.bool? tsconfigPaths
      workspaces := ← Toml.orDefault true Toml.bool? workspaces
      aliases := ← Toml.orDefault [] aliasesOfToml? aliases
      workspaceRoots := ← Toml.orDefault [] (Toml.listOf? Toml.text?) workspaceRoots }
  | _ => none

def CheckConfig.ofToml? (x : Toml) : Option CheckConfig := do
  let names := ["entrypoints", "allow_circular_dependencies", "default_policy", "rules"]
  match ← x.fields? true names with
  | [entrypoints, allowCircularDependencies, defaultPolicy, rules] =>
    return {
      entrypoints := ← Toml.orDefault [] (Toml.listOf? Toml.text?) entrypoints
      allowCircularDependencies := ← Toml.orDefault false Toml.bool? allowCircularDependencies
      defaultPolicy := ← Toml.orDefault .deny Policy.ofToml? defaultPolicy
      rules := ← Toml.orDefault [] (Toml.listOf? RuleSpec.ofToml?) rules }
  | _ => none

namespace Config

def sectionOf? {α : Type} (name : String) (default : α) (f : Toml → Option α)
    (x : Option Toml) : Option α :=
  match x with
  | none => some default
  | some x => do
    match ← x.fields? true [name] with
    | [value] => Toml.orDefault default f value
    | _ => none

def ofToml? (x : Toml) : Option Config := do
  let names := ["exclude", "unwrap_exports", "js", "python", "check", "entropy", "tree"]
  match ← x.fields? true names with
  | [exclude, unwrapExports, js, python, check, entropy, tree] =>
    return {
      exclude := ← Toml.orDefault [] (Toml.listOf? Toml.text?) exclude
      unwrapExports := ← Toml.orDefault false Toml.bool? unwrapExports
      js := ← Toml.orDefault {} PathConfig.ofToml? js
      excludeConditionalImports :=
        ← sectionOf? "exclude_conditional_imports" false Toml.bool? python
      check := ← Toml.orDefault {} CheckConfig.ofToml? check
      weighting := ← sectionOf? "weighting" .symbols Weighting.ofToml? entropy
      overview := ← sectionOf? "overview" false Toml.bool? tree }
  | _ => none

def load (d : Disk) (file : Path) : Except Fault Config :=
  match d.readText file with
  | .error f => .error (.unreadableConfig file f)
  | .ok text =>
    match (Toml.parse? text.toList).bind ofToml? with
    | some c => .ok c
    | none => .error (.invalidConfig file)

def fileIn (root : Path) : Path :=
  root.join Discovery.settingsName

def loadNear (d : Disk) (root : Path) : Except Fault (Option Config) :=
  if d.isFile (fileIn root) then (load d (fileIn root)).map some else .ok none

end Config

end ImportAtlas
