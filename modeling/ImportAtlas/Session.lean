import ImportAtlas.Build.Basic
import ImportAtlas.CommandLine.Options
import ImportAtlas.Config.Read
import ImportAtlas.Entries
import ImportAtlas.Graph.Saved

/-!
# Sessions

What one run works on: a project with the settings of its file, changed by the options of the
command line.

* `Session.start`: finds the project and its settings.
* `Session.build`, `Session.graph`: the graph of entry files, or a saved one.
-/

namespace ImportAtlas

open CommandLine (GlobalOptions GraphSource)

/-- A project, with its settings, on a disk. -/
structure Session where
  disk : Disk
  options : GlobalOptions
  config : Config
  project : Project

namespace CommandLine.GlobalOptions

/-- The root of the project: the one that is given, else the directory that looks like one, from the
first entry or the working directory upwards. -/
def rootIn (o : GlobalOptions) (d : Disk) (entry : Option String) : Path :=
  match o.root with
  | some root => (d.cwdPath.join root).clean
  | none => Discovery.projectRoot d ((entry.map d.cwdPath.join).getD d.cwdPath)

/-- A pattern of the command line as one of the settings: relative to the working directory, unless
it may begin anywhere. -/
def excludePattern (cwd : Path) (pattern : String) : String :=
  if "**".isPrefixOf pattern then pattern else (cwd.join pattern).text

/-- The settings in a file, changed by the options. -/
def apply (o : GlobalOptions) (cwd : Path) (c : Config) : Config :=
  { c with
    exclude := c.exclude ++ o.exclude.map (excludePattern cwd)
    unwrapExports := c.unwrapExports || o.unwrapExports
    excludeConditionalImports :=
      c.excludeConditionalImports || o.pythonExcludeConditionalImports
    js := { c.js with
      tsconfigPaths := o.jsTsconfigPaths.getD c.js.tsconfigPaths
      workspaces := o.jsWorkspaces.getD c.js.workspaces } }

/-- The settings for a project: those of the file that is given, else those of the file in the
project, if there is one. -/
def configIn (o : GlobalOptions) (d : Disk) (root : Path) : Except Fault Config := do
  let c ←
    match o.config with
    | some file => Config.load d (d.cwdPath.join file)
    | none => (Config.loadNear d root).map (·.getD {})
  return o.apply d.cwdPath c

end CommandLine.GlobalOptions

namespace Session

/-- Finds the project of an entry and its settings. Malformed settings and patterns are faults
before any source file is read. -/
def start (d : Disk) (o : GlobalOptions) (entry : Option String) : Except Fault Session := do
  let root := o.rootIn d entry
  let config ← o.configIn d root
  let project := config.project d root
  let _ ← project.exclusion
  return { disk := d, options := o, config, project }

def build (s : Session) (generatedAt : String) (args : List String) : Except Fault ModuleGraph := do
  let files ← Entries.expand s.disk s.options.noIgnore args
  let language ← Language.infer s.project.skipConditional files
  let builder ← Builder.ofProject s.disk language s.project
  builder.build {} generatedAt files

def graph (s : Session) (generatedAt : String) (source : GraphSource) : Except Fault ModuleGraph :=
  match source.graph with
  | none => s.build generatedAt source.files
  | some file =>
    match s.disk.readText ⟨file⟩ with
    | .ok text => ModuleGraph.load text
    | .error f => .error (.io f)

/-- What a check starts from: the files that are given, else those of the settings. -/
def checkEntries (s : Session) (files : List String) : Except Fault (List String) :=
  if !files.isEmpty then .ok files
  else
    match s.config.check.entrypoints with
    | [] => .error (.noEntryFiles .noEntrypoints)
    | es => .ok (es.map fun e => (s.project.root.join e).text)

/-- The weighting that is asked for, else that of the settings. -/
def weighting (s : Session) (asked : Option Weighting) : Weighting :=
  asked.getD s.config.weighting

end Session

end ImportAtlas
