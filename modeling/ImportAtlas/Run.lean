import ImportAtlas.CommandLine.Completion
import ImportAtlas.Config.Sample
import ImportAtlas.Explorer.Basic
import ImportAtlas.Report
import ImportAtlas.Session

/-!
# Runs

What the program answers to a command: a list of things to do, and an exit code. Nothing is printed
or written before the whole answer is known, so a fault on the way to it leaves nothing behind;
writing itself may fail, and then what was done before stays done.

* `Action`, `Answer`: what is to be done.
* `Invocation.answer`: the answer to a command.
* `Answer.perform`: the outcome of an answer on a disk.
* `Invocation.run`: both.
-/

namespace ImportAtlas

open CommandLine (Command DrawingOptions GlobalOptions Invocation completion)

/-- One thing to do. -/
inductive Action where
  | print (text : String)
  | write (file : Path) (text : String)
  /-- To show a graph interactively, with a module in focus. -/
  | explore (graph : ModuleGraph) (entry : Path) (view : ViewMode) (weighting : Weighting)

/-- What is to be done, in order, and the exit code if all of it can be done. -/
structure Answer where
  actions : List Action := []
  code : Nat := 0

namespace Answer

/-- An answer that only prints. -/
def text (t : String) : Answer :=
  { actions := [.print t] }

end Answer

namespace Session

/-- The module that an explorer starts at: that of the first file in the graph, else the first
entry. -/
def entryModule? (s : Session) (g : ModuleGraph) (files : List String) : Option Path :=
  let ids := files.map fun f => s.disk.canonical (s.disk.cwdPath.join f)
  (ids.find? g.contains).or g.entries.head?

/-- Saving a graph, drawing it, or both. The drawing is printed when no file is given at all. -/
def exported (s : Session) (g : ModuleGraph) (json dot : Option String) (o : DrawingOptions) :
    Answer :=
  let drawing := g.draw {
    clusters := o.clusters, legend := o.legend, theme := o.theme, direction := o.direction
    weighting := s.config.weighting }
  let saved := json.toList.map fun file => Action.write ⟨file⟩ g.save
  let drawn :=
    match json, dot with
    | _, some file => [Action.write ⟨file⟩ drawing]
    | none, none => [.print drawing]
    -- who asks for the saved graph alone gets no drawing
    | some _, none => []
  { actions := saved ++ drawn }

/-- Writing the sample settings into a project that has no settings file. -/
def withSample (s : Session) : Except Fault Answer :=
  let file := Config.fileIn s.project.root
  if s.disk.exists? file then .error (.configExists file)
  else
    let note := if s.options.quiet then [] else [Action.print ("wrote " ++ file.text ++ "\n")]
    .ok { actions := .write file Config.sample :: note }

end Session

/-- The answer to a command. `generatedAt` is the time that a new graph gets. -/
def CommandLine.Invocation.answer (i : Invocation) (d : Disk) (generatedAt : String) :
    Except Fault Answer := do
  let start := Session.start d i.options
  match i.command with
  | .completions shell => return .text (completion shell)
  | .config false => return .text Config.sample
  | .config true => (← start none).withSample
  | .entropy source weighting top format =>
    let s ← start source.files.head?
    let g ← s.graph generatedAt source
    return .text (Report.entropy g (s.weighting weighting) top format)
  | .cycles source format =>
    let s ← start source.files.head?
    return .text (Report.cycles (← s.graph generatedAt source) format)
  | .check files format =>
    let s ← start files.head?
    let rules ← s.config.ruleSet
    let g ← s.build generatedAt (← s.checkEntries files)
    let report := rules.check s.config.check.allowCircularDependencies g
    return {
      actions := [.print (Report.check report format)]
      code := if report.isClean then 0 else 1 }
  | .tree files overview weighting =>
    let s ← start files.head?
    let g ← s.build generatedAt files
    match s.entryModule? g files with
    | none => throw (.noEntryFiles .noneInGraph)
    | some entry =>
      let view := if overview || s.config.overview then ViewMode.overview else .focus
      return { actions := [.explore g entry view (s.weighting weighting)] }
  | .export source json dot drawing =>
    let s ← start source.files.head?
    return s.exported (← s.graph generatedAt source) json dot drawing

/-! ### Outcomes -/

/-- What a run leaves behind. -/
structure Outcome where
  disk : Disk
  /-- What was printed. -/
  printed : String := ""
  /-- The names and the content of the files that were written. -/
  written : List (List String × String) := []
  /-- The explorer that is to be shown, before it has a size. -/
  explorer : Option (ScreenSize → Explorer) := none
  fault : Option Fault := none
  code : Nat := 0

namespace Outcome

def fail (o : Outcome) (f : Fault) : Outcome :=
  { o with fault := some f, code := 1 }

def complaint (o : Outcome) : String :=
  (o.fault.map Fault.message).getD ""

/-- Does one thing, unless the run was stopped. -/
def perform (o : Outcome) (a : Action) : Outcome :=
  if o.fault.isSome then o
  else
    match a with
    | .print text => { o with printed := o.printed ++ text }
    | .write file text =>
      match o.disk.write file text with
      | .ok (disk, names) => { o with disk, written := o.written ++ [(names, text)] }
      | .error f => o.fail (.io f)
    | .explore g entry view weighting =>
      { o with
        explorer := some fun size =>
          ((Explorer.start g entry size).withView view).withWeighting weighting }

end Outcome

def Answer.perform (a : Answer) (d : Disk) : Outcome :=
  a.actions.foldl Outcome.perform { disk := d, code := a.code }

def CommandLine.Invocation.run (i : Invocation) (d : Disk) (generatedAt : String) : Outcome :=
  match i.answer d generatedAt with
  | .ok a => a.perform d
  | .error f => Outcome.fail { disk := d } f

end ImportAtlas
