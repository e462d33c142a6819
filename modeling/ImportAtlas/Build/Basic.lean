import ImportAtlas.Build.ReExport
import ImportAtlas.Resolve

/-!
# Building graphs

A graph grows from its entry files. Every file that is not read yet waits; reading one adds what it
takes from others to the graph, and lets the files wait that are new. Which of the waiting files is
next is left to a schedule: it decides which of several unreadable entries is reported, and nothing
else.

* `FileReport`, `Builder.read`: what one file contributes.
* `BuildState`, `BuildState.publish`, `Builder.step`: how a build goes on.
* `Builder.build`: the graph of some entry files.
-/

namespace ImportAtlas

/-- What one file contributes to a graph. -/
structure FileReport where
  id : Path
  language : String := ""
  imports : List ImportRecord := []
  errors : List NodeError := []
  edges : List Edge := []
  reExports : List ReExport := []
deriving DecidableEq, Repr, Inhabited

namespace FileReport

/-- A report with one thing more that is wrong with the file. -/
def addError (r : FileReport) (kind : NodeErrorKind) (message : String) : FileReport :=
  { r with errors := r.errors ++ [⟨kind, message⟩] }

/-- A report with an import more, whose module is one of the project. -/
def addImport (r : FileReport) (record : ImportRecord) (target : Path) : FileReport :=
  { r with
    edges := r.edges ++
      [{ source := r.id, target, symbols := record.names, wildcard := record.wildcard }]
    reExports := if record.reExport then r.reExports ++ [⟨target, record.names⟩] else r.reExports }

end FileReport

/-- A graph in the making. -/
structure BuildState where
  graph : ModuleGraph
  /-- The files that have been heard of. -/
  visited : List Path := []
  reExports : ReExportTable := []
  /-- The files that are still to be read. -/
  waiting : List Path := []
  /-- The files that have had their turn, the last one first. -/
  done : List Path := []
  fault : Option Fault := none
deriving Inhabited

namespace BuildState

/-- Adds an edge. A module that is new becomes a node, and its file waits. -/
def addEdge (s : BuildState) (e : Edge) : BuildState :=
  let s :=
    if e.target.among s.visited then s
    else
      { s with
        visited := e.target :: s.visited
        graph := s.graph.addNode { id := e.target, language := "" }
        waiting := e.target :: s.waiting }
  -- both ends are nodes by now, so that the edge is either new or there already
  match s.graph.addEdge e with
  | .ok (g, _) => { s with graph := g }
  | .error _ => s

def publish (s : BuildState) (r : FileReport) : BuildState :=
  let node := { id := r.id, language := r.language, imports := r.imports, errors := r.errors }
  let g :=
    -- a module that was heard of before its file is read has a node with nothing on it yet
    if s.graph.contains r.id then
      s.graph.updateNode r.id fun n =>
        { n with language := r.language, imports := r.imports, errors := r.errors }
    else s.graph.addNode node
  let s := r.edges.foldl addEdge { s with graph := g }
  if r.reExports.isEmpty then s
  else { s with reExports := s.reExports ++ [(r.id, r.reExports)] }

end BuildState

/-- How a build goes about its files. -/
structure Schedule where
  /-- The place of the next file among those that wait; the first one by default, which is the one
  that began to wait last. -/
  pick : BuildState → Nat := fun _ => 0
  /-- After how many turns the build is called off, if ever. -/
  cancelAfter : Option Nat := none

def Schedule.isCancelled (c : Schedule) (s : BuildState) : Bool :=
  c.cancelAfter.any (· ≤ s.done.length)

/-- What building a graph depends on. -/
structure Builder where
  resolver : Resolver
  exclusion : Exclusion
  root : Path
  unwrapReExports : Bool

namespace Builder

/-- The builder of a project; a malformed pattern is the fault. -/
def ofProject (d : Disk) (l : Language) (p : Project) : Except Fault Builder :=
  p.exclusion.map fun exclusion =>
    { resolver := Resolver.ofProject d l p, exclusion, root := p.root
      unwrapReExports := p.unwrapReExports }

def language (b : Builder) : Language :=
  b.resolver.language

/-- Resolves one import of a file and adds it to the report. -/
def addRecord (b : Builder) (r : FileReport) (record : ImportRecord) : FileReport :=
  match b.resolver.resolve record r.id with
  | .error u => r.addError .unresolvedImport u.message
  | .ok none => r
  | .ok (some target) =>
    -- an import of a file that is left out adds nothing, not even an error
    if b.exclusion.excludes target then r else r.addImport record target

def readContent (b : Builder) (id : Path) (bytes : ByteArray) : FileReport :=
  let r : FileReport := { id, language := b.language.name }
  let records :=
    match String.fromUTF8? bytes with
    | some text => b.language.extract text
    | none => .error .notUtf8
  match records with
  | .error e => r.addError .extraction e.message
  | .ok records => records.foldl b.addRecord { r with imports := records }

/-- Reads one file. Only an entry must be readable. -/
def read (b : Builder) (id : Path) (isEntry : Bool) : Except Fault FileReport :=
  if b.language.handles id then
    match b.resolver.disk.read id with
    | .ok bytes => .ok (b.readContent id bytes)
    | .error f =>
      if isEntry then .error (.entryRead id f)
      else
        let r : FileReport := { id, language := b.language.name }
        .ok (r.addError .read f.message)
  else
    -- a file of another language is not opened
    .ok { id }

/-- Gives one waiting file its turn. -/
def turn (b : Builder) (entries : List Path) (id : Path) (s : BuildState) : BuildState :=
  let s := { s with done := id :: s.done }
  -- after a fault a file is only taken off the list
  if s.fault.isSome then s
  else
    match b.read id (id.among entries) with
    | .ok r => s.publish r
    | .error f => { s with fault := some f }

/-- Gives the next of the waiting files its turn; a build that is called off lets all of them go. -/
def step (b : Builder) (c : Schedule) (entries : List Path) (s : BuildState) : BuildState :=
  if c.isCancelled s then { s with waiting := [] }
  else
    let i := min (c.pick s) (s.waiting.length - 1)
    match s.waiting[i]? with
    | none => s
    | some id => b.turn entries id { s with waiting := s.waiting.eraseIdx i }

/-- Turns are given as long as files wait. -/
def run (b : Builder) (c : Schedule) (entries : List Path) (s : BuildState) : BuildState :=
  Id.run <| repeatM
    (fun s => pure (if s.waiting.isEmpty then .inr s else .inl (b.step c entries s))) s

theorem run_eq (b : Builder) (c : Schedule) (entries : List Path) (s : BuildState) :
    b.run c entries s = if s.waiting.isEmpty then s else b.run c entries (b.step c entries s) := by
  rw [run, repeatM_eq_of_monadTail, repeatM.body, pure_bind]
  cases s.waiting.isEmpty <;> rfl

/-- The entries of a graph: the files that are not left out, each once, in order. -/
def entriesOf (b : Builder) (files : List Path) : List Path :=
  Path.distinct ((files.map b.resolver.disk.canonical).filter (!b.exclusion.excludes ·))

/-- The beginning of a build: the entries are nodes, and wait. -/
def start (b : Builder) (entries : List Path) : BuildState :=
  let empty : ModuleGraph := { root := b.root, entries }
  { graph := entries.foldl (fun g id => g.addNode { id, language := b.language.name }) empty
    visited := entries
    waiting := entries.reverse }

/-- The end of a build: re-exports are followed, edges and entries sorted. -/
def finish (b : Builder) (generatedAt : String) (s : BuildState) : ModuleGraph :=
  let g := if b.unwrapReExports then s.reExports.unwrap s.graph else s.graph
  { g with language := b.language.name, generatedAt }.finalize

/-- The graph of entry files and of all that they take from, directly or not. -/
def build (b : Builder) (c : Schedule) (generatedAt : String) (files : List Path) :
    Except Fault ModuleGraph :=
  if files.isEmpty then .error (.noEntryFiles .noneGiven)
  else
    let entries := b.entriesOf files
    if entries.isEmpty then .error (.noEntryFiles .allExcluded)
    else
      let s := b.run c entries (b.start entries)
      -- a build that was called off is not asked for its fault
      if c.isCancelled s then .error .cancelled
      else
        match s.fault with
        | some f => .error f
        | none => .ok (b.finish generatedAt s)

end Builder

end ImportAtlas
