import ImportAtlas.Fault
import ImportAtlas.Import
import ImportAtlas.Keyed

/-!
# Module graphs

A graph of source files: a node for each file, known by its path, and edges for what one file takes
from another. Nodes are kept in the order of their paths, edges in a list; an edge that differs only
in what it takes is an edge of its own. Beside the list two indexes tell for each node the places of
the edges that leave it and of those that reach it.

* `ModuleNode`, `Edge`, `ModuleGraph`: the data.
* `ModuleGraph.addNode`, `addEdge`, `replaceEdges`, `finalize`: how a graph grows.
* `ModuleGraph.outgoing`, `incoming`, `dependencies`, `dependents`: the neighbours of a node.
* `ModuleGraph.displayName`: how a module is shown.
-/

namespace ImportAtlas

inductive NodeErrorKind where
  | read
  | extraction
  | unresolvedImport
deriving DecidableEq, Repr, Inhabited

def NodeErrorKind.text : NodeErrorKind → String
  | read => "read"
  | extraction => "extraction"
  | unresolvedImport => "unresolved-import"

/-- Something wrong with one file that does not stop a run. -/
structure NodeError where
  kind : NodeErrorKind
  message : String
deriving DecidableEq, Repr, Inhabited

/-- A file of the graph. -/
structure ModuleNode where
  id : Path
  language : String
  imports : List ImportRecord := []
  errors : List NodeError := []
deriving DecidableEq, Repr, Inhabited

/-- What one file takes from another. -/
structure Edge where
  source : Path
  target : Path
  symbols : NameSet := []
  wildcard : Bool := false
deriving DecidableEq, Repr, Inhabited

namespace Edge

/-- Two edges are the same when they join the same modules and take the same. -/
def same (e f : Edge) : Bool :=
  e.source.same f.source && e.target.same f.target && e.symbols == f.symbols &&
    e.wildcard == f.wildcard

/-- How many symbols an edge takes; an import of no symbol, or of all, counts as one. -/
def weight (e : Edge) : Nat :=
  max e.symbols.length 1

end Edge

/-- A graph of source files. -/
structure ModuleGraph where
  root : Path
  entries : List Path := []
  /-- The nodes under the paths that they are kept at. -/
  nodes : Keyed ModuleNode := []
  edges : List Edge := []
  /-- The places among the edges of those that leave a node. -/
  leaving : Keyed (List Nat) := []
  /-- The places among the edges of those that reach a node. -/
  arriving : Keyed (List Nat) := []
  language : String := ""
  generatedAt : String := ""
deriving DecidableEq, Repr, Inhabited

/-- The distinct paths of a list, in order; of paths that are the same the last one is kept. -/
def Path.distinct (ps : List Path) : List Path :=
  ps.foldl (fun set p => insert p set) []
where
  /-- Adds a path, in place of one that is the same. -/
  insert (p : Path) : List Path → List Path
    | [] => [p]
    | q :: qs =>
      match p.order q with
      | .lt => p :: q :: qs
      | .eq => p :: qs
      | .gt => q :: insert p qs

namespace ModuleGraph

def node? (g : ModuleGraph) (id : Path) : Option ModuleNode :=
  g.nodes.value? id

def contains (g : ModuleGraph) (id : Path) : Bool :=
  g.nodes.holds id

/-- The graph with a node more, unless it has one of the same path. -/
def addNode (g : ModuleGraph) (node : ModuleNode) : ModuleGraph :=
  if g.contains node.id then g
  else
    { g with
      nodes := g.nodes.alter node.id fun _ => node
      leaving := g.leaving.alter node.id (·.getD [])
      arriving := g.arriving.alter node.id (·.getD []) }

/-- Changes the node of a path, if there is one. -/
def updateNode (g : ModuleGraph) (id : Path) (f : ModuleNode → ModuleNode) : ModuleGraph :=
  { g with nodes := g.nodes.update id f }

/-- The edges at the places that an index has for a module. -/
def edgesAt (g : ModuleGraph) (index : Keyed (List Nat)) (id : Path) : List Edge :=
  ((index.value? id).getD []).filterMap (g.edges[·]?)

/-- The edges that leave a module, in the order of the graph. -/
def outgoing (g : ModuleGraph) (id : Path) : List Edge :=
  g.edgesAt g.leaving id

/-- The edges that reach a module, in the order of the graph. -/
def incoming (g : ModuleGraph) (id : Path) : List Edge :=
  g.edgesAt g.arriving id

/-- The end of an edge that is no node of the graph, the source first. -/
def missingEnd? (g : ModuleGraph) (e : Edge) : Option Path :=
  [e.source, e.target].find? (!g.contains ·)

/-- Adds a place to those that an index has for a module. -/
def notePlace (i : Nat) (places : Option (List Nat)) : List Nat :=
  places.getD [] ++ [i]

def pushEdge (g : ModuleGraph) (e : Edge) : ModuleGraph :=
  { g with
    edges := g.edges ++ [e]
    leaving := g.leaving.alter e.source (notePlace g.edges.length)
    arriving := g.arriving.alter e.target (notePlace g.edges.length) }

/-- The graph with an edge more, and whether it is new: one that is there already is not added. Both
its ends must be nodes. -/
def addEdge (g : ModuleGraph) (e : Edge) : Except Fault (ModuleGraph × Bool) :=
  match g.missingEnd? e with
  | some id => .error (.missingEndpoint id)
  | none =>
    -- an edge that is the same has the same source
    if (g.outgoing e.source).any (·.same e) then .ok (g, false) else .ok (g.pushEdge e, true)

/-- An index of the nodes of a graph, made anew: the places of the edges by one of their ends. An
edge whose end is no node is in none of the places. -/
def indexBy (g : ModuleGraph) (theEnd : Edge → Path) : Keyed (List Nat) :=
  g.edges.zipIdx.foldl (fun index (e, i) => index.update (theEnd e) (· ++ [i]))
    (g.nodes.map fun (k, _) => (k, []))

def reindex (g : ModuleGraph) : ModuleGraph :=
  { g with leaving := g.indexBy (·.source), arriving := g.indexBy (·.target) }

/-- The edges of a list that join nodes, each once. -/
def keepEdges (g : ModuleGraph) (es : List Edge) : List Edge :=
  -- of edges that are the same the first one stays
  es.foldl (fun kept e =>
    if (g.missingEnd? e).isNone && !kept.any (·.same e) then kept ++ [e] else kept) []

/-- The graph with other edges: those of a list that join nodes, each once. -/
def replaceEdges (g : ModuleGraph) (es : List Edge) : ModuleGraph :=
  { g with edges := g.keepEdges es }.reindex

/-- The order of edges by source and then by target. -/
def edgeOrder (e f : Edge) : Ordering :=
  (e.source.order f.source).then (e.target.order f.target)

/-- A list without the paths that are the same as the one before them. -/
def dropRepeats : List Path → List Path
  | [] => []
  | [p] => [p]
  | p :: q :: ps => if p.same q then dropRepeats (p :: ps) else p :: dropRepeats (q :: ps)
termination_by ps => ps.length

/-- The graph with its edges sorted by source and target, parallel edges staying in their order, and
its entries sorted, each once. -/
def finalize (g : ModuleGraph) : ModuleGraph :=
  { g with
    edges := g.edges.mergeSort fun e f => (edgeOrder e f).isLE
    entries := dropRepeats (g.entries.mergeSort fun p q => (p.order q).isLE) }.reindex

/-- The distinct modules that a module takes from, in order. -/
def dependencies (g : ModuleGraph) (id : Path) : List Path :=
  Path.distinct ((g.outgoing id).map (·.target))

/-- The distinct modules that take from a module, in order. -/
def dependents (g : ModuleGraph) (id : Path) : List Path :=
  Path.distinct ((g.incoming id).map (·.source))

/-- The nodes with errors, in order. -/
def faulty (g : ModuleGraph) : List ModuleNode :=
  (g.nodes.map (·.2)).filter (!·.errors.isEmpty)

/-- How a module is shown: by its steps below the root, or by its path when it lies elsewhere. -/
def displayName (g : ModuleGraph) (id : Path) : String :=
  match id.relativeTo? g.root with
  | some rel => if rel.text.isEmpty then id.text else "/".intercalate (rel.components.map (·.text))
  | none => id.text

end ModuleGraph

end ImportAtlas
