import ImportAtlas.Graph.Basic
import ImportAtlas.Graph.Components

/-!
# Cycles

The circular parts of a graph: the strongly connected components that hold a cycle.

* `ModuleGraph.neighbours`: the edges of a graph as a relation on the places of its nodes.
* `ModuleGraph.cycles`: the components with a cycle, each in order, in the order of their members.
-/

namespace ImportAtlas

/-- Whether a component holds a cycle: it has several nodes, or one that is its own neighbour. -/
def isCircular {n : Nat} (adj : Fin n → List (Fin n)) : List (Fin n) → Bool
  | [] => false
  | [v] => (adj v).contains v
  | _ => true

namespace ModuleGraph

/-- The nodes of a graph in order, without the paths they are kept at. -/
def nodeList (g : ModuleGraph) : List ModuleNode :=
  g.nodes.map (·.2)

/-- The paths of the nodes, in order. -/
def ids (g : ModuleGraph) : Array Path :=
  (g.nodeList.map (·.id)).toArray

/-- The place of a module among the nodes; of nodes of the same path the last one counts. -/
def index? (g : ModuleGraph) (id : Path) : Option (Fin g.ids.size) :=
  let ids := g.ids
  (List.finRange ids.size).reverse.find? fun i => ids[i].same id

/-- The places of the ends of an edge, if both are nodes. -/
def ends? (g : ModuleGraph) (e : Edge) : Option (Fin g.ids.size × Fin g.ids.size) :=
  match g.index? e.source, g.index? e.target with
  | some u, some v => some (u, v)
  | _, _ => none

/-- For each node, the places of the nodes that its edges lead to: in order, each once. -/
def neighbours (g : ModuleGraph) : Vector (List (Fin g.ids.size)) g.ids.size :=
  let pairs := g.edges.filterMap g.ends?
  Vector.ofFn fun u =>
    ((pairs.filter (·.1 == u)).map (·.2)).foldl (fun vs v => insertOnce compare v vs) []

/-- The order of lists of paths: by the first paths that differ. -/
def listOrder : List Path → List Path → Ordering
  | [], [] => .eq
  | [], _ :: _ => .lt
  | _ :: _, [] => .gt
  | p :: ps, q :: qs => (p.order q).then (listOrder ps qs)

/-- The circular parts of a graph: the largest sets of modules that all reach one another along
edges. A single module is one if it has an edge to itself. -/
def cycles (g : ModuleGraph) : List (List Path) :=
  let ids := g.ids
  let neighbours := g.neighbours
  let circular := (components neighbours.get).filter (isCircular neighbours.get)
  -- the places of nodes ascend as their paths do
  let sorted := circular.map fun c => (c.mergeSort fun u v => u ≤ v).map (ids[·])
  sorted.mergeSort fun c d => (listOrder c d).isLE

end ModuleGraph

end ImportAtlas
