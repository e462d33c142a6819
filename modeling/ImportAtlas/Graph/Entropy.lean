import ImportAtlas.Graph.Basic

/-!
# Entropy

How far the imports of a module are spread: the entropy, in bits, of the distribution of its
outgoing weight over the modules it takes from. All weight on one module has entropy zero, and equal
weight on `k` modules has `log2 k`.

* `ModuleGraph.weights`: the weight that a module puts on each of its dependencies.
* `Entropy.shannon`: the entropy of weights.
* `ModuleGraph.entropy`: the entropies of all modules, and their mean weighted by outgoing weight.
-/

namespace ImportAtlas

/-- What an edge weighs: the symbols it takes, or one. -/
inductive Weighting where
  | symbols
  | edges
deriving DecidableEq, Repr, Inhabited

def Weighting.of : Weighting → Edge → Nat
  | symbols, e => e.weight
  | edges, _ => 1

/-- The entropies of a graph. -/
structure Entropy where
  /-- The entropy of each module, in the order of the modules. -/
  perNode : Keyed Float
  graph : Float

namespace Entropy

def total : List Nat → Nat
  | [] => 0
  | w :: ws => w + total ws

/-- The part of the entropy that an outcome of weight `w` among `total` has. -/
def term (total w : Nat) : Float :=
  let p := Float.ofNat w / Float.ofNat total
  p.neg * p.log2

/-- The entropy of the distribution that weights describe; never negative. -/
def shannon (weights : List Nat) : Float :=
  let total := total weights
  if total = 0 then 0.0
  else
    let h := ((weights.filter (0 < ·)).map (term total)).foldl (· + ·) 0.0
    if h ≤ 0.0 then 0.0 else h

/-- The entropy recorded for a module, zero if there is none. -/
def of (e : Entropy) (id : Path) : Float :=
  (e.perNode.value? id).getD 0.0

end Entropy

namespace ModuleGraph

/-- The weight that a module puts on each module it takes from, in the order of these. -/
def weights (g : ModuleGraph) (weighting : Weighting) (id : Path) : Keyed Nat :=
  (g.outgoing id).foldl (fun ws e => ws.alter e.target fun w => w.getD 0 + weighting.of e) []

/-- The weights of a module, without the modules they are put on. -/
def weightList (g : ModuleGraph) (weighting : Weighting) (id : Path) : List Nat :=
  (g.weights weighting id).map fun w => w.2

def outWeight (g : ModuleGraph) (weighting : Weighting) (id : Path) : Nat :=
  Entropy.total (g.weightList weighting id)

def nodeEntropy (g : ModuleGraph) (weighting : Weighting) (id : Path) : Float :=
  Entropy.shannon (g.weightList weighting id)

def entropy (g : ModuleGraph) (weighting : Weighting) : Entropy :=
  let rows := g.nodes.map fun node =>
    (node.2.id, g.nodeEntropy weighting node.2.id, g.outWeight weighting node.2.id)
  let total := Entropy.total (rows.map fun row => row.2.2)
  let sum := (rows.filter fun row => 0 < row.2.2).foldl
    (fun s row => s + row.2.1 * Float.ofNat row.2.2) 0.0
  { perNode := rows.foldl (fun kept row => kept.alter row.1 fun _ => row.2.1) []
    graph := if total = 0 then 0.0 else sum / Float.ofNat total }

end ModuleGraph

end ImportAtlas
