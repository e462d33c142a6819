import ImportAtlas.Decimal.Fixed
import ImportAtlas.Graph.Cycles
import ImportAtlas.Graph.Entropy

/-!
# Drawings

A graph as a drawing in the DOT language of Graphviz. The fill of a node shows its entropy, from a
cool to a warm colour; modules on a cycle and the edges between them are red, and a node with errors
has a dashed border.

* `Drawing.Options`: what to draw and how.
* `Drawing.nodeLine`, `Drawing.edgeLine`: the statement of a node, and of an edge.
* `ModuleGraph.draw`: the lines of the drawing.
-/

namespace ImportAtlas

namespace Drawing

inductive Theme where
  | light
  | dark
deriving DecidableEq, Repr, Inhabited

/-- Where the edges of a drawing lead: from left to right or from top to bottom. -/
inductive Direction where
  | leftToRight
  | topToBottom
deriving DecidableEq, Repr, Inhabited

structure Options where
  clusters : Bool := true
  legend : Bool := true
  theme : Theme := .light
  direction : Direction := .leftToRight
  weighting : Weighting := .symbols
deriving DecidableEq, Repr, Inhabited

/-! ### Texts -/

/-- An identifier for a name: what is no ASCII letter, digit or `_` becomes `_`. -/
def identifier (name : String) : String :=
  name.map fun c => if c.isAlphanum || c == '_' then c else '_'

def escaped (text : String) : String :=
  String.ofList (text.toList.flatMap fun c =>
    if c = '\\' ∨ c = '"' then ['\\', c] else [c])

def quoted (text : String) : String :=
  "\"" ++ text ++ "\""

/-! ### Colours -/

def cycleColour : String := "#d62728"

def edgeColour : String := "#1f77b4"

def Theme.border : Theme → String
  | light => "#7f7f7f"
  | dark => "#d0d0d0"

/-- The fills of the lowest and the highest entropy, channel by channel. -/
def Theme.fills : Theme → List (Float × Float)
  | light => [(224.0, 255.0), (243.0, 208.0), (255.0, 160.0)]
  | dark => [(18.0, 122.0), (69.0, 76.0), (89.0, 0.0)]

def hexByte (n : Nat) : String :=
  String.ofList [Nat.digitChar (n / 16), Nat.digitChar (n % 16)]

/-- The fill of a node, `h` being its entropy and `top` the highest of the graph. -/
def fill (theme : Theme) (h top : Float) : String :=
  -- without any entropy all nodes have the lowest fill
  let t := if top > 0.0 then
      let t := h / top
      if t < 0.0 then 0.0 else if t > 1.0 then 1.0 else t
    else 0.0
  "#" ++ String.join (theme.fills.map fun (low, high) =>
    hexByte (low + (high - low) * t).round.toUInt8.toNat)

/-! ### Statements -/

/-- The width of an edge: the root of its weight, from 0.8 to 3. -/
def penWidth (weight : Nat) : Float :=
  let w := (Float.ofNat weight).sqrt
  if w < 0.8 then 0.8 else if w > 3.0 then 3.0 else w

/-- What the drawing of a graph draws upon. -/
structure Sheet where
  graph : ModuleGraph
  options : Options
  entropy : Entropy
  cycles : List (List Path)

def Sheet.of (g : ModuleGraph) (options : Options) : Sheet :=
  { graph := g, options, entropy := g.entropy options.weighting, cycles := g.cycles }

namespace Sheet

def top (s : Sheet) : Float :=
  s.entropy.perNode.foldl (fun m (_, h) => if m < h then h else m) 0.0

/-- The place of the cycle that a module is on; of several the last one counts. -/
def cycleOf? (s : Sheet) (id : Path) : Option Nat :=
  (s.cycles.zipIdx.reverse.find? fun (c, _) => c.any (·.same id)).map (·.2)

def onCycle (s : Sheet) (e : Edge) : Bool :=
  match s.cycleOf? e.source, s.cycleOf? e.target with
  | some a, some b => a == b
  | _, _ => false

def nodeLine (s : Sheet) (indent : String) (id : Path) : String :=
  let name := s.graph.displayName id
  let h := s.entropy.of id
  let colour := if (s.cycleOf? id).isSome then cycleColour else s.options.theme.border
  let dashed := (s.graph.node? id).any (!·.errors.isEmpty)
  indent ++ quoted (identifier name) ++ " [label=" ++ quoted (escaped name) ++
    ", fillcolor=" ++ quoted (fill s.options.theme h s.top) ++ ", color=" ++ quoted colour ++
    ", style=" ++ quoted (if dashed then "filled,rounded,dashed" else "filled,rounded") ++
    ", tooltip=" ++ quoted ("entropy " ++ Decimal.fixed h 2) ++ "];"

/-- The label of an edge: how many symbols it takes, or `*`. -/
def edgeLabel (e : Edge) : String :=
  if e.wildcard then "*" else if e.symbols.isEmpty then "" else e.symbols.length.repr

def edgeLine (s : Sheet) (e : Edge) : String :=
  "  " ++ quoted (identifier (s.graph.displayName e.source)) ++ " -> " ++
    quoted (identifier (s.graph.displayName e.target)) ++ " [label=" ++ quoted (edgeLabel e) ++
    ", color=" ++ quoted (if s.onCycle e then cycleColour else edgeColour) ++
    ", penwidth=" ++ Decimal.fixed (penWidth e.weight) 2 ++ "];"

/-- The directory in which a module is shown. -/
def directory (s : Sheet) (id : Path) : String :=
  let name := (s.graph.displayName id).toList
  String.ofList ((name.reverse.dropWhile (· != '/')).drop 1).reverse

/-- Puts a module into the group of its directory, the groups in the order of their directories. -/
def insertInto (dir : String) (id : Path) : List (String × List Path) → List (String × List Path)
  | [] => [(dir, [id])]
  | (d, ids) :: rest =>
    match compare dir d with
    | .lt => (dir, [id]) :: (d, ids) :: rest
    | .eq => (d, ids ++ [id]) :: rest
    | .gt => (d, ids) :: insertInto dir id rest

def byDirectory (s : Sheet) : List (String × List Path) :=
  (s.graph.nodes.map (·.2.id)).foldl (fun groups id => insertInto (s.directory id) id groups) []

/-- The statements of the modules of one directory, in a cluster unless it is the root. -/
def clusterLines (s : Sheet) (dir : String) (ids : List Path) : List String :=
  if dir.isEmpty then ids.map (s.nodeLine "  ")
  else
    ["  subgraph " ++ quoted ("cluster_" ++ identifier dir) ++ " \x7b",
      "    label=" ++ quoted (escaped dir) ++ ";",
      "    color=lightgrey;"] ++
    ids.map (s.nodeLine "    ") ++ ["  \x7d"]

def nodeLines (s : Sheet) : List String :=
  if s.options.clusters then s.byDirectory.flatMap fun (dir, ids) => s.clusterLines dir ids
  else s.graph.nodes.map fun (_, node) => s.nodeLine "  " node.id

def legendLines (s : Sheet) : List String :=
  let low := quoted (fill s.options.theme 0.0 1.0)
  let high := quoted (fill s.options.theme 1.0 1.0)
  ["  subgraph cluster_legend \x7b",
    "    label=\"Legend\";",
    "    color=grey;",
    "    \"legend_low\" [label=\"low entropy\", fillcolor=" ++ low ++ "];",
    "    \"legend_high\" [label=\"high entropy\", fillcolor=" ++ high ++ "];",
    "    \"legend_cycle\" [label=\"in a cycle\", fillcolor=" ++ low ++ ", color=" ++
      quoted cycleColour ++ "];",
    "  \x7d"]

def headLines (s : Sheet) : List String :=
  let rank :=
    match s.options.direction with
    | .leftToRight => "LR"
    | .topToBottom => "TB"
  ["digraph DepTree",
    "\x7b",
    "  rankdir=" ++ rank ++ ";",
    "  graph [fontname=Helvetica];",
    "  node [shape=box, fontsize=10, style=\"filled,rounded\"];",
    "  edge [fontname=Helvetica, fontsize=9];"]

def lines (s : Sheet) : List String :=
  s.headLines ++ s.nodeLines ++ s.graph.edges.map s.edgeLine ++
    (if s.options.legend then s.legendLines else []) ++ ["\x7d"]

end Sheet

end Drawing

def ModuleGraph.draw (g : ModuleGraph) (options : Drawing.Options) : String :=
  String.join ((Drawing.Sheet.of g options).lines.map (· ++ "\n"))

end ImportAtlas
