import ImportAtlas.Graph.Basic
import ImportAtlas.Screen.Grid

/-!
# Layout

The part of a graph that is shown, as rows: breadth first from the module in focus along
dependencies, each module once, indented by its distance.

* `Layout.visible`: the rows of a graph.
* `Layout.place?`: where a module stands among rows.
* `Layout.rowBounds`, `Layout.columnBounds`: the scroll positions that keep the selection in view.
* `Layout.clampOffset`: the one of them nearest to a given one.
* `Layout.clampViewport`: the same in machine words.
-/

namespace ImportAtlas

inductive ViewMode where
  /-- The module in focus, its dependencies, and those of the modules that are expanded. -/
  | focus
  | overview
deriving DecidableEq, Repr, Inhabited

namespace Layout

/-- Columns of indentation for each step of distance. -/
def indent : Nat := 2

/-- Rows in breadth-first order. `queue` holds the modules that wait, with their distances, and
`seen` all that ever waited. At most `n` rows are made. The paths seen by the end are given too. -/
def walk (g : ModuleGraph) (isOpen : Path → Nat → Bool) :
    (n : Nat) → (queue : List (Path × Nat)) → (seen : List Path) → List (Path × Nat) × List Path
  | 0, _, seen => ([], seen)
  | _ + 1, [], seen => ([], seen)
  | n + 1, (id, depth) :: queue, seen =>
    let new := if isOpen id depth then (g.dependencies id).filter (!·.among seen) else []
    -- what begins to wait is seen from then on, so that nothing waits twice
    let (rows, seen) := walk g isOpen n (queue ++ new.map (·, depth + 1)) (seen ++ new)
    ((id, depth) :: rows, seen)

/-- More rows than a walk can make: it makes one for a start and for the target of an edge. -/
def bound (g : ModuleGraph) : Nat :=
  g.edges.length + 1

/-- The rows from each of some starts in turn, those left out that have been seen. -/
def walkAll (g : ModuleGraph) (isOpen : Path → Nat → Bool) (seen : List Path) :
    List Path → List (Path × Nat)
  | [] => []
  | p :: ps =>
    if p.among seen then walkAll g isOpen seen ps
    else
      let (rows, seen) := walk g isOpen (bound g) [(p, 0)] (seen ++ [p])
      rows ++ walkAll g isOpen seen ps

def isOpen (view : ViewMode) (expanded : List Path) (id : Path) (depth : Nat) : Bool :=
  view == .overview || depth == 0 || id.among expanded

/-- The visible modules with their distances, in the order of their rows. In the overview, modules
that have not been reached follow in their order, each with what it reaches. -/
def visible (g : ModuleGraph) (view : ViewMode) (expanded : List Path) (root : Path) :
    List (Path × Nat) :=
  match g.node? root with
  | none => []
  | some node =>
    let others :=
      match view with
      | .focus => []
      | .overview => g.nodes.map (·.2.id)
    walkAll g (isOpen view expanded) [] (node.id :: others)

def place? (rows : List (Path × Nat)) (id : Path) : Option Point :=
  (rows.zipIdx.find? fun r => r.1.1.same id).map fun r => ⟨r.1.2 * indent, r.2⟩

/-- The rows of the screen that show modules: all but the last one, where there are two or more. -/
def bodyRows (size : ScreenSize) : Nat :=
  if 2 ≤ size.rows then size.rows - 1 else size.rows

/-- The number between two bounds nearest to a number. -/
def clamp (lo hi n : Nat) : Nat :=
  if n < lo then lo else if hi < n then hi else n

/-- A range of numbers, both ends included; it is empty if `hi` is less than `lo`. -/
structure Bounds where
  lo : Nat
  hi : Nat
deriving DecidableEq, Repr

/-- The rows that may be the first one on the screen: a selected row is in view then, and the screen
does not go beyond the last row. -/
def rowBounds (selected rows body : Nat) : Bounds :=
  let lo := selected + 1 - body
  ⟨lo, max (min selected (rows - body)) lo⟩

/-- The column behind a label that begins at `selected`. An empty one takes a column all the
same. -/
def labelEnd (selected labelWidth : Nat) : Nat :=
  selected + max labelWidth 1

/-- The columns that may be the first one on the screen: the beginning of a label is in view then,
and as much of its end as fits. -/
def columnBounds (selected labelEnd columns : Nat) : Bounds :=
  ⟨min (labelEnd - columns) selected, selected⟩

/-- The offset nearest to a given one that keeps the selected row in view and does not go beyond the
last row. -/
def clampOffset (offset selected : Point) (labelEnd rows : Nat) (size : ScreenSize) : Point :=
  let body := bodyRows size
  let y :=
    if body = 0 then 0
    else
      let b := rowBounds selected.y rows body
      clamp b.lo b.hi offset.y
  let x :=
    if size.columns = 0 then 0
    else
      let b := columnBounds selected.x labelEnd size.columns
      clamp b.lo b.hi offset.x
  ⟨x, y⟩

/-- The offset nearest to a given one, in machine words: where the end of the label is too great for
a word, what a word keeps of it counts. The labels of an explorer are in memory and never that
wide. -/
def clampViewport (offset selected : Point) (labelWidth rows : Nat) (size : ScreenSize) : Point :=
  clampOffset offset selected (labelEnd selected.x labelWidth % UInt64.size) rows size

end Layout

end ImportAtlas
