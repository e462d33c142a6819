import ImportAtlas.Explorer.Layout
import ImportAtlas.Graph.Cycles
import ImportAtlas.Graph.Entropy

/-!
# The explorer

The state of an interactive view of a graph. One row is selected; selecting puts the view's root
there, deselecting puts it back to the entry. After every event the layout is computed anew and the
view scrolled so that the selection stays in sight.

* `Explorer.start`: the state before the first event.
* `Explorer.handle`: the state after an event, and whether the run goes on.
* `Explorer.label`: how a module is shown in its row.
-/

namespace ImportAtlas

inductive Mode where
  | browsing
  | selected
deriving DecidableEq, Repr, Inhabited

/-- What the user asks for. -/
inductive InputEvent where
  | moveUp
  | moveDown
  | select
  | deselect
  | toggleExpand
  | toggleErrors
  | toggleOverview
  | scrollUp
  | scrollDown
  | resize (size : ScreenSize)
  | quit
deriving DecidableEq, Repr, Inhabited

/-- Whether the run goes on after an event. -/
inductive Transition where
  | continue
  | quit
deriving DecidableEq, Repr, Inhabited

/-- The state of the explorer. -/
structure Explorer where
  graph : ModuleGraph
  /-- The module that is in focus at first. -/
  entry : Path
  size : ScreenSize
  mode : Mode := .browsing
  view : ViewMode := .focus
  root : Path
  selected : Path
  offset : Point := {}
  /-- The modules whose dependencies are shown. -/
  expanded : List Path := []
  showErrors : Bool := false
  /-- The visible modules with their distances. -/
  rows : List (Path × Nat) := []
  entropy : Entropy
  cyclic : List Path

namespace Explorer

def messages? (e : Explorer) (id : Path) : Option (List String) :=
  (e.graph.faulty.find? (·.id.same id)).map fun node => node.errors.map (·.message)

def hasErrors (e : Explorer) (id : Path) : Bool :=
  (e.messages? id).isSome

def inCycle (e : Explorer) (id : Path) : Bool :=
  id.among e.cyclic

/-- The mark in front of a module: `-` where its dependencies are shown, `+` where they are not, a
blank where it has none. -/
def marker (e : Explorer) (id : Path) : Char :=
  if (e.graph.dependencies id).isEmpty then ' '
  else if e.view = .overview ∨ id.same e.root ∨ id.among e.expanded then '-'
  else '+'

def label (e : Explorer) (id : Path) : List Char :=
  e.marker id :: ' ' :: (e.graph.displayName id).toList ++
    (if e.hasErrors id then [' ', '!'] else [])

/-- Computes the layout anew, and scrolls the view to the selection. -/
def relayout (e : Explorer) : Explorer :=
  let rows := Layout.visible e.graph e.view e.expanded e.root
  -- a selection that is no longer visible goes to the root
  let selected := if (Layout.place? rows e.selected).isSome then e.selected else e.root
  let place := (Layout.place? rows selected).getD {}
  let e := { e with rows, selected }
  let labelEnd := Layout.labelEnd place.x (e.label selected).length
  { e with offset := Layout.clampOffset e.offset place labelEnd rows.length e.size }

/-- The state before the first event, a module being selected and in focus. -/
def start (g : ModuleGraph) (entry : Path) (size : ScreenSize) : Explorer :=
  relayout
    { graph := g, entry, size, root := entry, selected := entry, entropy := g.entropy .symbols
      cyclic := g.cycles.flatten }

def withView (e : Explorer) (view : ViewMode) : Explorer :=
  relayout { e with view }

def withWeighting (e : Explorer) (weighting : Weighting) : Explorer :=
  { e with entropy := e.graph.entropy weighting }

def selectedRow? (e : Explorer) : Option Nat :=
  (Layout.place? e.rows e.selected).map (·.y)

/-- Selects a row; there is nothing to select in a row that does not exist. -/
def selectRow (e : Explorer) (row : Nat) : Explorer :=
  match e.rows[row]? with
  | some (id, _) => { e with selected := id }
  | none => e

/-- Selects the row above, or the one below, as far as there is one. -/
def moveSelection (e : Explorer) (down : Bool) : Explorer :=
  match e.selectedRow? with
  | none => e
  | some row => e.selectRow (min (if down then row + 1 else row - 1) (e.rows.length - 1))

/-- Scrolls by one row. -/
def scroll (e : Explorer) (down : Bool) : Explorer :=
  let body := Layout.bodyRows e.size
  let y := min (if down then e.offset.y + 1 else e.offset.y - 1) (e.rows.length - body)
  let e := { e with offset := { e.offset with y } }
  let row := e.selectedRow?.getD 0
  -- a selection that leaves the screen goes to the nearest row on it
  let nearest := Layout.clamp y (max (y + body - 1) y) row
  if nearest = row then e else e.selectRow nearest

/-- Shows the dependencies of the selected module, or hides them. -/
def toggleExpand (e : Explorer) : Explorer :=
  if e.selected.among e.expanded then
    { e with expanded := e.expanded.filter (!·.same e.selected) }
  else { e with expanded := Path.distinct (e.expanded ++ [e.selected]) }

/-- Leaves the errors that are shown, or else puts the entry into focus. -/
def deselect (e : Explorer) : Explorer :=
  if e.showErrors then { e with showErrors := false }
  else { e with mode := .browsing, root := e.entry }

/-- What an event changes, before the layout is computed anew. -/
def apply (e : Explorer) : InputEvent → Explorer
  | .moveUp => e.moveSelection false
  | .moveDown => e.moveSelection true
  | .select => { e with mode := .selected, root := e.selected, offset := {} }
  | .deselect => e.deselect
  | .toggleExpand => e.toggleExpand
  | .toggleErrors => { e with showErrors := !e.showErrors && e.hasErrors e.selected }
  | .toggleOverview =>
    { e with view := match e.view with | .focus => .overview | .overview => .focus }
  | .scrollUp => e.scroll false
  | .scrollDown => e.scroll true
  | .resize size => { e with size }
  | .quit => e

/-- The state after an event, and whether the run goes on. -/
def handle (e : Explorer) (event : InputEvent) : Explorer × Transition :=
  -- quitting does not even compute the layout anew
  if event = .quit then (e, .quit) else ((e.apply event).relayout, .continue)

end Explorer

end ImportAtlas
