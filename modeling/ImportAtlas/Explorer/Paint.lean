import ImportAtlas.Explorer.Basic
import ImportAtlas.Decimal.Fixed
import ImportAtlas.Text.Wrap

/-!
# Painting the explorer

The screen shows one module per row and a status line below, or the errors of the selected module
in place of both.

* `Explorer.statusLine`: what is said about the selected module.
* `Grid.paintErrors`: messages over the whole screen.
* `Explorer.paint`: the grid that shows a state.
-/

namespace ImportAtlas

namespace Grid

/-- A blank grid of a size, the cells of the old one being used where they can be. -/
def prepare (g : Grid) (size : ScreenSize) : Grid :=
  if g.size = size then g.clear else g.resize size

def ellipsis : List Char := ['.', '.', '.']

/-- Fills a grid of a size with messages, wrapped to its width. If there are more lines than rows,
the last row is cut and ends with an ellipsis. -/
def paintErrors (g : Grid) (messages : List String) (size : ScreenSize) : Grid :=
  let lines := Text.wrap ("\n".intercalate messages).toList size.columns
  let shown := (lines.take size.rows).zipIdx.foldl
    (fun g (line, y) => g.put 0 y line {}) (g.prepare size)
  if lines.length > size.rows ∧ size.rows > 0 then
    let last := size.rows - 1
    let cut := (lines.getD last []).take (size.columns - ellipsis.length) ++
      ellipsis.take size.columns
    (shown.fillRow last {}).put 0 last cut {}
  else shown

end Grid

namespace Explorer

/-- The style of a row: inverted where it is selected, red on a cycle, yellow with errors. -/
def rowStyle (e : Explorer) (id : Path) : Style :=
  if id.same e.selected then .inverted
  else if e.inCycle id then .coloured .red
  else if e.hasErrors id then .coloured .yellow
  else {}

def modeText (e : Explorer) : String :=
  match e.view, e.mode with
  | .overview, _ => "overview"
  | .focus, .selected => "selected"
  | .focus, .browsing => "browse"

def statusLine (e : Explorer) : String :=
  let id := e.selected
  " " ++ e.graph.displayName id ++
    " | deps " ++ (e.graph.dependencies id).length.repr ++
    " | dependents " ++ (e.graph.dependents id).length.repr ++
    " | entropy " ++ Decimal.fixed (e.entropy.of id) 2 ++
    (if e.inCycle id then " | cycle" else "") ++
    (match e.messages? id with
      | some ms => " | " ++ ms.length.repr ++ " error(s), e to show"
      | none => "") ++
    " | " ++ e.modeText ++ " | q quit"

def bodyView (e : Explorer) : List (Path × Nat) :=
  (e.rows.drop e.offset.y).take (Layout.bodyRows e.size)

def paintBody (e : Explorer) (g : Grid) : Grid :=
  e.bodyView.zipIdx.foldl (fun g r =>
    let id := r.1.1
    match Layout.place? e.rows id with
    | none => g
    | some p => g.put ((p.x : Int) - e.offset.x) r.2 (e.label id) (e.rowStyle id)) g

/-- Paints the status line, for which there must be two rows. -/
def paintStatus (e : Explorer) (g : Grid) : Grid :=
  if 2 ≤ e.size.rows then
    let last := e.size.rows - 1
    (g.fillRow last .inverted).put 0 last e.statusLine.toList .inverted
  else g

/-- The grid that shows a state. Nothing of the old grid is left. -/
def paint (e : Explorer) (g : Grid) : Grid :=
  match e.showErrors, e.messages? e.selected with
  | true, some ms => g.paintErrors ms e.size
  | _, _ => e.paintStatus (e.paintBody (g.prepare e.size))

end Explorer

end ImportAtlas
