import ImportAtlas.Check
import ImportAtlas.CommandLine.Options
import ImportAtlas.Decimal.Fixed
import ImportAtlas.Graph.Cycles
import ImportAtlas.Json.Print
import ImportAtlas.Text.Table

/-!
# Reports

What is said about a graph, for people to read or as JSON.

* `Report.entropy`: the modules with the highest entropy, and counts.
* `Report.cycles`: the circular dependencies.
* `Report.check`: the result of a check.
-/

namespace ImportAtlas

namespace Report

open CommandLine (OutputFormat)

/-- Lines, each with its newline. -/
def ofLines (lines : List String) : String :=
  String.join (lines.map (· ++ "\n"))

def ofJson (j : Json) : String :=
  j.pretty ++ "\n"

/-! ### Entropy -/

/-- What is said of one module. -/
structure ModuleRow where
  file : String
  entropy : Float
  dependencies : Nat
  dependents : Nat

/-- What is said of one error. -/
structure ErrorRow where
  file : String
  error : NodeError

/-- The order of a report: higher entropies first, equal ones by name. -/
def ModuleRow.before (a b : ModuleRow) : Bool :=
  b.entropy < a.entropy || (!(a.entropy < b.entropy) && a.file ≤ b.file)

def moduleRows (g : ModuleGraph) (e : Entropy) (top : Nat) : List ModuleRow :=
  let rows := e.perNode.map fun (id, h) =>
    { file := g.displayName id, entropy := h
      dependencies := (g.dependencies id).length, dependents := (g.dependents id).length }
  (rows.mergeSort ModuleRow.before).take top

/-- The errors of a graph, module by module. -/
def errorRows (g : ModuleGraph) : List ErrorRow :=
  g.nodes.flatMap fun (_, n) => n.errors.map fun e => ⟨g.displayName n.id, e⟩

def moduleTable (rows : List ModuleRow) : List String :=
  let cells (r : ModuleRow) :=
    [r.file, Decimal.fixed r.entropy 3, r.dependencies.repr, r.dependents.repr]
  let table : Text.Table :=
    { headers := ["File", "Entropy", "Deps", "Dependents"].map String.toList
      rows := rows.map fun r => (cells r).map String.toList }
  table.render.map String.ofList

def entropy (g : ModuleGraph) (weighting : Weighting) (top : Nat) (format : OutputFormat) :
    String :=
  let e := g.entropy weighting
  let rows := moduleRows g e top
  let errors := errorRows g
  let cycles := g.cycles.length
  match format with
  | .text =>
    ofLines (moduleTable rows ++
      ["graph entropy: " ++ Decimal.fixed e.graph 3,
        "files: " ++ g.nodes.length.repr ++ "  edges: " ++ g.edges.length.repr ++
          "  cycles: " ++ cycles.repr] ++
      (if errors.isEmpty then [] else ["errors: " ++ errors.length.repr]) ++
      errors.map fun r => "  " ++ r.file ++ ": " ++ r.error.message)
  | .json =>
    let row (r : ModuleRow) : Json := .ofFields
      [("file", .ofText r.file), ("entropy", .ofFloat r.entropy),
        ("dependencies", .ofNat r.dependencies), ("dependents", .ofNat r.dependents)]
    let error (r : ErrorRow) : Json := .ofFields
      [("file", .ofText r.file), ("kind", .ofText r.error.kind.text),
        ("message", .ofText r.error.message)]
    ofJson (.ofFields
      [("graph_entropy", .ofFloat e.graph), ("files", .ofNat g.nodes.length),
        ("edges", .ofNat g.edges.length), ("cycles", .ofNat cycles),
        ("top", .ofList row rows), ("errors", .ofList error errors)])

/-! ### Cycles and checks -/

def cycles (g : ModuleGraph) (format : OutputFormat) : String :=
  let names := g.cycles.map (·.map g.displayName)
  match format with
  | .json => ofJson (.ofList (.ofList .ofText) names)
  | .text =>
    if names.isEmpty then ofLines ["<no cycles>"]
    else
      ofLines (names.zipIdx.map fun (c, i) =>
        "cycle " ++ (i + 1).repr ++ ": " ++ ", ".intercalate c)

def check (r : CheckReport) (format : OutputFormat) : String :=
  match format with
  | .json =>
    let violation (v : Violation) : Json := .ofFields
      [("from", .ofText v.source), ("to", .ofText v.target),
        ("rule", (v.rule.map Json.ofNat).getD .null), ("reason", .ofText v.reason)]
    ofJson (.ofFields
      [("violations", .ofList violation r.violations),
        ("cycles", .ofList (.ofList .ofText) r.cycles)])
  | .text =>
    ofLines (
      (r.violations.map fun v => v.source ++ " -> " ++ v.target ++ ": " ++ v.reason) ++
      (r.cycles.map fun c => "circular dependency: " ++ " -> ".intercalate c) ++
      [if r.isClean then "dep-tree check passed"
        else
          "dep-tree check failed: " ++ r.violations.length.repr ++ " violation(s), " ++
            r.cycles.length.repr ++ " cycle(s)"])

end Report

end ImportAtlas
