import ImportAtlas.Graph.Basic
import ImportAtlas.Json.Parse
import ImportAtlas.Json.Print

/-!
# Saved graphs

The JSON text of a graph, and the graph that a text holds. Reading takes what it is given: edges may
name modules that are no nodes, and a node may be kept at a path that is not its own.

* `ModuleGraph.toJson`, `ModuleGraph.ofJson?`: a graph as a value.
* `ModuleGraph.save`, `ModuleGraph.load`: a graph as a text.
-/

namespace ImportAtlas

/-- The fields of a record, some of which are left out. -/
def presentFields (fields : List (Option (String × Json))) : Json :=
  Json.ofFields (fields.filterMap id)

/-- An optional text as a field, left out when there is none. -/
def optionalText (name : String) (t : Option String) : Option (String × Json) :=
  t.map fun s => (name, Json.ofText s)

namespace ImportedName

def toJson (n : ImportedName) : Json :=
  presentFields [some ("name", .ofText n.name), optionalText "alias" n.rename]

def ofJson? (j : Json) : Option ImportedName := do
  let f ← j.fields? ["name", "alias"]
  match f.values with
  | [some name, rename] =>
    return { name := ← name.text?, rename := ← (rename.getD .null).nullable? Json.text? }
  | _ => none

end ImportedName

/-- The set of names that an array holds. -/
def NameSet.ofJson? (j : Json) : Option NameSet :=
  (j.listOf? ImportedName.ofJson?).map NameSet.ofList

namespace ImportRecord

def toJson (r : ImportRecord) : Json :=
  presentFields
    [some ("path", .ofList .ofText r.path),
      optionalText "alias" r.rename,
      some ("relative_depth", .ofNat r.depth),
      some ("imported_names", .ofList (·.toJson) r.names),
      some ("is_wildcard", .bool r.wildcard),
      some ("is_conditional", .bool r.conditional),
      some ("is_re_export", .bool r.reExport),
      some ("line", .ofNat r.line)]

def ofJson? (j : Json) : Option ImportRecord := do
  let f ← j.fields? ["path", "alias", "relative_depth", "imported_names", "is_wildcard",
    "is_conditional", "is_re_export", "line"]
  match f.values with
  | [some path, rename, some depth, some names, some wildcard, some conditional, reExport, line] =>
    return {
      path := ← path.listOf? Json.text?
      rename := ← (rename.getD .null).nullable? Json.text?
      depth := ← depth.natural?
      names := ← NameSet.ofJson? names
      wildcard := ← wildcard.bool?
      conditional := ← conditional.bool?
      reExport := ← (reExport.getD (.bool false)).bool?
      line := ← (line.getD (.ofNat 0)).natural? }
  | _ => none

end ImportRecord

namespace NodeErrorKind

/-- The kind that a word names. -/
def ofText? (s : String) : Option NodeErrorKind :=
  [read, extraction, unresolvedImport].find? (·.text == s)

/-- The kind that a value names: its word, or an object that has it as its only key, with `null`. -/
def ofJson? : Json → Option NodeErrorKind
  | .string (some s) => ofText? s
  | .object [(some s, .null)] => ofText? s
  | _ => none

end NodeErrorKind

namespace NodeError

def toJson (e : NodeError) : Json :=
  .ofFields [("kind", .ofText e.kind.text), ("message", .ofText e.message)]

def ofJson? (j : Json) : Option NodeError := do
  let f ← j.fields? ["kind", "message"]
  match f.values with
  | [some kind, some message] =>
    return { kind := ← NodeErrorKind.ofJson? kind, message := ← message.text? }
  | _ => none

end NodeError

namespace Path

def toJson (p : Path) : Json :=
  .ofText p.text

def ofJson? (j : Json) : Option Path :=
  j.text?.map Path.mk

end Path

namespace ModuleNode

def toJson (n : ModuleNode) : Json :=
  .ofFields
    [("id", n.id.toJson), ("language", .ofText n.language),
      ("raw_imports", .ofList (·.toJson) n.imports), ("errors", .ofList (·.toJson) n.errors)]

def ofJson? (j : Json) : Option ModuleNode := do
  let f ← j.fields? ["id", "language", "raw_imports", "errors"]
  match f.values with
  | [some id, some language, some imports, some errors] =>
    return {
      id := ← Path.ofJson? id
      language := ← language.text?
      imports := ← imports.listOf? ImportRecord.ofJson?
      errors := ← errors.listOf? NodeError.ofJson? }
  | _ => none

end ModuleNode

namespace Edge

def toJson (e : Edge) : Json :=
  .ofFields
    [("from", e.source.toJson), ("to", e.target.toJson),
      ("imported_symbols", .ofList (·.toJson) e.symbols), ("is_wildcard", .bool e.wildcard)]

def ofJson? (j : Json) : Option Edge := do
  let f ← j.fields? ["from", "to", "imported_symbols", "is_wildcard"]
  match f.values with
  | [some source, some target, some symbols, some wildcard] =>
    return {
      source := ← Path.ofJson? source
      target := ← Path.ofJson? target
      symbols := ← NameSet.ofJson? symbols
      wildcard := ← wildcard.bool? }
  | _ => none

end Edge

namespace ModuleGraph

def toJson (g : ModuleGraph) : Json :=
  .ofFields
    [("root", g.root.toJson),
      ("entries", .ofList (·.toJson) g.entries),
      ("nodes", .ofFields (g.nodes.map fun (k, n) => (k.text, n.toJson))),
      ("edges", .ofList (·.toJson) g.edges),
      ("metadata", .ofFields
        [("language", .ofText g.language), ("generated_at", .ofText g.generatedAt)])]

/-- The nodes that the entries of an object hold; of those at one path the last. -/
def nodesOfJson? (j : Json) : Option (List (Path × ModuleNode)) := do
  let es ← j.entries?
  let nodes ← es.mapM fun (k, v) => (ModuleNode.ofJson? v).map (Path.mk k, ·)
  return nodes.foldl (fun kept (k, n) => Keyed.alter k (fun _ => n) kept) []

/-- The graph that a value holds, indexed anew. -/
def ofJson? (j : Json) : Option ModuleGraph := do
  let f ← j.fields? ["root", "entries", "nodes", "edges", "metadata"]
  match f.values with
  | [some root, some entries, some nodes, some edges, some metadata] =>
    let m ← metadata.fields? ["language", "generated_at"]
    match m.values with
    | [some language, some generatedAt] =>
      let g : ModuleGraph := {
        root := ← Path.ofJson? root
        entries := ← entries.listOf? Path.ofJson?
        nodes := ← nodesOfJson? nodes
        language := ← language.text?
        generatedAt := ← generatedAt.text?
        edges := ← edges.listOf? Edge.ofJson? }
      return g.reindex
    | _ => none
  | _ => none

def save (g : ModuleGraph) : String :=
  g.toJson.pretty

/-- The graph that a text holds. -/
def load (text : String) : Except Fault ModuleGraph :=
  match (Json.parse? text.toList).bind ofJson? with
  | some g => .ok g
  | none => .error .json

end ModuleGraph

end ImportAtlas
