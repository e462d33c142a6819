import ImportAtlas.Graph.Basic

/-!
# Re-exports

A module may offer what another module declares. A table of such offers leads from the module named
in an import statement to the one that declares the symbol.

* `ReExportTable.hop?`: one step of that way; `ReExportTable.follow`: the whole way.
* `ReExportTable.redirect`: the edges that take the place of an edge.
* `ReExportTable.unwrap`: the graph with all its edges redirected.
-/

namespace ImportAtlas

/-- What a module offers of another one, and under which names. -/
structure ReExport where
  target : Path
  names : NameSet
deriving DecidableEq, Repr, Inhabited

/-- The re-exports of modules, those of one module in the order of its statements. -/
abbrev ReExportTable := List (Path × List ReExport)

namespace ReExportTable

def of? (table : ReExportTable) (id : Path) : Option (List ReExport) :=
  (table.find? fun (k, _) => k.same id).map (·.2)

/-- Where a module takes a name from that it offers, and what the symbol is called there. -/
def hop? (table : ReExportTable) (id : Path) (name : String) : Option (Path × String) :=
  (table.of? id).bind fun offers =>
    offers.findSome? fun r =>
      (r.names.find? fun n => n.localName == name).map fun n => (r.target, n.name)

/-- At most `n` hops on the way of a name, none of them from a module of `seen`. -/
def followFrom (table : ReExportTable) (seen : List Path) :
    (n : Nat) → Path → String → Path × String
  | 0, id, name => (id, name)
  | n + 1, id, name =>
    -- modules that offer a name to each other lead in a circle
    if seen.any (·.same id) then (id, name)
    else
      match table.hop? id name with
      | none => (id, name)
      | some (next, inner) => followFrom table (id :: seen) n next inner

/-- The module that a name leads to, and what the symbol is called there. A module that the way has
passed before ends it; so there are never more hops than modules in the table. -/
def follow (table : ReExportTable) (id : Path) (name : String) : Path × String :=
  table.followFrom [] table.length id name

/-- Adds a symbol to the group of its module; the groups stand in the order of the modules. -/
def addToGroup (id : Path) (symbol : ImportedName) :
    List (Path × NameSet) → List (Path × NameSet)
  | [] => [(id, [symbol])]
  | (k, names) :: rest =>
    match id.order k with
    | .lt => (id, [symbol]) :: (k, names) :: rest
    | .eq => (k, names.insert symbol) :: rest
    | .gt => (k, names) :: addToGroup id symbol rest

/-- The symbols of an import, grouped by the modules they lead to. -/
def groups (table : ReExportTable) (target : Path) (symbols : NameSet) : List (Path × NameSet) :=
  symbols.foldl (fun gs symbol =>
    let (id, name) := table.follow target symbol.name
    -- the alias stays that of the import statement, if it has one
    addToGroup id { symbol with name } gs) []

/-- The edges that take the place of an edge: one for each module that its symbols lead to. An edge
that takes everything, or no symbol, or from a module without re-exports, stays. -/
def redirect (table : ReExportTable) (e : Edge) : List Edge :=
  if e.wildcard || e.symbols.isEmpty || (table.of? e.target).isNone then [e]
  else
    (table.groups e.target e.symbols).map fun (target, symbols) =>
      { source := e.source, target, symbols }

def unwrap (table : ReExportTable) (g : ModuleGraph) : ModuleGraph :=
  g.replaceEdges (g.edges.flatMap table.redirect)

end ReExportTable

end ImportAtlas
