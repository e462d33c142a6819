import ImportAtlas.Text.Chars

/-!
# TOML values

A value as it stands in a document. Tables remember how they came to be, because this decides
whether later lines may add to them.

* `Toml`: the values; `Toml.TableKind`: how a table came to be.
* `Toml.updateAt`: changes the table that a path of keys leads to.
* `Toml.Statement`, `Toml.ofStatements?`: the lines of a document, and the table that they describe.
-/

namespace ImportAtlas

/-- How a table came to be. -/
inductive Toml.TableKind where
  /-- Written in braces, and complete. -/
  | inline
  /-- Named by a header. -/
  | header
  /-- On the way to a table that a header names. -/
  | implied
  /-- On the way to a value that a dotted key names. -/
  | dotted
  /-- One of an array of tables. -/
  | element
deriving DecidableEq, Repr, Inhabited

/-- A TOML value. Of numbers no more is kept than that they are numbers. -/
inductive Toml where
  | text (s : String)
  | bool (b : Bool)
  | number
  /-- A date, a time or both, in its normal form. -/
  | dateTime (s : String)
  | array (items : List Toml)
  | table (kind : Toml.TableKind) (entries : List (String × Toml))
  | tables (items : List (List (String × Toml)))
deriving Repr, Inhabited

namespace Toml

abbrev Entries := List (String × Toml)

/-- Entries with a value under a key, in place of what stood there. -/
def put (key : String) (value : Toml) : Entries → Entries
  | [] => [(key, value)]
  | (k, v) :: es => if k = key then (k, value) :: es else (k, v) :: put key value es

/-- Changes the table that a path of keys leads to. Tables that are missing are made, of the kind
`made`; whether one that is there may be entered, `enters` tells by its kind and by whether it is
the last of the path. Of an array of tables the last one is entered. -/
def updateAt (made : TableKind) (enters : TableKind → (last : Bool) → Bool)
    (change : Entries → Option Entries) : List String → Entries → Option Entries
  | [], es => change es
  | k :: ks, es =>
    match es.lookup k with
    | none =>
      (updateAt made enters change ks []).map fun new => put k (.table made new) es
    | some (.table kind sub) =>
      if enters kind ks.isEmpty then
        (updateAt made enters change ks sub).map fun new => put k (.table kind new) es
      else none
    | some (.tables ts) =>
      match ts.getLast? with
      | some sub =>
        if enters .element ks.isEmpty then
          (updateAt made enters change ks sub).map fun new =>
            put k (.tables (ts.dropLast ++ [new])) es
        else none
      | none => none
    | some _ => none

/-- Changes the table that a header leads to. -/
def updateAtHeader (change : Entries → Option Entries) : List String → Entries → Option Entries
  | path => updateAt .implied (fun kind _ => kind != .inline) change path

/-- Adds a value under a dotted key. The table it belongs to must be one that dotted keys make. -/
def addDotted (path : List String) (key : String) (value : Toml) : Entries → Option Entries :=
  updateAt .dotted
    -- on its way a dotted key may pass what headers imply, but it may not add to that
    (fun kind last => kind == .dotted || (!last && (kind == .implied || kind == .element)))
    (fun es => if (es.lookup key).isSome then none else some (put key value es)) path

/-- Adds a table that a header names. One that was only implied so far becomes it. -/
def addTable (key : String) (es : Entries) : Option Entries :=
  match es.lookup key with
  | none => some (put key (.table .header []) es)
  | some (.table .implied sub) => some (put key (.table .header sub) es)
  | some _ => none

def addElement (key : String) (es : Entries) : Option Entries :=
  match es.lookup key with
  | none => some (put key (.tables [[]]) es)
  | some (.tables ts) => some (put key (.tables (ts ++ [[]])) es)
  | some _ => none

/-- A key, which may be dotted: the path to a table, and the last part. -/
structure Key where
  path : List String
  last : String
deriving DecidableEq, Repr, Inhabited

/-- A line of a document. -/
inductive Statement where
  | table (key : Key)
  | element (key : Key)
  | entry (key : Key) (value : Toml)
deriving Inhabited

/-- A document up to some line: the path to the table that entries belong to, and all entries. -/
structure Document where
  here : List String := []
  entries : Entries := []

def Document.add (d : Document) : Statement → Option Document
  | .table k =>
    (updateAtHeader (addTable k.last) k.path d.entries).map (⟨k.path ++ [k.last], ·⟩)
  | .element k =>
    (updateAtHeader (addElement k.last) k.path d.entries).map (⟨k.path ++ [k.last], ·⟩)
  | .entry k value =>
    (updateAtHeader (addDotted k.path k.last value) d.here d.entries).map (⟨d.here, ·⟩)

/-- The table that the lines of a document describe. -/
def ofStatements? (lines : List Statement) : Option Toml :=
  (lines.foldlM Document.add {}).map fun d => .table .header d.entries

/-- The inline table that entries make. -/
def inlineTable? (entries : List (Key × Toml)) : Option Toml :=
  let add (es : Entries) (e : Key × Toml) : Option Entries := addDotted e.1.path e.1.last e.2 es
  (entries.foldlM add []).map (.table .inline ·)

end Toml

end ImportAtlas
