import ImportAtlas.Files.Walk
import ImportAtlas.Language

/-!
# Entry files

The files that a graph starts from, as somebody names them: files, or directories with all the
source files below them.

* `Entries.sourceFiles`: the source files below a directory.
* `Entries.expand`: the files that arguments name.
-/

namespace ImportAtlas

namespace Entries

/-- A path by the names that lead to it from the root. -/
def absolute (d : Disk) (arg : String) : Path :=
  (d.cwdPath.join arg).clean

/-- The source files below a directory, in order; ignore files count unless `all` is set. -/
def sourceFiles (d : Disk) (all : Bool) (dir : Path) : List Path :=
  let found := d.walk (if all then .none else .everywhere) none dir
  let files := (found.filter fun f => f.node.isFile && Language.supports f.path).map (·.path)
  files.mergeSort fun p q => (p.order q).isLE

/-- The files that an argument names; none if it names nothing that exists. -/
def ofArgument? (d : Disk) (all : Bool) (arg : String) : Option (List Path) :=
  let p := absolute d arg
  if d.isDirectory p then some (sourceFiles d all p)
  else if d.isFile p then some [p]
  else none

/-- The files that arguments name, in the order of these. Some must be left; when none is because
one argument names nothing, the fault tells which. -/
def expand (d : Disk) (all : Bool) (args : List String) : Except Fault (List Path) :=
  let found := args.map fun a => (a, ofArgument? d all a)
  match found.flatMap (·.2.getD []) with
  | [] =>
    match found.filter (·.2.isNone) with
    | [(arg, _)] => .error (.noEntryFiles (.missing arg))
    | _ => .error (.noEntryFiles .noneValid)
  | files => .ok files

end Entries

end ImportAtlas
