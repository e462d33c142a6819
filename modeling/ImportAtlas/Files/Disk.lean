import ImportAtlas.Fault
import ImportAtlas.Files.Tree

/-!
# Disks

A tree of files together with the directory that relative paths start from. Paths are looked up as
an operating system does it: step by step, following symbolic links, `..` leading to the directory
above the one that was really reached.

* `Disk.locate`: the names from the root down to what a path stands for.
* `Disk.isFile`, `Disk.isDirectory`, `Disk.exists?`: what a path stands for.
* `Disk.read`, `Disk.readText`, `Disk.write`: the content of files.
* `Disk.canonical`: the path of a module, by which it is known.
-/

namespace ImportAtlas

structure Disk where
  tree : FileTree
  /-- The names from the root down to the working directory. -/
  cwd : List String := []
deriving Inhabited

namespace Disk

/-- How many symbolic links are followed on the way to a file. -/
def maxLinks : Nat := 40

/-- The steps of a path, in order. A slash at the end asks for a directory, as a last step `.`
does. -/
def steps (text : String) : List String :=
  let segments := Text.cutAt (· == '/') text.toList
  let last := if segments.getLast? = some [] then ["."] else []
  (segments.filter (· ≠ [])).map String.ofList ++ last

def isAbsoluteText (text : String) : Bool :=
  text.toList.head? == some '/'

/-- Follows steps from the directory with the names `done`. A symbolic link is left to `again`, with
the directory to go on from and the steps to go. -/
def followWith (tree : FileTree)
    (again : List String → List String → Except ReadFault (List String))
    (done : List String) : List String → Except ReadFault (List String)
  | [] => .ok done
  | s :: rest =>
    -- it is looked whether the directory is there before its steps are, `.` and `..` included
    match tree.at? done with
    | some (.directory es) =>
      if s = "." then followWith tree again done rest
      else if s = ".." then followWith tree again done.dropLast rest
      else
        match es.lookup s with
        | none => .error .notFound
        | some (.link target) =>
          again (if isAbsoluteText target then [] else done) (steps target ++ rest)
        | some _ => followWith tree again (done ++ [s]) rest
    | _ => .error .notDirectory

/-- Follows steps, and at most `n` symbolic links. -/
def follow (tree : FileTree) : (n : Nat) → (done : List String) → List String →
    Except ReadFault (List String)
  | 0 => followWith tree fun _ _ => .error .tooManyLinks
  | n + 1 => followWith tree (follow tree n)

/-- The names from the root down to what a path stands for. -/
def locate (d : Disk) (p : Path) : Except ReadFault (List String) :=
  if p.text.isEmpty then .error .notFound
  else follow d.tree maxLinks (if p.isAbsolute then [] else d.cwd) (steps p.text)

/-- What a path stands for, behind all symbolic links. -/
def node? (d : Disk) (p : Path) : Option FileTree :=
  match d.locate p with
  | .ok names => d.tree.at? names
  | .error _ => none

def isFile (d : Disk) (p : Path) : Bool :=
  (d.node? p).any (·.isFile)

def isDirectory (d : Disk) (p : Path) : Bool :=
  (d.node? p).any (·.isDirectory)

def exists? (d : Disk) (p : Path) : Bool :=
  (d.node? p).isSome

/-- What stands at a path itself, which may be a symbolic link. -/
def entry? (d : Disk) (p : Path) : Option FileTree :=
  match (steps p.text).getLast?, p.parent? with
  | some name, some above =>
    if name = "." ∨ name = ".." then d.node? p
    else
      let dir := if above.text.isEmpty then d.tree.at? d.cwd else d.node? above
      dir.bind (·.child? name)
  | _, _ => d.node? p

def read (d : Disk) (p : Path) : Except ReadFault ByteArray := do
  match d.tree.at? (← d.locate p) with
  | some (.file bytes) => return bytes
  | some .sealed => throw .permissionDenied
  | some (.directory _) => throw .isDirectory
  | _ => throw .notFound

def readText (d : Disk) (p : Path) : Except ReadFault String := do
  match String.fromUTF8? (← d.read p) with
  | some s => return s
  | none => throw .notUtf8

def pathOf (names : List String) : Path :=
  ⟨"/" ++ "/".intercalate names⟩

def cwdPath (d : Disk) : Path :=
  pathOf d.cwd

/-- The path that a module is known by: behind all symbolic links where the file exists, and else
the lexical normal form. -/
def canonical (d : Disk) (p : Path) : Path :=
  match d.locate p.clean with
  | .ok names => pathOf names
  | .error _ => p.clean

/-- The names of the file that is written at a path: the file there, behind all symbolic links, or a
new one in a directory that must exist. At most `n` links that lead to no file are followed. -/
def target (d : Disk) : (n : Nat) → Path → Except ReadFault (List String)
  | 0, _ => .error .tooManyLinks
  | n + 1, p =>
    match d.locate p with
    | .ok names =>
      match d.tree.at? names with
      | some (.directory _) => .error .isDirectory
      | some .sealed => .error .permissionDenied
      | _ => .ok names
    | .error .notFound => do
      match (steps p.text).getLast?, p.parent? with
      -- a path that ends in a slash or a `.` is that of a directory
      | some ".", _ => throw (if p.text.endsWith "/" then .isDirectory else .notFound)
      | some name, some above =>
        let names ← if above.text.isEmpty then pure d.cwd else d.locate above
        match d.tree.at? names with
        | some (.directory es) =>
          match es.lookup name with
          | none => return names ++ [name]
          | some (.link text) => target d n ((pathOf names).join text)
          | some _ => throw .notFound
        | _ => throw .notDirectory
      | _, _ => throw .notFound
    | .error f => .error f

/-- The disk with a text as the content of a file, and the names of that file. -/
def write (d : Disk) (p : Path) (text : String) : Except ReadFault (Disk × List String) :=
  (d.target maxLinks p).map fun names =>
    ({ d with tree := FileTree.insert (.file text.toUTF8) names d.tree }, names)

end Disk

end ImportAtlas
