import Std.Time.DateTime.Timestamp
import ImportAtlas.Explorer.Keys
import ImportAtlas.Explorer.Paint
import ImportAtlas.Run
import ImportAtlas.Screen.Terminal

/-!
# The program

Takes a picture of the files that a run may look at, runs the command on it, and then prints and
writes what it answers.
-/

namespace ImportAtlas

namespace Program

/-! ### The picture of the disk -/

def namesOf (p : Path) : List String :=
  (p.text.splitOn "/").filter (· ≠ "")

/-- What stands at a path, with all below it. A file that cannot be read is there all the same;
anything else that cannot is left out, and so is what a version control system keeps for itself. -/
partial def treeAt? (path : String) : IO (Option FileTree) := do
  try
    let p := (← IO.currentDir) / path
    match (← p.symlinkMetadata).type with
    | .dir =>
      if p.fileName == some ".git" then return some .empty
      let mut entries := []
      for e in ← p.readDir do
        if let some t ← treeAt? e.path.toString then
          entries := (e.fileName, t) :: entries
      return some (.directory entries)
    | .symlink => return some (.link (← IO.FS.realPath p).toString)
    | .file =>
      try
        return some (.file (← IO.FS.readBinFile p))
      catch _ => return some .sealed
    | .other => return none
  catch _ => return none

def addTree (tree : FileTree) (p : Path) : IO FileTree := do
  match ← treeAt? p.text with
  | some t => return FileTree.insert t (namesOf p) tree
  | none => return tree

/-- The files that say something about the directories below theirs. -/
def settingsNames : List String :=
  Discovery.markers ++ [".gitignore", ".ignore", "tsconfig.json"]

/-- The disk as far as a command may look at it: the working directory and all that its words name,
the projects that these belong to, and the settings in the directories above. -/
def disk (words : List String) : IO Disk := do
  let cwd : Path := ⟨(← IO.currentDir).toString⟩
  let places := cwd :: words.map fun w => (cwd.join w).clean
  let mut tree := FileTree.empty
  for dir in places.flatMap Path.ancestors do
    for name in settingsNames do
      tree ← addTree tree (dir.join name)
  for p in places do
    tree ← addTree tree p
  let shallow : Disk := { tree, cwd := namesOf cwd }
  for p in places do
    tree ← addTree tree (Discovery.projectRoot shallow p)
  return { shallow with tree }

/-! ### The explorer -/

/-- The keys of a line; a line without any is the enter key. -/
def keysOf (line : String) : List Key :=
  match line.toList.filter (· ≠ '\n') with
  | [] => [.enter]
  | cs => cs.map .char

/-- Draws the explorer and reads keys line by line until it is left, or there are no more. -/
partial def explore (e : Explorer) (g : Grid) : IO Unit := do
  let g := e.paint g
  IO.print (String.ofList (g.flush.flatMap (·.text)) ++ "\n")
  let line ← (← IO.getStdin).getLine
  if line.isEmpty then return
  let events := (keysOf line).filterMap Key.event?
  if events.contains .quit then return
  explore (events.foldl (fun e event => (e.handle event).1) e) g

def numberIn (name : String) (default : Nat) : IO Nat := do
  return ((← IO.getEnv name).bind CommandLine.natural?).getD default

/-! ### A run -/

/-- Does on the real disk what a run did on its picture. -/
def carryOut (o : Outcome) : IO Unit := do
  for (names, text) in o.written do
    IO.FS.writeFile ⟨(Disk.pathOf names).text⟩ text
  IO.print o.printed
  if let some explorer := o.explorer then
    let size : ScreenSize :=
      { columns := ← numberIn "COLUMNS" 80, rows := (← numberIn "LINES" 24) - 1 }
    explore (explorer size) (Grid.blank size)
  if o.fault.isSome then
    IO.eprintln o.complaint

/-- Runs the command that the words spell; the answer is the exit code. -/
def run (words : List String) : IO Nat := do
  match CommandLine.Invocation.parse (← IO.getEnv "DEP_TREE_CONFIG") words with
  | .error f =>
    if f.code = 0 then IO.println f.message else IO.eprintln f.message
    return f.code
  | .ok i =>
    let now ← Std.Time.Timestamp.now
    let o := i.run (← disk words) now.toSecondsSinceUnixEpoch.val.repr
    carryOut o
    return o.code

end Program

end ImportAtlas

def main (args : List String) : IO UInt32 := do
  return (← ImportAtlas.Program.run args).toUInt32
