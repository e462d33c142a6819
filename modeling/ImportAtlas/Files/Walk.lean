import ImportAtlas.Files.Disk
import ImportAtlas.Files.Ignore

/-!
# Walks

All files and directories below a directory, without the hidden ones and those that ignore files
leave out. The rules of a directory hold for all that lies below it, and those of the nearest
directory come first; the directories above the one that a walk starts from have their say too.

* `IgnorePolicy`: which ignore files count.
* `Walk.Station`: the rules of a directory on the way.
* `Disk.walk`: the files and directories of a walk.
-/

namespace ImportAtlas

/-- Which ignore files count in a walk. -/
inductive IgnorePolicy where
  | none
  /-- `.ignore` and `.gitignore`. -/
  | everywhere
  /-- `.ignore`; and within a repository its exclude file and `.gitignore`, up to its root. -/
  | repository
deriving DecidableEq, Repr, Inhabited

namespace Walk

/-- The rules of a directory, by the file they stand in. -/
structure Rules where
  ignore : List IgnoreRule := []
  gitIgnore : List IgnoreRule := []
  gitExclude : List IgnoreRule := []
  isRepository : Bool := false

/-- The rules of one file, if there is such a file. -/
def Rules.ofFile (d : Disk) (file : Path) : List IgnoreRule :=
  match d.read file with
  | .ok bytes => IgnoreRule.ofBytes bytes
  | .error _ => []

/-- The first line of a file, if it has one that is text. -/
def firstLine? (d : Disk) (file : Path) : Option (List Char) :=
  match d.read file with
  | .ok bytes =>
    if bytes.isEmpty then none else (IgnoreRule.linesOf (IgnoreRule.cutBytes bytes.toList)).head?
  | .error _ => none

/-- The directory in which the repository of a directory keeps what all its working trees share. A
`.git` that is a file names the directory of one working tree, where the file `commondir` names
it. -/
def commonDirectory? (d : Disk) (dir : Path) : Option Path :=
  let git := dir.join ".git"
  if !d.isFile git then some git
  else do
    let line ← firstLine? d git
    let own := d.cwdPath.join (String.ofList (← Text.dropStart? "gitdir: ".toList line))
    let common ← firstLine? d (own.join "commondir")
    let base := if common.head? = some '.' then own else d.cwdPath
    return base.join (String.ofList common)

def Rules.ofDirectory (d : Disk) (policy : IgnorePolicy) (dir : Path) : Rules :=
  match policy with
  | .none => {}
  | .everywhere =>
    { ignore := ofFile d (dir.join ".ignore"), gitIgnore := ofFile d (dir.join ".gitignore") }
  | .repository =>
    { ignore := ofFile d (dir.join ".ignore")
      gitIgnore := ofFile d (dir.join ".gitignore")
      gitExclude :=
        ((commonDirectory? d dir).map fun common => ofFile d (common.join "info/exclude")).getD []
      isRepository := d.exists? (dir.join ".git") || d.exists? (dir.join ".jj") }

/-- A directory on the way: its rules, and the names that lead from there to where the walk is. -/
structure Station where
  rules : Rules
  way : List String

/-- The stations whose `.gitignore` counts: all of them, or those of the repository. -/
def gitStations (policy : IgnorePolicy) (stations : List Station) : List Station :=
  match policy with
  | .repository =>
    let (inside, above) := stations.span (!·.rules.isRepository)
    match above with
    | [] => []
    -- the root of the repository still counts, what lies above it does not
    | root :: _ => inside ++ [root]
  | _ => stations

/-- What the rules of one kind say of a name where the walk is; the nearest directory that says
something decides. -/
def verdictAmong? (kind : Rules → List IgnoreRule) (stations : List Station) (name : String)
    (isDirectory : Bool) : Option IgnoreVerdict :=
  stations.findSome? fun s => IgnoreRule.verdict? (kind s.rules) (s.way ++ [name]) isDirectory

/-- What ignore files say of a name where the walk is. -/
def verdict? (policy : IgnorePolicy) (stations : List Station) (name : String)
    (isDirectory : Bool) : Option IgnoreVerdict :=
  let git := gitStations policy stations
  (verdictAmong? (·.ignore) stations name isDirectory).or
    ((verdictAmong? (·.gitIgnore) git name isDirectory).or
      (verdictAmong? (·.gitExclude) git name isDirectory))

/-- Whether a walk passes a name by. A hidden name is passed by unless a rule keeps it. -/
def skips (policy : IgnorePolicy) (stations : List Station) (name : String)
    (isDirectory : Bool) : Bool :=
  match verdict? policy stations name isDirectory with
  | some .leaveOut => true
  | some .keep => false
  | none => name.toList.head? == some '.'

/-- What a walk finds: the path, and what stands there. -/
structure Found where
  path : Path
  node : FileTree
deriving Inhabited

mutual

/-- What a walk finds below a directory, down to `depth` levels. -/
def below (d : Disk) (policy : IgnorePolicy) (stations : List Station) (dir : Path) :
    (depth : Option Nat) → FileTree → List Found
  | some 0, _ => []
  | depth, .directory es =>
    let here : Station := { rules := Rules.ofDirectory d policy dir, way := [] }
    among d policy (here :: stations) dir (depth.map (· - 1)) es
  | _, _ => []

/-- What a walk finds at and below the entries of a directory. -/
def among (d : Disk) (policy : IgnorePolicy) (stations : List Station) (dir : Path)
    (depth : Option Nat) : List (String × FileTree) → List Found
  | [] => []
  | (name, t) :: es =>
    let rest := among d policy stations dir depth es
    -- nothing below a directory that is passed by is ever asked for
    if skips policy stations name t.isDirectory then rest
    else
      let way := stations.map fun s => { s with way := s.way ++ [name] }
      { path := dir.join name, node := t } :: below d policy way (dir.join name) depth t ++ rest

end

/-- The directories above one, nearest first, each with the names that lead down to it. -/
def stationsAbove (d : Disk) (policy : IgnorePolicy) (names : List String) : List Station :=
  (List.range names.length).reverse.map fun k =>
    { rules := Rules.ofDirectory d policy (Disk.pathOf (names.take k)), way := names.drop k }

end Walk

/-- What a walk from a directory finds, down to `depth` levels below it. The directory itself is
found first; it is never passed by, and where it is a symbolic link it is found as one. -/
def Disk.walk (d : Disk) (policy : IgnorePolicy) (depth : Option Nat) (dir : Path) :
    List Walk.Found :=
  match d.locate dir with
  | .error _ => []
  | .ok names =>
    match d.tree.at? names, d.entry? dir with
    | some t, some itself =>
      { path := dir, node := itself } ::
        Walk.below d policy (Walk.stationsAbove d policy names) dir depth t
    | _, _ => []

end ImportAtlas
