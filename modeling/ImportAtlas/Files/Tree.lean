import ImportAtlas.Text.Chars

/-!
# File trees

The files of a disk as a value: a directory holds named entries, each of them a file, a symbolic
link or a directory again.

* `FileTree.child?`, `FileTree.at?`: what stands under a name, and under names in turn.
* `FileTree.insert`: the tree with something put under names in turn.
* `FileTree.descendants`: all that stands below, with the names that lead there.
-/

namespace ImportAtlas

/-- What a name of a disk can stand for. -/
inductive FileTree where
  | file (bytes : ByteArray)
  /-- A file whose content may neither be read nor changed. -/
  | sealed
  | link (target : String)
  | directory (entries : List (String × FileTree))
deriving Inhabited

namespace FileTree

def empty : FileTree :=
  directory []

def isDirectory : FileTree → Bool
  | directory _ => true
  | _ => false

def isFile : FileTree → Bool
  | file _ | sealed => true
  | _ => false

def child? (name : String) : FileTree → Option FileTree
  | directory es => es.lookup name
  | _ => none

def at? : FileTree → List String → Option FileTree
  | t, [] => some t
  | t, n :: ns => (t.child? n).bind (·.at? ns)

/-- Entries with something under a name, in place of what stood there. -/
def setEntry (name : String) (t : FileTree) :
    List (String × FileTree) → List (String × FileTree)
  | [] => [(name, t)]
  | (n, u) :: es => if n = name then (n, t) :: es else (n, u) :: setEntry name t es

/-- The tree with something under names in turn; directories on the way are made. -/
def insert (new : FileTree) : List String → FileTree → FileTree
  | [], _ => new
  | n :: ns, t =>
    let es :=
      match t with
      | directory es => es
      | _ => []
    directory (setEntry n (insert new ns ((t.child? n).getD empty)) es)

mutual

/-- All that stands below, with the names that lead there. -/
def descendants : FileTree → List (List String × FileTree)
  | directory es => descendantsOf es
  | _ => []

/-- All that stands at or below some entries. -/
def descendantsOf : List (String × FileTree) → List (List String × FileTree)
  | [] => []
  | (n, t) :: es =>
    ([n], t) :: (descendants t).map (fun d => (n :: d.1, d.2)) ++ descendantsOf es

end

end FileTree

end ImportAtlas
