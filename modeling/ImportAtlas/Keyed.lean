import ImportAtlas.Path

/-!
# Values kept at paths

A table of values by path: in the order of the paths, each path once. A path that is written anew
keeps the text it was first written with.

* `Keyed.value?`, `Keyed.holds`: what is kept at a path.
* `Keyed.alter`: writes at a path what becomes of the value there.
* `Keyed.update`: changes the value at a path, if there is one.
-/

namespace ImportAtlas

/-- Values at paths, ascending. -/
abbrev Keyed (α : Type) := List (Path × α)

namespace Keyed

variable {α : Type}

def value? (m : Keyed α) (id : Path) : Option α :=
  (m.find? fun (k, _) => k.same id).map (·.2)

def holds (m : Keyed α) (id : Path) : Bool :=
  m.any fun (k, _) => k.same id

/-- The table with another value at a path: what `f` makes of the value there, if there is one. -/
def alter (id : Path) (f : Option α → α) : Keyed α → Keyed α
  | [] => [(id, f none)]
  | (k, a) :: m =>
    match id.order k with
    | .lt => (id, f none) :: (k, a) :: m
    | .eq => (k, f (some a)) :: m
    | .gt => (k, a) :: alter id f m

/-- The table with the value at a path changed. Nothing is added. -/
def update (id : Path) (f : α → α) (m : Keyed α) : Keyed α :=
  m.map fun (k, a) => if k.same id then (k, f a) else (k, a)

end Keyed

end ImportAtlas
