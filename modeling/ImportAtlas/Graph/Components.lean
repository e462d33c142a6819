/-!
# Strongly connected components

The components of a relation on the numbers below `n`, found by one depth-first search. The calls
of the search are kept in a list, so that a long chain costs no depth of recursion.

A node gets a number when it is found and goes on a stack. Its low mark is a number of the stack
that it is known to reach. A node that is left with its own number as low mark closes a component:
the stack down to it.

* `Search`: a search in progress; `Search.step` is what it does next.
* `Search.run`: the search until no call is open.
* `components`: the components, each in the order in which its nodes leave the stack.
-/

namespace ImportAtlas

/-- A depth-first search in progress. -/
structure Search (n : Nat) where
  /-- The numbers of the nodes that have been found. -/
  index : Vector (Option Nat) n := .replicate n none
  low : Vector Nat n := .replicate n 0
  onStack : Vector Bool n := .replicate n false
  /-- The nodes that are in no component yet, the last one found first. -/
  stack : List (Fin n) := []
  /-- The open calls, the innermost first: a node, and its neighbours that are still to be looked
  at. -/
  calls : List (Fin n × List (Fin n)) := []
  next : Nat := 0
  found : List (List (Fin n)) := []

namespace Search

variable {n : Nat}

/-- Opens a call for a node that has not been found before. -/
def visit (adj : Fin n → List (Fin n)) (s : Search n) (v : Fin n) : Search n :=
  { s with
    index := s.index.set v (some s.next)
    low := s.low.set v s.next
    onStack := s.onStack.set v true
    stack := v :: s.stack
    calls := (v, adj v) :: s.calls
    next := s.next + 1 }

/-- Lowers the mark of a node to a number, if that is smaller. -/
def lower (s : Search n) (v : Fin n) (i : Nat) : Search n :=
  { s with low := s.low.set v (min (s.low.get v) i) }

/-- A stack cut behind a node. -/
def cutBehind (v : Fin n) : List (Fin n) → List (Fin n) × List (Fin n)
  | [] => ([], [])
  | w :: stack =>
    if w = v then ([w], stack)
    else
      let (taken, rest) := cutBehind v stack
      (w :: taken, rest)

def close (s : Search n) (v : Fin n) : Search n :=
  let (component, rest) := cutBehind v s.stack
  { s with
    stack := rest
    onStack := component.foldl (fun marks (w : Fin n) => marks.set w false) s.onStack
    found := s.found ++ [component] }

def look (adj : Fin n → List (Fin n)) (s : Search n) (v w : Fin n) : Search n :=
  match s.index.get w with
  | none => s.visit adj w
  | some i =>
    -- what is in a component already cannot lead back to the stack
    if s.onStack.get w then s.lower v i else s

/-- Lets the innermost open call know of a mark that its node reaches. -/
def report (s : Search n) (i : Nat) : Search n :=
  match s.calls with
  | [] => s
  | (caller, _) :: _ => s.lower caller i

/-- Goes on after the call of a node whose neighbours have all been looked at. -/
def leave (s : Search n) (v : Fin n) : Search n :=
  let s := s.report (s.low.get v)
  -- nothing below the node is reached from it
  if s.index.get v = some (s.low.get v) then s.close v else s

/-- What the search does next, in its innermost call. -/
def step (adj : Fin n → List (Fin n)) (s : Search n) : Search n :=
  match s.calls with
  | [] => s
  | (v, []) :: calls => { s with calls }.leave v
  | (v, w :: ws) :: calls => { s with calls := (v, ws) :: calls }.look adj v w

/-- How many nodes have not been found. -/
def unseen (s : Search n) : Nat :=
  s.index.countP (·.isNone)

/-- How many steps the open calls take, as long as they open no other. -/
def pending (s : Search n) : Nat :=
  (s.calls.flatMap (·.2)).length + s.calls.length

theorem unseen_visit_lt (adj : Fin n → List (Fin n)) (s : Search n) (v : Fin n)
    (hv : s.index.get v = none) : (s.visit adj v).unseen < s.unseen := by
  have hpos : 0 < s.index.countP (·.isNone) :=
    Vector.countP_pos_iff.mpr ⟨s.index.get v, s.index.getElem_mem v.isLt, by rw [hv]; rfl⟩
  have hnone : s.index[(v : Nat)].isNone = true := by
    rw [show s.index[(v : Nat)] = none from hv]; rfl
  simp only [unseen, visit, Vector.countP_set, hnone, Option.isNone_some]
  rw [if_pos trivial, if_neg Bool.false_ne_true]
  omega

theorem report_eq (s : Search n) (i : Nat) : ∃ low, s.report i = { s with low } := by
  unfold report
  split
  · exact ⟨s.low, rfl⟩
  · exact ⟨_, rfl⟩

theorem leave_keeps (s : Search n) (v : Fin n) :
    (s.leave v).index = s.index ∧ (s.leave v).calls = s.calls := by
  obtain ⟨low, h⟩ := s.report_eq (s.low.get v)
  unfold leave
  rw [h]
  dsimp only
  split <;> exact ⟨rfl, rfl⟩

/-- A step finds a node, or else it shortens the open calls. -/
theorem step_lt (adj : Fin n → List (Fin n)) (s : Search n) (h : s.calls ≠ []) :
    (s.step adj).unseen < s.unseen ∨
      (s.step adj).unseen = s.unseen ∧ (s.step adj).pending < s.pending := by
  unfold step
  match hc : s.calls with
  | [] => exact absurd hc h
  | (v, []) :: calls =>
    -- a call that is left finds nothing new and is one call less
    obtain ⟨hindex, hcalls⟩ := leave_keeps { s with calls } v
    right
    simp only [unseen, pending, hindex, hcalls, hc]
    simp
  | (v, w :: ws) :: calls =>
    -- looking at a neighbour takes it off the list of its call
    have hpending : pending { s with calls := (v, ws) :: calls } < s.pending := by
      simp [pending, hc]
    dsimp only [look]
    split
    · next hw => exact .inl (unseen_visit_lt adj _ w hw)
    · right
      split
      · exact ⟨rfl, hpending⟩
      · exact ⟨rfl, hpending⟩

/-- The search until no call is open. -/
def run (adj : Fin n → List (Fin n)) (s : Search n) : Search n :=
  if s.calls = [] then s else run adj (s.step adj)
termination_by (s.unseen, s.pending)
decreasing_by exact Prod.lex_def.mpr (step_lt adj s ‹_›)

/-- Starts a search at a node, unless it has been found. -/
def start (adj : Fin n → List (Fin n)) (s : Search n) (v : Fin n) : Search n :=
  if (s.index.get v).isSome then s else (s.visit adj v).run adj

end Search

/-- The strongly connected components of a relation, given by the neighbours of each node. -/
def components {n : Nat} (adj : Fin n → List (Fin n)) : List (List (Fin n)) :=
  ((List.finRange n).foldl (Search.start adj) {}).found

end ImportAtlas
