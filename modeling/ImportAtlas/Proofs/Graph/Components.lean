import ImportAtlas.Graph.Components
import Mathlib

/-!
# The search finds the strongly connected components

`components` gives every node in exactly one list, and two nodes in one list exactly if each reaches
the other (`components_spec`), whatever the relation.

The search is judged by one invariant, `Search.Inv`. It is stated relative to a relation `todo`: the
pairs of a node and a neighbour that are still to be looked at. In the midst of a step one pair is
neither looked at nor in an open call; stating the invariant for the larger relation lets the step
be cut there:

* `Stacked`, `Explored`, `Marked`, `Collected` — the parts of the invariant, which a step keeps one
  by one;
* `Inv.visit`, `Inv.lower`, `Inv.finish`, `Inv.close` — what each part of a step keeps;
* `Inv.settle` — pairs that have been looked at are no longer to be looked at;
* `Valid.step`, `Valid.run` — the step, and the run by the recursion of `Search.run`.

The nodes on the stack are those that are found but in no component yet. Their numbers fall from the
top of the stack to its bottom, and the nodes with an open call are among them. The two clauses that
carry the argument are about the low mark: a node without an open call has a mark below its own
number (`low_lt`), so from it one descends to a node with an open call; and the mark of an open call
bounds the marks of the nodes above it, up to the next open call (`low_le_low`). When a call ends
with its own number as mark, the first makes all nodes above reach it, and the second keeps them
from reaching anything below.
-/

namespace ImportAtlas

open Relation

variable {n : Nat}

/-- The relation that neighbours span: `v` is reached from `u`. -/
abbrev Reaches (adj : Fin n → List (Fin n)) : Fin n → Fin n → Prop :=
  ReflTransGen fun u v => v ∈ adj u

namespace Search

/-! ### The state read as a whole -/

/-- Whether a node has been found. -/
def Seen (s : Search n) (v : Fin n) : Prop :=
  s.index.get v ≠ none

/-- The number of a node that has been found. -/
def num (s : Search n) (v : Fin n) : Nat :=
  (s.index.get v).getD 0

/-- The nodes with an open call, the innermost first. -/
def callers (s : Search n) : List (Fin n) :=
  s.calls.map (·.1)

/-- An open call has a neighbour still to look at. -/
def Pending (s : Search n) (v w : Fin n) : Prop :=
  ∃ ws, (v, ws) ∈ s.calls ∧ w ∈ ws

/-- The search with the nodes `top` taken off the stack, as a component, and `calls` left open. -/
def closed (s : Search n) (calls : List (Fin n × List (Fin n))) (top rest : List (Fin n)) :
    Search n :=
  { s with
    calls
    stack := rest
    onStack := top.foldl (fun marks (w : Fin n) => marks.set w false w.isLt) s.onStack
    found := s.found ++ [top] }

/-- One place of a vector is set, and the others are as they were. -/
theorem get_set {α : Type} (xs : Vector α n) (v w : Fin n) (a : α) :
    (xs.set v a v.isLt).get w = if v = w then a else xs.get w := by
  simp only [Vector.get_eq_getElem, Vector.getElem_set, Fin.val_inj]

/-- A visit finds the node. -/
theorem seen_visit (adj : Fin n → List (Fin n)) (s : Search n) (v w : Fin n) :
    (s.visit adj v).Seen w ↔ w = v ∨ s.Seen w := by
  simp only [Seen, visit, get_set]
  split
  · next heq => simp [heq]
  · next hne => simp [Ne.symm hne]

/-- It gives the node the next number, and the others keep theirs. -/
theorem num_visit (adj : Fin n → List (Fin n)) (s : Search n) (v w : Fin n) :
    (s.visit adj v).num w = if v = w then s.next else s.num w := by
  simp only [num, visit, get_set]
  split <;> rfl

/-- The mark of the node begins as its number. -/
theorem low_visit (adj : Fin n → List (Fin n)) (s : Search n) (v w : Fin n) :
    (s.visit adj v).low.get w = if v = w then s.next else s.low.get w := by
  simp only [visit, get_set]

/-- The node comes on the stack. -/
theorem mem_stack_visit {adj : Fin n → List (Fin n)} {s : Search n} {v w : Fin n} :
    w ∈ (s.visit adj v).stack ↔ w = v ∨ w ∈ s.stack :=
  List.mem_cons

/-- Its call comes on the others. -/
theorem mem_callers_visit {adj : Fin n → List (Fin n)} {s : Search n} {v w : Fin n} :
    w ∈ (s.visit adj v).callers ↔ w = v ∨ w ∈ s.callers :=
  List.mem_cons

/-- The stack and the open calls: the nodes of the stack have numbers, which fall from its top to
its bottom, and the calls are of nodes of the stack, nested by their numbers. -/
structure Stacked (s : Search n) : Prop where
  seen_of_mem : ∀ v ∈ s.stack, s.Seen v
  num_lt_next : ∀ v ∈ s.stack, s.num v < s.next
  stack_desc : s.stack.Pairwise fun u v => s.num v < s.num u
  onStack_iff : ∀ v, s.onStack.get v = true ↔ v ∈ s.stack
  callers_mem : ∀ v ∈ s.callers, v ∈ s.stack
  callers_desc : s.callers.Pairwise fun u v => s.num v < s.num u

/-- The neighbours of what has been found. What has left the stack leads to nothing that has not. -/
structure Explored (adj : Fin n → List (Fin n)) (todo : Fin n → Fin n → Prop) (s : Search n) :
    Prop where
  seen_of_edge : ∀ v w, s.Seen v → w ∈ adj v → s.Seen w ∨ todo v w
  gone_of_edge : ∀ v w, s.Seen v → v ∉ s.stack → w ∈ adj v → s.Seen w ∧ w ∉ s.stack

/-- The low marks. Each is the number of a node of the stack that is reached, and the least number
among the neighbours that have been looked at bounds it. -/
structure Marked (adj : Fin n → List (Fin n)) (todo : Fin n → Fin n → Prop) (s : Search n) :
    Prop where
  low_le : ∀ v ∈ s.stack, s.low.get v ≤ s.num v
  low_reached : ∀ v ∈ s.stack, ∃ u ∈ s.stack, s.num u = s.low.get v ∧ Reaches adj v u
  low_le_of_edge : ∀ v ∈ s.stack, ∀ w ∈ adj v, w ∈ s.stack → todo v w ∨ s.low.get v ≤ s.num w
  low_lt : ∀ v ∈ s.stack, v ∉ s.callers → s.low.get v < s.num v
  low_le_low : ∀ v ∈ s.callers, ∀ x ∈ s.stack, x ∉ s.callers → s.num v < s.num x →
    s.low.get v ≤ s.low.get x ∨ ∃ f ∈ s.callers, s.num v < s.num f ∧ s.num f < s.num x
  /-- An open call reaches all of the stack above it. -/
  reaches_above : ∀ v ∈ s.callers, ∀ x ∈ s.stack, s.num v ≤ s.num x → Reaches adj v x

/-- The components so far: they hold what has left the stack, each node once. -/
structure Collected (adj : Fin n → List (Fin n)) (s : Search n) : Prop where
  mem_found : ∀ v, v ∈ s.found.flatten ↔ s.Seen v ∧ v ∉ s.stack
  found_ne_nil : ∀ c ∈ s.found, c ≠ []
  found_iff : ∀ c ∈ s.found, ∀ u ∈ c, ∀ v, v ∈ c ↔ Reaches adj u v ∧ Reaches adj v u
  found_nodup : s.found.flatten.Nodup

/-- The invariant of the search, with the pairs `todo` still to be looked at. -/
structure Inv (adj : Fin n → List (Fin n)) (todo : Fin n → Fin n → Prop) (s : Search n) : Prop
    extends Stacked s, Explored adj todo s, Marked adj todo s, Collected adj s

namespace Inv

variable {adj : Fin n → List (Fin n)} {todo todo' : Fin n → Fin n → Prop} {s : Search n}
  {v w x : Fin n}

/-- The invariant holds before anything has been found. -/
theorem empty : Inv adj todo {} where
  seen_of_mem := by simp
  num_lt_next := by simp
  stack_desc := .nil
  onStack_iff := by simp
  callers_mem := by simp [callers]
  callers_desc := .nil
  seen_of_edge := by simp [Seen]
  gone_of_edge := by simp [Seen]
  low_le := by simp
  low_reached := by simp
  low_le_of_edge := by simp
  low_lt := by simp
  low_le_low := by simp [callers]
  reaches_above := by simp [callers]
  mem_found := by simp [Seen]
  found_ne_nil := by simp
  found_iff := by simp
  found_nodup := .nil

/-- Pairs may be left out of those still to be looked at when they are settled: the neighbour is
found, and its number, if it is on the stack, bounds the mark. -/
theorem settle (h : Inv adj todo s)
    (hsettled : ∀ a b, todo a b → todo' a b ∨
      s.Seen b ∧ (a ∈ s.stack → b ∈ s.stack → s.low.get a ≤ s.num b)) : Inv adj todo' s :=
  { h with
    seen_of_edge := by
      intro a b ha hb
      -- an edge that was still to do is done by now, or it is to do still
      rcases h.seen_of_edge a b ha hb with hseen | htodo
      · exact .inl hseen
      · exact (hsettled a b htodo).symm.imp_left And.left
    low_le_of_edge := by
      intro a ha b hb hbs
      rcases h.low_le_of_edge a ha b hb hbs with htodo | hle
      · exact (hsettled a b htodo).imp_right fun hb => hb.2 ha hbs
      · exact .inr hle }

/-- Open calls matter by their nodes only. -/
theorem calls_congr (h : Inv adj todo s) {calls : List (Fin n × List (Fin n))}
    (hcalls : calls.map (·.1) = s.callers) : Inv adj todo { s with calls } := by
  have hcallers : callers { s with calls } = s.callers := hcalls
  exact { h with
    callers_mem := by rw [hcallers]; exact h.callers_mem
    callers_desc := by rw [hcallers]; exact h.callers_desc
    low_lt := by rw [hcallers]; exact h.low_lt
    low_le_low := by rw [hcallers]; exact h.low_le_low
    reaches_above := by rw [hcallers]; exact h.reaches_above }

theorem num_nodup (h : Inv adj todo s) : (s.stack.map s.num).Nodup :=
  List.pairwise_map.mpr (h.stack_desc.imp Nat.ne_of_gt)

theorem stack_nodup (h : Inv adj todo s) : s.stack.Nodup :=
  h.num_nodup.of_map

/-- A node is on the stack by its number. -/
theorem eq_of_num_eq (h : Inv adj todo s) (hv : v ∈ s.stack) (hw : w ∈ s.stack)
    (hnum : s.num v = s.num w) : v = w :=
  List.inj_on_of_nodup_map h.num_nodup hv hw hnum

/-! ### Opening a call -/

section Visit

variable (h : Inv adj todo s) (hw : s.index.get w = none)

include h hw

/-! A node that is found for the first time comes on top of the stack and of the calls. What holds
of the nodes below it is what held of them before, since their numbers and marks stay. -/

theorem not_mem_stack : w ∉ s.stack := fun hmem => h.seen_of_mem w hmem hw

/-- The nodes of the stack keep their numbers. -/
theorem num_visit_of_mem (hv : v ∈ s.stack) : (s.visit adj w).num v = s.num v := by
  rw [num_visit, if_neg]
  rintro rfl
  exact h.not_mem_stack hw hv

/-- They keep their marks. -/
theorem low_visit_of_mem (hv : v ∈ s.stack) : (s.visit adj w).low.get v = s.low.get v := by
  rw [low_visit, if_neg]
  rintro rfl
  exact h.not_mem_stack hw hv

/-- The number of the new node is above all others. -/
theorem num_visit_lt (hv : v ∈ s.stack) : (s.visit adj w).num v < (s.visit adj w).num w := by
  rw [h.num_visit_of_mem hw hv, num_visit, if_pos rfl]
  exact h.num_lt_next v hv

/-- The stack and the calls have the new node on top, with the largest number of all. -/
theorem stacked_visit : Stacked (s.visit adj w) where
  seen_of_mem := fun v hv =>
    (seen_visit adj s w v).mpr ((mem_stack_visit.mp hv).imp_right (h.seen_of_mem v))
  num_lt_next := by
    intro v hv
    -- the new node has the number that was the next one
    change _ < s.next + 1
    rcases mem_stack_visit.mp hv with rfl | hv
    · rw [num_visit, if_pos rfl]
      exact Nat.lt_succ_self _
    · rw [h.num_visit_of_mem hw hv]
      exact Nat.lt_succ_of_lt (h.num_lt_next v hv)
  stack_desc := by
    refine List.pairwise_cons.mpr ⟨fun v hv => h.num_visit_lt hw hv, ?_⟩
    refine h.stack_desc.imp_of_mem fun ha hb hab => ?_
    rwa [h.num_visit_of_mem hw ha, h.num_visit_of_mem hw hb]
  onStack_iff := by
    intro v
    rw [mem_stack_visit, ← h.onStack_iff]
    simp only [Search.visit, get_set]
    by_cases hv : w = v
    · simp [hv]
    · simp [hv, Ne.symm hv]
  callers_mem := fun v hv =>
    mem_stack_visit.mpr ((mem_callers_visit.mp hv).imp_right (h.callers_mem v))
  callers_desc := by
    refine List.pairwise_cons.mpr ⟨fun v hv => h.num_visit_lt hw (h.callers_mem v hv), ?_⟩
    refine h.callers_desc.imp_of_mem fun ha hb hab => ?_
    rwa [h.num_visit_of_mem hw (h.callers_mem _ ha), h.num_visit_of_mem hw (h.callers_mem _ hb)]

/-- The neighbours of the new node are to be looked at. For the other nodes nothing changes, since
the new one is on the stack. -/
theorem explored_visit :
    Explored adj (fun a b => todo a b ∨ (a = w ∧ b ∈ adj w)) (s.visit adj w) where
  seen_of_edge := by
    intro v b hv hb
    rcases (seen_visit adj s w v).mp hv with rfl | hv
    · -- the neighbours of the new node are all still to be looked at
      exact .inr (.inr ⟨rfl, hb⟩)
    · exact (h.seen_of_edge v b hv hb).imp (fun hs => (seen_visit adj s w b).mpr (.inr hs)) .inl
  gone_of_edge := by
    -- what has left the stack leads to what is found, so not to the new node
    intro v b hv hvs hb
    rw [mem_stack_visit, not_or] at hvs
    obtain ⟨hvw, hvs⟩ := hvs
    obtain ⟨hbs, hbst⟩ :=
      h.gone_of_edge v b (((seen_visit adj s w v).mp hv).resolve_left hvw) hvs hb
    refine ⟨(seen_visit adj s w b).mpr (.inr hbs), ?_⟩
    rw [mem_stack_visit, not_or]
    refine ⟨?_, hbst⟩
    rintro rfl
    exact hbs hw

/-- The new node is above all open calls, so that none of them has to bound another mark. -/
theorem low_le_low_visit {f : Fin n} (hf : f ∈ (s.visit adj w).callers)
    (hx : x ∈ (s.visit adj w).stack) (hxc : x ∉ (s.visit adj w).callers)
    (hlt : (s.visit adj w).num f < (s.visit adj w).num x) :
    (s.visit adj w).low.get f ≤ (s.visit adj w).low.get x ∨ ∃ b ∈ (s.visit adj w).callers,
      (s.visit adj w).num f < (s.visit adj w).num b ∧
        (s.visit adj w).num b < (s.visit adj w).num x := by
  rw [mem_callers_visit, not_or] at hxc
  obtain ⟨hxw, hxc⟩ := hxc
  replace hx := (mem_stack_visit.mp hx).resolve_left hxw
  have hnum : ∀ b ∈ s.callers, (s.visit adj w).num b = s.num b := fun b hb =>
    h.num_visit_of_mem hw (h.callers_mem b hb)
  rcases mem_callers_visit.mp hf with rfl | hf
  · -- nothing is above the new node
    exact absurd hlt (Nat.lt_asymm (h.num_visit_lt hw hx))
  · rw [hnum f hf, h.num_visit_of_mem hw hx] at hlt
    rw [h.low_visit_of_mem hw (h.callers_mem f hf), h.low_visit_of_mem hw hx, hnum f hf,
      h.num_visit_of_mem hw hx]
    -- an open call that lay between the two still does
    refine (h.low_le_low f hf x hx hxc hlt).imp_right ?_
    rintro ⟨b, hb, hfb, hbx⟩
    exact ⟨b, mem_callers_visit.mpr (.inr hb), by rwa [hnum b hb], by rwa [hnum b hb]⟩

/-- All open calls reach the new node, and it is above all of the stack. -/
theorem reaches_above_visit (hreach : ∀ f ∈ s.callers, Reaches adj f w) {f : Fin n}
    (hf : f ∈ (s.visit adj w).callers) (hx : x ∈ (s.visit adj w).stack)
    (hle : (s.visit adj w).num f ≤ (s.visit adj w).num x) : Reaches adj f x := by
  -- the caller is the node that was found, or an older one, from which the new node is reached
  rcases mem_callers_visit.mp hf with heq | hf
  · subst heq
    rcases mem_stack_visit.mp hx with heq | hx
    · exact heq ▸ .refl
    · exact absurd (h.num_visit_lt hw hx) (Nat.not_lt_of_le hle)
  · rcases mem_stack_visit.mp hx with heq | hx
    · exact heq ▸ hreach f hf
    · rw [h.num_visit_of_mem hw (h.callers_mem f hf), h.num_visit_of_mem hw hx] at hle
      exact h.reaches_above f hf x hx hle

/-- The new node is marked with its own number, the others as before. A mark is at most the number
of its node, so the new number bounds all of them. -/
theorem marked_visit (hreach : ∀ f ∈ s.callers, Reaches adj f w) :
    Marked adj (fun a b => todo a b ∨ (a = w ∧ b ∈ adj w)) (s.visit adj w) where
  low_le := by
    intro v hv
    rcases mem_stack_visit.mp hv with rfl | hv
    · rw [low_visit, num_visit, if_pos rfl, if_pos rfl]
    · rw [h.low_visit_of_mem hw hv, h.num_visit_of_mem hw hv]
      exact h.low_le v hv
  low_reached := by
    intro v hv
    rcases mem_stack_visit.mp hv with rfl | hv
    · exact ⟨v, hv, by rw [low_visit, num_visit, if_pos rfl, if_pos rfl], .refl⟩
    · obtain ⟨u, hu, hul, hvu⟩ := h.low_reached v hv
      refine ⟨u, mem_stack_visit.mpr (.inr hu), ?_, hvu⟩
      rw [h.num_visit_of_mem hw hu, h.low_visit_of_mem hw hv, hul]
  low_le_of_edge := by
    intro v hv b hb hbs
    rcases mem_stack_visit.mp hv with rfl | hv
    · exact .inl (.inr ⟨rfl, hb⟩)
    · rw [h.low_visit_of_mem hw hv]
      rcases mem_stack_visit.mp hbs with heq | hbs
      · -- the new number is larger than all marks
        have hlt := h.num_visit_lt hw hv
        rw [h.num_visit_of_mem hw hv] at hlt
        rw [heq]
        exact .inr (Nat.le_trans (h.low_le v hv) (Nat.le_of_lt hlt))
      · rw [h.num_visit_of_mem hw hbs]
        exact (h.low_le_of_edge v hv b hb hbs).imp_left .inl
  low_lt := by
    intro v hv hvc
    rw [mem_callers_visit, not_or] at hvc
    replace hv := (mem_stack_visit.mp hv).resolve_left hvc.1
    rw [h.low_visit_of_mem hw hv, h.num_visit_of_mem hw hv]
    exact h.low_lt v hv hvc.2
  low_le_low := fun _ hf _ hx hxc hlt => h.low_le_low_visit hw hf hx hxc hlt
  reaches_above := fun _ hf _ hx hle => h.reaches_above_visit hw hreach hf hx hle

/-- The new node is found and on the stack, so in no component. -/
theorem collected_visit : Collected adj (s.visit adj w) where
  mem_found := by
    intro v
    change v ∈ s.found.flatten ↔ _
    rw [h.mem_found, seen_visit, mem_stack_visit]
    constructor
    · -- what is in a component is found, so it is not the new node
      rintro ⟨hv, hvs⟩
      refine ⟨.inr hv, ?_⟩
      rintro (rfl | hvs')
      · exact hv hw
      · exact hvs hvs'
    · rintro ⟨hv, hvs⟩
      exact ⟨hv.resolve_left fun heq => hvs (.inl heq), fun hvs' => hvs (.inr hvs')⟩
  found_ne_nil := h.found_ne_nil
  found_iff := h.found_iff
  found_nodup := h.found_nodup

/-- A node is found for the first time, with all its neighbours still to be looked at. -/
theorem visit (hreach : ∀ f ∈ s.callers, Reaches adj f w) :
    Inv adj (fun a b => todo a b ∨ (a = w ∧ b ∈ adj w)) (s.visit adj w) where
  toStacked := h.stacked_visit hw
  toExplored := h.explored_visit hw
  toMarked := h.marked_visit hw hreach
  toCollected := h.collected_visit hw

end Visit

/-! ### Lowering a mark -/

/-- The mark of an open call may be lowered to the number of any node of the stack that is
reached. -/
theorem lower (h : Inv adj todo s) (hv : v ∈ s.callers) {u : Fin n} (hu : u ∈ s.stack)
    (hreach : Reaches adj v u) : Inv adj todo (s.lower v (s.num u)) := by
  have hlow : ∀ x : Fin n, (s.lower v (s.num u)).low.get x =
      if v = x then min (s.low.get v) (s.num u) else s.low.get x := by
    intro x
    simp only [Search.lower, get_set]
  have hlow_le : ∀ x : Fin n, (s.lower v (s.num u)).low.get x ≤ s.low.get x := by
    intro x
    rw [hlow]
    split
    · next heq => exact heq ▸ Nat.min_le_left _ _
    · exact Nat.le_refl _
  -- only nodes with an open call have another mark
  have hlow_old : ∀ x, x ∉ s.callers → (s.lower v (s.num u)).low.get x = s.low.get x := by
    intro x hx
    rw [hlow, if_neg]
    rintro rfl
    exact hx hv
  exact { h with
    low_le := fun x hx => Nat.le_trans (hlow_le x) (h.low_le x hx)
    low_reached := by
      intro x hx
      rw [hlow]
      split
      · next heq =>
        subst heq
        rcases Nat.le_total (s.low.get v) (s.num u) with hle | hle
        · rw [Nat.min_eq_left hle]
          exact h.low_reached v hx
        · rw [Nat.min_eq_right hle]
          exact ⟨u, hu, rfl, hreach⟩
      · exact h.low_reached x hx
    low_le_of_edge := fun x hx b hb hbs =>
      (h.low_le_of_edge x hx b hb hbs).imp_right (Nat.le_trans (hlow_le x))
    low_lt := by
      intro x hx hxc
      rw [hlow_old x hxc]
      exact h.low_lt x hx hxc
    low_le_low := by
      intro f hf x hx hxc hlt
      rw [hlow_old x hxc]
      exact (h.low_le_low f hf x hx hxc hlt).imp_left (Nat.le_trans (hlow_le f)) }

/-! ### Ending a call -/

section Innermost

variable {calls : List (Fin n × List (Fin n))} {ws : List (Fin n)}

/-- Of the open calls the innermost has the largest number. -/
theorem num_lt_of_callers (h : Inv adj todo s) (hcalls : s.callers = v :: calls.map (·.1))
    {f : Fin n} (hf : f ∈ calls.map (·.1)) : s.num f < s.num v := by
  have hdesc := h.callers_desc
  rw [hcalls] at hdesc
  exact (List.pairwise_cons.mp hdesc).1 f hf

/-- The innermost call has the largest number, the call itself included. -/
theorem num_le_of_callers (h : Inv adj todo s) (hcalls : s.callers = v :: calls.map (·.1))
    {f : Fin n} (hf : f ∈ s.callers) : s.num f ≤ s.num v := by
  rw [hcalls, List.mem_cons] at hf
  rcases hf with rfl | hf
  · exact Nat.le_refl _
  · exact Nat.le_of_lt (h.num_lt_of_callers hcalls hf)

/-- An open call other than the innermost is one of the others. -/
theorem mem_of_callers (hcalls : s.callers = v :: calls.map (·.1)) {b : Fin n} (hb : b ∈ s.callers)
    (hbv : b ≠ v) : b ∈ calls.map (·.1) := by
  rw [hcalls] at hb
  exact (List.mem_cons.mp hb).resolve_left hbv

/-- The mark of the innermost call bounds those of the nodes above it. -/
theorem low_le_low_innermost (h : Inv adj todo s) (hcalls : s.callers = v :: calls.map (·.1))
    (hx : x ∈ s.stack) (hxc : x ∉ s.callers) (hvx : s.num v < s.num x) :
    s.low.get v ≤ s.low.get x := by
  have hv : v ∈ s.callers := by rw [hcalls]; exact List.mem_cons_self
  rcases h.low_le_low v hv x hx hxc hvx with hle | ⟨b, hb, hvb, -⟩
  · exact hle
  · exact absurd hvb (Nat.not_lt_of_le (h.num_le_of_callers hcalls hb))

/-- The call around the innermost one, which has been told of its mark, bounds the marks above. -/
private theorem low_le_low_around (h : Inv adj todo s) {p : Fin n} {rest : List (Fin n)}
    (hcalls : s.callers = v :: calls.map (·.1)) (hrest : calls.map (·.1) = p :: rest)
    (htold : s.low.get p ≤ s.low.get v) (hx : x ∈ s.stack) (hxc : x ∉ calls.map (·.1))
    (hpx : s.num p < s.num x) : s.low.get p ≤ s.low.get x := by
  have hdesc := h.callers_desc
  rw [hcalls, hrest] at hdesc
  by_cases hxv : x = v
  · rwa [hxv]
  · have hxc' : x ∉ s.callers := fun hc => hxc (mem_of_callers hcalls hc hxv)
    have hp : p ∈ s.callers := by simp [hcalls, hrest]
    rcases h.low_le_low p hp x hx hxc' hpx with hle | ⟨b, hb, hpb, hbx⟩
    · exact hle
    · -- the call between the two can only be the one that ends; its mark is as low
      have hbv : b = v := by
        by_contra hbv
        have hb' := mem_of_callers hcalls hb hbv
        rw [hrest, List.mem_cons] at hb'
        rcases hb' with rfl | hb'
        · exact Nat.lt_irrefl _ hpb
        · exact Nat.lt_asymm hpb ((List.pairwise_cons.mp (List.pairwise_cons.mp hdesc).2).1 b hb')
      rw [hbv] at hbx
      exact Nat.le_trans htold (h.low_le_low_innermost hcalls hx hxc' hbx)

/-- For a node below the call around the innermost one nothing changes when that ends. -/
private theorem low_le_low_below (h : Inv adj todo s) {p f : Fin n}
    (hcalls : s.callers = v :: calls.map (·.1)) (hp : p ∈ calls.map (·.1))
    (hf : f ∈ calls.map (·.1)) (hx : x ∈ s.stack) (hxc : x ∉ calls.map (·.1))
    (hfx : s.num f < s.num x) (hxp : s.num x < s.num p) :
    s.low.get f ≤ s.low.get x ∨ ∃ b ∈ calls.map (·.1), s.num f < s.num b ∧ s.num b < s.num x := by
  have hpv : s.num p < s.num v := h.num_lt_of_callers hcalls hp
  have hf' : f ∈ s.callers := by rw [hcalls]; exact List.mem_cons_of_mem _ hf
  -- the call that ends is above `p`, so it is not `x`
  have hxc' : x ∉ s.callers := by
    intro hc
    refine hxc (mem_of_callers hcalls hc ?_)
    -- nor does it lie below `x`
    rintro rfl
    exact Nat.lt_asymm hxp hpv
  refine (h.low_le_low f hf' x hx hxc' hfx).imp_right ?_
  rintro ⟨b, hb, hfb, hbx⟩
  refine ⟨b, mem_of_callers hcalls hb ?_, hfb, hbx⟩
  rintro rfl
  exact Nat.lt_asymm (Nat.lt_trans hbx hxp) hpv

/-- When the innermost call ends, the mark of the call around it bounds the marks above that. -/
private theorem low_le_low_finish (h : Inv adj todo s)
    (hcalls : s.callers = v :: calls.map (·.1))
    (htold : ∀ p ∈ (calls.map (·.1)).head?, s.low.get p ≤ s.low.get v)
    {f : Fin n} (hf : f ∈ calls.map (·.1)) (hx : x ∈ s.stack) (hxc : x ∉ calls.map (·.1))
    (hfx : s.num f < s.num x) :
    s.low.get f ≤ s.low.get x ∨ ∃ b ∈ calls.map (·.1), s.num f < s.num b ∧ s.num b < s.num x := by
  match hrest : calls.map (·.1) with
  | [] => simp [hrest] at hf
  | p :: rest =>
    have hp : p ∈ calls.map (·.1) := by rw [hrest]; exact List.mem_cons_self
    have hps : p ∈ s.stack := h.callers_mem p (by rw [hcalls]; exact List.mem_cons_of_mem _ hp)
    by_cases hfp : f = p
    · subst hfp
      exact .inl (h.low_le_low_around hcalls hrest (htold f (by rw [hrest]; rfl)) hx hxc hfx)
    · -- a call further out: the one around `v` lies between, or it lies above and nothing changes
      rcases Nat.lt_trichotomy (s.num p) (s.num x) with hpx | hpx | hxp
      · have hdesc := h.callers_desc
        rw [hcalls, hrest] at hdesc
        rw [hrest, List.mem_cons] at hf
        have hfp' : s.num f < s.num p :=
          (List.pairwise_cons.mp (List.pairwise_cons.mp hdesc).2).1 f (hf.resolve_left hfp)
        exact .inr ⟨p, hp, hfp', hpx⟩
      · exact absurd (h.eq_of_num_eq hps hx hpx ▸ hp) hxc
      · exact h.low_le_low_below hcalls hp hf hx hxc hfx hxp

/-- The call of a node whose mark is below its number ends: the node stays on the stack. The call
around it has been told of the mark. -/
theorem finish (h : Inv adj todo s) (hcalls : s.callers = v :: calls.map (·.1))
    (hlt : s.low.get v < s.num v)
    (htold : ∀ p ∈ (calls.map (·.1)).head?, s.low.get p ≤ s.low.get v) :
    Inv adj todo { s with calls } := by
  have hsub : ∀ f ∈ calls.map (·.1), f ∈ s.callers := fun f hf => by
    rw [hcalls]
    exact List.mem_cons_of_mem _ hf
  exact { h with
    callers_mem := fun f hf => h.callers_mem f (hsub f hf)
    callers_desc := by
      have hdesc := h.callers_desc
      rw [hcalls] at hdesc
      exact (List.pairwise_cons.mp hdesc).2
    -- the node whose call ends has a mark below its number now
    low_lt := by
      intro x hx hxc
      by_cases hxv : x = v
      · rwa [hxv]
      · refine h.low_lt x hx ?_
        rw [hcalls, List.mem_cons, not_or]
        exact ⟨hxv, hxc⟩
    low_le_low := fun f hf x hx hxc hfx => h.low_le_low_finish hcalls htold hf hx hxc hfx
    reaches_above := fun f hf => h.reaches_above f (hsub f hf) }

end Innermost

/-! ### Closing a component -/

/-- What has left the stack leads nowhere but to what has left it. -/
theorem gone_of_reaches (h : Inv adj todo s) {u : Fin n} (hv : s.Seen v) (hvs : v ∉ s.stack)
    (hreach : Reaches adj v u) : s.Seen u ∧ u ∉ s.stack := by
  induction hreach with
  | refl => exact ⟨hv, hvs⟩
  | tail _ hedge ih => exact h.gone_of_edge _ _ ih.1 ih.2 hedge

end Inv

/-- The stack is cut behind the node, which stands on it once. -/
theorem cutBehind_append (v : Fin n) (above rest : List (Fin n)) (h : v ∉ above) :
    cutBehind v (above ++ v :: rest) = (above ++ [v], rest) := by
  induction above with
  | nil => simp [cutBehind]
  | cons w above ih =>
    obtain ⟨hw, hmem⟩ := List.ne_and_not_mem_of_not_mem_cons h
    rw [List.cons_append, cutBehind, if_neg (Ne.symm hw), ih hmem]
    rfl

/-- The stack in two parts: the nodes from the number of `v` on, and those below it. -/
structure IsCut (s : Search n) (v : Fin n) (top rest : List (Fin n)) : Prop where
  stack_eq : s.stack = top ++ rest
  mem_top : ∀ x, x ∈ top ↔ x ∈ s.stack ∧ s.num v ≤ s.num x
  mem_rest : ∀ x, x ∈ rest ↔ x ∈ s.stack ∧ s.num x < s.num v

/-- What is below stays on the stack. -/
theorem IsCut.mem_stack {s : Search n} {v x : Fin n} {top rest : List (Fin n)}
    (h : IsCut s v top rest) (hx : x ∈ rest) : x ∈ s.stack :=
  ((h.mem_rest x).mp hx).1

/-- Cutting the stack behind one of its nodes parts it by the number of that node. -/
theorem Inv.exists_cut {adj : Fin n → List (Fin n)} {todo : Fin n → Fin n → Prop} {s : Search n}
    {v : Fin n} (h : Inv adj todo s) (hv : v ∈ s.stack) :
    ∃ top rest, cutBehind v s.stack = (top, rest) ∧ IsCut s v top rest := by
  obtain ⟨above, rest, hstack⟩ := List.append_of_mem hv
  have hdesc := h.stack_desc
  rw [hstack] at hdesc
  obtain ⟨-, hrest, habove⟩ := List.pairwise_append.mp hdesc
  -- the numbers fall from the top to the bottom, so the node parts the larger from the smaller ones
  have hlt_above : ∀ x ∈ above, s.num v < s.num x := fun x hx => habove x hx v List.mem_cons_self
  have hlt_rest : ∀ x ∈ rest, s.num x < s.num v := (List.pairwise_cons.mp hrest).1
  have hle_top : ∀ x ∈ above ++ [v], s.num v ≤ s.num x := by
    intro x hx
    rcases List.mem_append.mp hx with hx | hx
    · exact Nat.le_of_lt (hlt_above x hx)
    · exact Nat.le_of_eq (congrArg s.num (List.mem_singleton.mp hx).symm)
  have hsplit : s.stack = (above ++ [v]) ++ rest := by rw [hstack, List.append_cons]
  have hmem : ∀ x, x ∈ s.stack ↔ x ∈ above ++ [v] ∨ x ∈ rest := fun x => by
    rw [hsplit, List.mem_append]
  refine ⟨above ++ [v], rest, ?_, hsplit, fun x => ?_, fun x => ?_⟩
  · rw [hstack]
    exact cutBehind_append v above rest fun hmem => Nat.lt_irrefl _ (hlt_above v hmem)
  · rw [hmem]
    refine ⟨fun hx => ⟨.inl hx, hle_top x hx⟩, fun hx => hx.1.resolve_right fun hr => ?_⟩
    exact Nat.not_lt_of_le hx.2 (hlt_rest x hr)
  · rw [hmem]
    refine ⟨fun hx => ⟨.inr hx, hlt_rest x hx⟩, fun hx => hx.1.resolve_left fun ht => ?_⟩
    exact Nat.not_lt_of_le (hle_top x ht) hx.2

/-- Taking some nodes off a table of marks leaves the marks of the others. -/
theorem get_foldl_set (ws : List (Fin n)) (marks : Vector Bool n) (v : Fin n) :
    (ws.foldl (fun marks (w : Fin n) => marks.set w false w.isLt) marks).get v =
      (marks.get v && decide (v ∉ ws)) := by
  induction ws generalizing marks with
  | nil => simp
  | cons w ws ih =>
    rw [List.foldl_cons, ih, get_set]
    by_cases hw : w = v
    · simp [hw]
    · simp [hw, Ne.symm hw]

namespace Inv

variable {adj : Fin n → List (Fin n)} {todo : Fin n → Fin n → Prop} {s : Search n}
  {v w x : Fin n}

section Top

variable {calls : List (Fin n × List (Fin n))}

/-- From the number of an innermost call whose mark is its number on, no mark is below it. -/
private theorem le_low_of_top (h : Inv adj todo s) (hcalls : s.callers = v :: calls.map (·.1))
    (hlow : s.low.get v = s.num v) (hx : x ∈ s.stack) (hle : s.num v ≤ s.num x) :
    s.num v ≤ s.low.get x := by
  have hv : v ∈ s.callers := by rw [hcalls]; exact List.mem_cons_self
  rcases Nat.eq_or_lt_of_le hle with heq | hlt
  · have hvx := h.eq_of_num_eq (h.callers_mem v hv) hx heq
    subst hvx
    exact Nat.le_of_eq hlow.symm
  · have hxc : x ∉ s.callers := fun hc =>
      Nat.not_lt_of_le (h.num_le_of_callers hcalls hc) hlt
    exact hlow ▸ h.low_le_low_innermost hcalls hx hxc hlt

/-- All of the stack from there on reaches the node of the call. -/
private theorem reaches_of_top (h : Inv adj todo s) (hcalls : s.callers = v :: calls.map (·.1))
    (hlow : s.low.get v = s.num v) (hx : x ∈ s.stack) (hle : s.num v ≤ s.num x) :
    Reaches adj x v := by
  have hv : v ∈ s.callers := by rw [hcalls]; exact List.mem_cons_self
  -- the induction is on the number of the node: its mark is that of a lower one
  induction hk : s.num x using Nat.strongRecOn generalizing x with
  | ind k ih =>
    subst hk
    rcases Nat.eq_or_lt_of_le hle with heq | hlt
    · rw [h.eq_of_num_eq (h.callers_mem v hv) hx heq]
    · have hxc : x ∉ s.callers := fun hc =>
        Nat.not_lt_of_le (h.num_le_of_callers hcalls hc) hlt
      obtain ⟨u, hu, hul, hxu⟩ := h.low_reached x hx
      have hvu : s.num v ≤ s.num u := hul ▸ h.le_low_of_top hcalls hlow hx hle
      have hux : s.num u < s.num x := hul ▸ h.low_lt x hx hxc
      exact hxu.trans (ih _ hux hu hvu rfl)

/-- From there on the stack leads to itself and to what has left it. -/
private theorem top_of_edge (h : Inv adj todo s) (hcalls : s.callers = v :: calls.map (·.1))
    (htodo : ∀ a b, todo a b → a ∈ calls.map (·.1)) (hlow : s.low.get v = s.num v)
    (hx : x ∈ s.stack) (hle : s.num v ≤ s.num x) (hw : w ∈ adj x) :
    s.Seen w ∧ (w ∈ s.stack → s.num v ≤ s.num w) := by
  have hnot : ¬ todo x w := fun ht =>
    Nat.not_lt_of_le hle (h.num_lt_of_callers hcalls (htodo x w ht))
  refine ⟨(h.seen_of_edge x w (h.seen_of_mem x hx) hw).resolve_right hnot, fun hws => ?_⟩
  exact Nat.le_trans (h.le_low_of_top hcalls hlow hx hle)
    ((h.low_le_of_edge x hx w hw hws).resolve_left hnot)

/-- Along any way: as long as it is on the stack it stays in the upper part, and once it has left
the stack it does not come back. -/
private theorem top_of_reaches (h : Inv adj todo s) (hcalls : s.callers = v :: calls.map (·.1))
    (htodo : ∀ a b, todo a b → a ∈ calls.map (·.1)) (hlow : s.low.get v = s.num v)
    (hx : x ∈ s.stack) (hle : s.num v ≤ s.num x) (hreach : Reaches adj x w) :
    s.Seen w ∧ (w ∈ s.stack → s.num v ≤ s.num w) := by
  induction hreach with
  | refl => exact ⟨h.seen_of_mem x hx, fun _ => hle⟩
  | @tail b c _ hedge ih =>
    by_cases hb : b ∈ s.stack
    · exact h.top_of_edge hcalls htodo hlow hb (ih.2 hb) hedge
    · obtain ⟨hc, hcs⟩ := h.gone_of_edge b c ih.1 hb hedge
      exact ⟨hc, fun hcs' => absurd hcs' hcs⟩

/-- The stack from there on is the component of each of its nodes. -/
private theorem top_iff (h : Inv adj todo s) (hcalls : s.callers = v :: calls.map (·.1))
    (htodo : ∀ a b, todo a b → a ∈ calls.map (·.1)) (hlow : s.low.get v = s.num v)
    (hx : x ∈ s.stack) (hle : s.num v ≤ s.num x) :
    w ∈ s.stack ∧ s.num v ≤ s.num w ↔ Reaches adj x w ∧ Reaches adj w x := by
  have hv : v ∈ s.callers := by rw [hcalls]; exact List.mem_cons_self
  constructor
  · rintro ⟨hw, hlew⟩
    have hxv := h.reaches_of_top hcalls hlow hx hle
    have hwv := h.reaches_of_top hcalls hlow hw hlew
    exact ⟨hxv.trans (h.reaches_above v hv w hw hlew), hwv.trans (h.reaches_above v hv x hx hle)⟩
  · rintro ⟨hxw, hwx⟩
    obtain ⟨hseen, htop⟩ := h.top_of_reaches hcalls htodo hlow hx hle hxw
    by_cases hw : w ∈ s.stack
    · exact ⟨hw, htop hw⟩
    · -- what has left the stack does not lead back to it
      exact absurd hx (h.gone_of_reaches hseen hw hwx).2

/-! The stack is cut behind the node of the innermost call, `top` being the new component and `rest`
what stays on the stack. The other open calls are below it. -/

section Cut

variable (h : Inv adj todo s) (hcalls : s.callers = v :: calls.map (·.1))
  (htodo : ∀ a b, todo a b → a ∈ calls.map (·.1)) (hlow : s.low.get v = s.num v)
  {top rest : List (Fin n)} (hcut : IsCut s v top rest)

include hcut in
/-- What is not in the lower part is in the component or was off the stack before. -/
theorem mem_top_or_not_mem (hx : x ∉ rest) : x ∈ top ∨ x ∉ s.stack := by
  rw [hcut.stack_eq, List.mem_append]
  by_cases hxt : x ∈ top
  · exact .inl hxt
  · exact .inr fun hor => hor.elim hxt hx

include hcalls in
/-- The open calls but the innermost are what they were. -/
theorem mem_callers_of_tail {f : Fin n} (hf : f ∈ calls.map (·.1)) : f ∈ s.callers := by
  rw [hcalls]
  exact List.mem_cons_of_mem _ hf

include hcalls in
/-- What is below the innermost call and open is one of the others. -/
theorem mem_tail_of_callers {f : Fin n} (hf : f ∈ s.callers) (hlt : s.num f < s.num v) :
    f ∈ calls.map (·.1) := by
  refine mem_of_callers hcalls hf ?_
  rintro rfl
  exact Nat.lt_irrefl _ hlt

include h hcalls hcut

/-- The lower part of the stack is a stack, and the other calls are of nodes there. -/
theorem stacked_closed : Stacked (closed s calls top rest) where
  seen_of_mem := fun x hx => h.seen_of_mem x (hcut.mem_stack hx)
  num_lt_next := fun x hx => h.num_lt_next x (hcut.mem_stack hx)
  stack_desc := by
    have hdesc := h.stack_desc
    rw [hcut.stack_eq] at hdesc
    exact (List.pairwise_append.mp hdesc).2.1
  onStack_iff := by
    intro x
    -- exactly the nodes of the component have lost their marks
    change (top.foldl (fun marks w => marks.set w false w.isLt) s.onStack).get x = true ↔ x ∈ rest
    rw [get_foldl_set, Bool.and_eq_true, h.onStack_iff, decide_eq_true_iff, hcut.mem_top,
      hcut.mem_rest]
    constructor
    · rintro ⟨hx, hnot⟩
      exact ⟨hx, Nat.lt_of_not_le fun hle => hnot ⟨hx, hle⟩⟩
    · rintro ⟨hx, hlt⟩
      exact ⟨hx, fun hle => Nat.not_lt_of_le hle.2 hlt⟩
  callers_mem := fun f hf => (hcut.mem_rest f).mpr
    ⟨h.callers_mem f (mem_callers_of_tail hcalls hf), h.num_lt_of_callers hcalls hf⟩
  callers_desc := by
    have hdesc := h.callers_desc
    rw [hcalls] at hdesc
    exact (List.pairwise_cons.mp hdesc).2

include htodo hlow in
/-- The component leads to itself and to what has left the stack before, so that it may leave the
stack. -/
theorem explored_closed : Explored adj todo (closed s calls top rest) where
  seen_of_edge := h.seen_of_edge
  gone_of_edge := by
    intro x b hx hxr hb
    rcases mem_top_or_not_mem hcut hxr with ht | hxs
    · -- the new component does not lead below itself
      obtain ⟨hxs, hle⟩ := (hcut.mem_top x).mp ht
      obtain ⟨hbs, hble⟩ := h.top_of_edge hcalls htodo hlow hxs hle hb
      refine ⟨hbs, fun hbr => ?_⟩
      obtain ⟨hbst, hlt⟩ := (hcut.mem_rest b).mp hbr
      exact Nat.not_lt_of_le (hble hbst) hlt
    · obtain ⟨hbs, hbst⟩ := h.gone_of_edge x b hx hxs hb
      exact ⟨hbs, fun hbr => hbst (hcut.mem_stack hbr)⟩

/-- The marks below stay, and so do the nodes whose numbers they are. -/
theorem marked_closed : Marked adj todo (closed s calls top rest) where
  low_le := fun x hx => h.low_le x (hcut.mem_stack hx)
  low_reached := by
    intro x hx
    -- a mark is at most the number of its node, so it is the number of a node that stays
    obtain ⟨hxs, hlt⟩ := (hcut.mem_rest x).mp hx
    obtain ⟨u, hu, hul, hxu⟩ := h.low_reached x hxs
    refine ⟨u, (hcut.mem_rest u).mpr ⟨hu, ?_⟩, hul, hxu⟩
    rw [hul]
    exact Nat.lt_of_le_of_lt (h.low_le x hxs) hlt
  low_le_of_edge := fun x hx b hb hbr =>
    h.low_le_of_edge x (hcut.mem_stack hx) b hb (hcut.mem_stack hbr)
  low_lt := by
    intro x hx hxc
    obtain ⟨hxs, hlt⟩ := (hcut.mem_rest x).mp hx
    exact h.low_lt x hxs fun hc => hxc (mem_tail_of_callers hcalls hc hlt)
  low_le_low := by
    intro f hf x hx hxc hfx
    obtain ⟨hxs, hlt⟩ := (hcut.mem_rest x).mp hx
    have hxc' : x ∉ s.callers := fun hc => hxc (mem_tail_of_callers hcalls hc hlt)
    refine (h.low_le_low f (mem_callers_of_tail hcalls hf) x hxs hxc' hfx).imp_right ?_
    rintro ⟨b, hb, hfb, hbx⟩
    exact ⟨b, mem_tail_of_callers hcalls hb (Nat.lt_trans hbx hlt), hfb, hbx⟩
  reaches_above := fun f hf x hx hle =>
    h.reaches_above f (mem_callers_of_tail hcalls hf) x (hcut.mem_stack hx) hle

include htodo hlow in
/-- The component joins the others: it is new, and mutual reachability is what it is made of. -/
theorem collected_closed : Collected adj (closed s calls top rest) where
  mem_found := by
    intro x
    change x ∈ (s.found ++ [top]).flatten ↔ s.Seen x ∧ x ∉ rest
    rw [List.flatten_append, List.mem_append, h.mem_found, List.flatten_singleton]
    constructor
    · rintro (⟨hx, hxs⟩ | hx)
      · exact ⟨hx, fun hr => hxs (hcut.mem_stack hr)⟩
      · obtain ⟨hxs, hle⟩ := (hcut.mem_top x).mp hx
        exact ⟨h.seen_of_mem x hxs, fun hr => Nat.not_lt_of_le hle ((hcut.mem_rest x).mp hr).2⟩
    · rintro ⟨hx, hxr⟩
      exact (mem_top_or_not_mem hcut hxr).symm.imp_left fun hxs => ⟨hx, hxs⟩
  found_ne_nil := by
    intro c hc
    rcases List.mem_append.mp hc with hc | hc
    · exact h.found_ne_nil c hc
    · have hv : v ∈ s.callers := by rw [hcalls]; exact List.mem_cons_self
      rw [List.mem_singleton.mp hc]
      exact List.ne_nil_of_mem ((hcut.mem_top v).mpr ⟨h.callers_mem v hv, Nat.le_refl _⟩)
  found_iff := by
    intro c hc u hu x
    rcases List.mem_append.mp hc with hc | hc
    · exact h.found_iff c hc u hu x
    · rw [List.mem_singleton.mp hc] at hu ⊢
      obtain ⟨hus, hle⟩ := (hcut.mem_top u).mp hu
      rw [hcut.mem_top x]
      exact h.top_iff hcalls htodo hlow hus hle
  found_nodup := by
    change (s.found ++ [top]).flatten.Nodup
    rw [List.flatten_append, List.flatten_singleton]
    refine List.nodup_append.mpr ⟨h.found_nodup, ?_, ?_⟩
    · have hnodup := h.stack_nodup
      rw [hcut.stack_eq] at hnodup
      exact (List.nodup_append.mp hnodup).1
    · -- what is in an older component has left the stack
      rintro a ha b hb rfl
      exact ((h.mem_found a).mp ha).2 ((hcut.mem_top a).mp hb).1

end Cut

/-- The innermost call ends with its own number as mark: the stack down to its node is a
component. -/
theorem close (h : Inv adj todo s) (hcalls : s.callers = v :: calls.map (·.1))
    (htodo : ∀ a b, todo a b → a ∈ calls.map (·.1)) (hlow : s.low.get v = s.num v) :
    Inv adj todo (({ s with calls } : Search n).close v) := by
  have hv : v ∈ s.callers := by rw [hcalls]; exact List.mem_cons_self
  obtain ⟨top, rest, hbehind, hcut⟩ := h.exists_cut (h.callers_mem v hv)
  have hclose : ({ s with calls } : Search n).close v = closed s calls top rest := by
    simp only [Search.close, hbehind, closed]
  rw [hclose]
  exact
    { toStacked := h.stacked_closed hcalls hcut
      toExplored := h.explored_closed hcalls htodo hlow hcut
      toMarked := h.marked_closed hcalls hcut
      toCollected := h.collected_closed hcalls htodo hlow hcut }

end Top

/-! ### Steps and runs -/

/-- The call around the innermost one is told of its mark. -/
private theorem report (h : Inv adj todo s) {calls : List (Fin n × List (Fin n))}
    (hcalls : s.callers = v :: calls.map (·.1)) :
    ∃ low : Vector Nat n, ({ s with calls } : Search n).report (s.low.get v) =
        { s with calls, low } ∧
      Inv adj todo { s with low } ∧ low.get v = s.low.get v ∧
      ∀ p ∈ (calls.map (·.1)).head?, low.get p ≤ low.get v := by
  match calls with
  | [] => exact ⟨s.low, rfl, h, rfl, by simp⟩
  | (p, ps) :: rest =>
    have hv : v ∈ s.callers := by rw [hcalls]; exact List.mem_cons_self
    have hp : p ∈ s.callers := by rw [hcalls]; simp
    have hpv : s.num p < s.num v := h.num_lt_of_callers hcalls (by simp)
    -- the mark is the number of a node that the outer call reaches too
    obtain ⟨u, hu, hul, hvu⟩ := h.low_reached v (h.callers_mem v hv)
    have hpu : Reaches adj p u :=
      (h.reaches_above p hp v (h.callers_mem v hv) (Nat.le_of_lt hpv)).trans hvu
    have hne : p ≠ v := by
      rintro rfl
      exact Nat.lt_irrefl _ hpv
    have hlow_v : (s.low.set p (min (s.low.get p) (s.low.get v))).get v = s.low.get v := by
      rw [get_set, if_neg hne]
    refine ⟨s.low.set p (min (s.low.get p) (s.low.get v)), rfl, ?_, hlow_v, ?_⟩
    · have hlower := h.lower hp hu hpu
      rwa [hul] at hlower
    · intro q hq
      obtain rfl : p = q := by simpa using hq
      rw [hlow_v, get_set, if_pos rfl]
      exact Nat.min_le_right _ _

end Inv

/-- The invariant between two steps: what is to be looked at stands in the open calls, and all of it
is a neighbour. -/
structure Valid (adj : Fin n → List (Fin n)) (s : Search n) : Prop extends Inv adj s.Pending s where
  edge_of_pending : ∀ v w, s.Pending v w → w ∈ adj v

namespace Valid

variable {adj : Fin n → List (Fin n)} {s : Search n} {v w : Fin n}

/-- The search begins with nothing to be looked at. -/
theorem empty : Valid adj {} where
  toInv := .empty
  edge_of_pending := by simp [Pending]

/-- A node that is found for the first time opens a call. Its number is above all marks, so the
pairs that lead to it are settled. -/
theorem visit {todo : Fin n → Fin n → Prop} (h : Inv adj todo s)
    (htodo : ∀ a b, todo a b → s.Pending a b ∨ b = w)
    (hedge : ∀ a b, s.Pending a b → b ∈ adj a) (hw : s.index.get w = none)
    (hreach : ∀ f ∈ s.callers, Reaches adj f w) : Valid adj (s.visit adj w) := by
  have hinv := h.visit hw hreach
  have hws : w ∈ (s.visit adj w).stack := List.mem_cons_self
  have hnum : (s.visit adj w).num w = s.next := by rw [num_visit, if_pos rfl]
  refine ⟨hinv.settle ?_, ?_⟩
  · rintro a b (hab | ⟨rfl, hb⟩)
    · rcases htodo a b hab with ⟨ws, hmem, hb⟩ | rfl
      · exact .inl ⟨ws, List.mem_cons_of_mem _ hmem, hb⟩
      · -- a pair that leads to the new node
        refine .inr ⟨hinv.seen_of_mem b hws, fun ha _ => ?_⟩
        rw [hnum]
        exact Nat.le_trans (hinv.low_le a ha) (Nat.le_of_lt_succ (hinv.num_lt_next a ha))
    · exact .inl ⟨adj a, List.mem_cons_self, hb⟩
  · rintro a b ⟨ws, hmem, hb⟩
    rcases List.mem_cons.mp hmem with heq | hmem
    · rw [(Prod.mk.inj heq).1]
      rwa [(Prod.mk.inj heq).2] at hb
    · exact hedge a b ⟨ws, hmem, hb⟩

/-- The innermost call looks at a neighbour. -/
theorem look (h : Valid adj s) {calls : List (Fin n × List (Fin n))} {ws : List (Fin n)}
    (hc : s.calls = (v, w :: ws) :: calls) :
    Valid adj (({ s with calls := (v, ws) :: calls } : Search n).look adj v w) := by
  have hcallers : s.callers = v :: calls.map (·.1) := by rw [callers, hc]; rfl
  have hv : v ∈ s.callers := by rw [hcallers]; exact List.mem_cons_self
  have hvw : w ∈ adj v := h.edge_of_pending v w ⟨w :: ws, by rw [hc]; exact List.mem_cons_self,
    List.mem_cons_self⟩
  have hinv : Inv adj s.Pending { s with calls := (v, ws) :: calls } :=
    h.toInv.calls_congr hcallers.symm
  -- `w` is the only neighbour that is no longer to be looked at
  have htodo : ∀ a b, s.Pending a b →
      ({ s with calls := (v, ws) :: calls } : Search n).Pending a b ∨ a = v ∧ b = w := by
    rintro a b ⟨us, hmem, hb⟩
    rw [hc] at hmem
    rcases List.mem_cons.mp hmem with heq | hmem
    · obtain ⟨rfl, rfl⟩ := Prod.mk.inj heq
      rcases List.mem_cons.mp hb with rfl | hb
      · exact .inr ⟨rfl, rfl⟩
      · exact .inl ⟨ws, List.mem_cons_self, hb⟩
    · exact .inl ⟨us, List.mem_cons_of_mem _ hmem, hb⟩
  have hedge : ∀ a b, ({ s with calls := (v, ws) :: calls } : Search n).Pending a b →
      b ∈ adj a := by
    rintro a b ⟨us, hmem, hb⟩
    rcases List.mem_cons.mp hmem with heq | hmem
    · obtain ⟨rfl, rfl⟩ := Prod.mk.inj heq
      exact h.edge_of_pending a b ⟨w :: us, by rw [hc]; exact List.mem_cons_self,
        List.mem_cons_of_mem _ hb⟩
    · exact h.edge_of_pending a b ⟨us, by rw [hc]; exact List.mem_cons_of_mem _ hmem, hb⟩
  unfold Search.look
  split
  · next hw =>
    -- the neighbour is new: every open call reaches it through the innermost one
    refine visit hinv (fun a b hab => (htodo a b hab).imp_right And.right) hedge hw fun f hf => ?_
    have hf' : f ∈ s.callers := by rwa [hcallers]
    have hfv := h.reaches_above f hf' v (h.callers_mem v hv) (h.num_le_of_callers hcallers hf')
    exact hfv.tail hvw
  · next i hi =>
    have hi' : s.index.get w = some i := hi
    have hseen : s.Seen w := by simp [Seen, hi']
    have hnum : s.num w = i := by rw [num, hi']; rfl
    split
    · next hon =>
      -- it is on the stack: the mark comes down to its number
      have hws : w ∈ s.stack := (h.onStack_iff w).mp hon
      have hv' : v ∈ callers { s with calls := (v, ws) :: calls } := List.mem_cons_self
      have hlower := hinv.lower hv' hws (.single hvw)
      change Inv adj s.Pending (({ s with calls := (v, ws) :: calls } : Search n).lower v (s.num w))
        at hlower
      rw [hnum] at hlower
      refine ⟨hlower.settle fun a b hab => (htodo a b hab).imp_right ?_, hedge⟩
      rintro ⟨rfl, rfl⟩
      refine ⟨hseen, fun _ _ => ?_⟩
      change (s.low.set a (min (s.low.get a) i)).get a ≤ s.num b
      rw [get_set, if_pos rfl, hnum]
      exact Nat.min_le_right _ _
    · next hoff =>
      -- it is in a component already, where a pair needs no more than that it is found
      refine ⟨hinv.settle fun a b hab => (htodo a b hab).imp_right ?_, hedge⟩
      rintro ⟨rfl, rfl⟩
      exact ⟨hseen, fun _ hbs => absurd ((h.onStack_iff b).mpr hbs) hoff⟩

/-- The innermost call has looked at all neighbours. -/
theorem leave (h : Valid adj s) {calls : List (Fin n × List (Fin n))}
    (hc : s.calls = (v, []) :: calls) : Valid adj (({ s with calls } : Search n).leave v) := by
  have hcalls : s.callers = v :: calls.map (·.1) := by rw [callers, hc]; rfl
  have hvs : v ∈ s.stack := h.callers_mem v (by rw [hcalls]; exact List.mem_cons_self)
  -- the call that ends has nothing to look at, so what is to be looked at stays the same
  have hpending : ∀ a b, s.Pending a b ↔ ∃ ws, (a, ws) ∈ calls ∧ b ∈ ws := by
    intro a b
    simp only [Pending, hc, List.mem_cons]
    constructor
    · rintro ⟨ws, heq | hmem, hb⟩
      · simp [(Prod.mk.inj heq).2] at hb
      · exact ⟨ws, hmem, hb⟩
    · rintro ⟨ws, hmem, hb⟩
      exact ⟨ws, .inr hmem, hb⟩
  have htodo : ∀ a b, s.Pending a b → a ∈ calls.map (·.1) := by
    intro a b hab
    obtain ⟨ws, hmem, -⟩ := (hpending a b).mp hab
    exact List.mem_map_of_mem hmem
  obtain ⟨low, hreport, hinv, hlow, htold⟩ := h.toInv.report hcalls
  have hindex : s.index.get v = some (s.num v) := by
    obtain ⟨i, hi⟩ := Option.ne_none_iff_exists'.mp (h.seen_of_mem v hvs)
    rw [num, hi]
    rfl
  have hedge : ∀ a b, (∃ ws, (a, ws) ∈ calls ∧ b ∈ ws) → b ∈ adj a := fun a b hab =>
    h.edge_of_pending a b ((hpending a b).mpr hab)
  unfold Search.leave
  dsimp only
  rw [hreport]
  split
  · next heq =>
    -- the mark is the number of the node: a component is complete
    have hnum : low.get v = s.num v := (Option.some.inj (hindex.symm.trans heq)).symm
    exact ⟨(hinv.close hcalls htodo hnum).settle fun a b hab => .inl ((hpending a b).mp hab), hedge⟩
  · next hne =>
    -- the node stays on the stack, below it there is something that it reaches
    have hlt : low.get v < s.num v :=
      Nat.lt_of_le_of_ne (hinv.low_le v hvs) fun heq => hne (hindex.trans (congrArg some heq.symm))
    exact ⟨(hinv.finish hcalls hlt htold).settle fun a b hab => .inl ((hpending a b).mp hab), hedge⟩

/-- **Invariant preservation.** -/
theorem step (h : Valid adj s) : Valid adj (s.step adj) := by
  unfold Search.step
  match hc : s.calls with
  | [] => exact h
  | (v, []) :: calls => exact h.leave hc
  | (v, w :: ws) :: calls => exact h.look hc

/-- **Run.** By the recursion of `run`, each step being one of the three above. -/
theorem run (h : Valid adj s) : Valid adj (s.run adj) := by
  fun_induction Search.run adj s with
  | case1 s hc => exact h
  | case2 s hc ih => exact ih h.step

end Valid

/-- A run ends when no call is open. -/
theorem calls_run (adj : Fin n → List (Fin n)) (s : Search n) : (s.run adj).calls = [] := by
  fun_induction Search.run adj s with
  | case1 s hc => exact hc
  | case2 s hc ih => exact ih

namespace Valid

variable {adj : Fin n → List (Fin n)} {s : Search n} {v w : Fin n}

/-- Without an open call nothing is on the stack: each of its nodes would have one below it. -/
theorem stack_eq_nil (h : Valid adj s) (hc : s.calls = []) : s.stack = [] := by
  -- by induction on the number, no node has it: its mark would be a smaller one
  have hnone : ∀ k, ∀ x ∈ s.stack, s.num x ≠ k := by
    intro k
    induction k using Nat.strongRecOn with
    | ind k ih =>
      rintro x hx rfl
      obtain ⟨u, hu, hul, -⟩ := h.low_reached x hx
      have hxc : x ∉ s.callers := by simp [callers, hc]
      exact ih (s.num u) (hul ▸ h.low_lt x hx hxc) u hu rfl
  exact List.eq_nil_iff_forall_not_mem.mpr fun x hx => hnone _ x hx rfl

end Valid

/-! ### The search from every node -/

/-- A node that is found stays found. -/
theorem Seen.step {adj : Fin n → List (Fin n)} {s : Search n} {v : Fin n} (h : s.Seen v) :
    (s.step adj).Seen v := by
  unfold Search.step
  match hc : s.calls with
  | [] => exact h
  | (u, []) :: calls =>
    -- a call that ends leaves the numbers as they are
    have hindex := (leave_keeps { s with calls } u).1
    simp only [Seen, hindex]
    exact h
  | (u, w :: ws) :: calls =>
    dsimp only [look]
    split
    · exact (seen_visit _ _ _ _).mpr (.inr h)
    · split <;> exact h

/-- A run keeps what has been seen: no step takes it back. -/
theorem Seen.run {adj : Fin n → List (Fin n)} {s : Search n} {v : Fin n} (h : s.Seen v) :
    (s.run adj).Seen v := by
  fun_induction Search.run adj s with
  | case1 s hc => exact h
  | case2 s hc ih => exact ih h.step

/-- A search from another node keeps what has been seen so far. -/
theorem Seen.start {adj : Fin n → List (Fin n)} {s : Search n} {v : Fin n} (h : s.Seen v)
    (u : Fin n) : (s.start adj u).Seen v := by
  unfold Search.start
  split
  · exact h
  · exact ((seen_visit adj s u v).mpr (.inr h)).run

/-- The node that the search starts at is found. -/
theorem seen_start (adj : Fin n → List (Fin n)) (s : Search n) (v : Fin n) :
    (s.start adj v).Seen v := by
  unfold start
  split
  · next h => exact Option.isSome_iff_ne_none.mp h
  · exact ((seen_visit adj s v v).mpr (.inl rfl)).run

namespace Valid

variable {adj : Fin n → List (Fin n)} {s : Search n}

/-- A search that is over may be started at any node, and is over again. -/
theorem start (h : Valid adj s) (hc : s.calls = []) (v : Fin n) :
    Valid adj (s.start adj v) ∧ (s.start adj v).calls = [] := by
  unfold Search.start
  split
  · exact ⟨h, hc⟩
  · next hv =>
    have hnone : s.index.get v = none := by simpa using hv
    have hvisit : Valid adj (s.visit adj v) := by
      refine visit h.toInv (fun a b hab => .inl hab) h.edge_of_pending hnone ?_
      simp [callers, hc]
    exact ⟨hvisit.run, calls_run _ _⟩

/-- After the search from each node of a list, all of them are found. -/
theorem foldl_start (h : Valid adj s) (hc : s.calls = []) (vs : List (Fin n)) :
    Valid adj (vs.foldl (Search.start adj) s) ∧ (vs.foldl (Search.start adj) s).calls = [] ∧
      ∀ v, v ∈ vs ∨ s.Seen v → (vs.foldl (Search.start adj) s).Seen v := by
  induction vs generalizing s with
  | nil => exact ⟨h, hc, fun v hv => hv.resolve_left List.not_mem_nil⟩
  | cons u vs ih =>
    obtain ⟨hstart, hcalls⟩ := h.start hc u
    obtain ⟨hvalid, hclosed, hseen⟩ := ih hstart hcalls
    refine ⟨hvalid, hclosed, fun v hv => hseen v ?_⟩
    -- a node of the list is found when its turn comes, and stays so
    rcases hv with hv | hv
    · rcases List.mem_cons.mp hv with rfl | hv
      · exact .inr (seen_start adj s v)
      · exact .inl hv
    · exact .inr (hv.start u)

end Valid

end Search

/-- Every node is in a component, and in one place of one of them. Two nodes are in one component
exactly if each reaches the other. -/
theorem components_spec (adj : Fin n → List (Fin n)) :
    (∀ v, v ∈ (components adj).flatten) ∧ (components adj).flatten.Nodup ∧
      (∀ c ∈ components adj, c ≠ []) ∧
      ∀ c ∈ components adj, ∀ u ∈ c, ∀ v, v ∈ c ↔ Reaches adj u v ∧ Reaches adj v u := by
  have hempty : Search.Valid adj {} := .empty
  obtain ⟨hvalid, hcalls, hseen⟩ := hempty.foldl_start rfl (List.finRange n)
  refine ⟨fun v => ?_, hvalid.found_nodup, hvalid.found_ne_nil, hvalid.found_iff⟩
  refine (hvalid.mem_found v).mpr ⟨hseen v (.inl (List.mem_finRange v)), ?_⟩
  rw [hvalid.stack_eq_nil hcalls]
  exact List.not_mem_nil

end ImportAtlas
