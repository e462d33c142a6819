import ImportAtlas.Proofs.Graph.Invariant
import Mathlib.Data.List.Induction

/-!
# Sorted edges

`ModuleGraph.finalize` sorts the edges by source and target and leaves parallel edges in their
order. So it does not matter in which order the files came whose edges these are: the sorted list is
determined by the parallel edges of each pair of modules (`edges_eq_of_parallel_eq`), and these stay
what they were (`parallel_finalize`).
-/

namespace ImportAtlas

open Std (TransCmp OrientedCmp ReflCmp)

/-! ### Stable sorting -/

/-- Elements that sorting may leave in any order stay in the order they had. -/
theorem filter_mergeSort {α : Type} (cmp : α → α → Ordering) [TransCmp cmp] {P : α → Bool}
    (hP : ∀ a b, P a → P b → (cmp a b).isLE) (l : List α) :
    (l.mergeSort fun a b => (cmp a b).isLE).filter P = l.filter P := by
  -- what is kept is sorted already, all of it being equal, so a stable sort leaves its order
  have hpairwise : (l.filter P).Pairwise fun a b => (cmp a b).isLE = true :=
    List.Pairwise.imp_of_mem
      (fun ha hb _ => hP _ _ (List.of_mem_filter ha) (List.of_mem_filter hb))
      (List.pairwise_of_forall (R := fun _ _ => True) fun _ _ => trivial)
  have hsublist := (List.sublist_mergeSort (fun _ _ _ => TransCmp.isLE_trans) (isLE_total cmp)
    hpairwise List.filter_sublist).filter P
  rw [List.filter_filter] at hsublist
  simp only [Bool.and_self] at hsublist
  exact (hsublist.eq_of_length ((List.mergeSort_perm l _).filter P).length_eq.symm).symm

section Determined

variable {α : Type} {cmp : α → α → Ordering} {xs ys : List α}

/-- The elements of a list that compare as equal to one. -/
def classOf (cmp : α → α → Ordering) (xs : List α) (a : α) : List α :=
  xs.filter fun b => cmp a b == .eq

/-- The elements that are equal to one, in the order of the list. -/
theorem classOf_cons (x : α) (xs : List α) (a : α) :
    classOf cmp (x :: xs) a =
      if cmp a x = .eq then x :: classOf cmp xs a else classOf cmp xs a := by
  simp [classOf, List.filter_cons]

variable [TransCmp cmp]

/-- Each element is among those that are equal to it. -/
theorem mem_classOf_self (cmp : α → α → Ordering) [TransCmp cmp] {a : α} :
    a ∈ classOf cmp xs a ↔ a ∈ xs := by
  have hself : cmp a a = .eq := ReflCmp.compare_self
  simp [classOf, hself]

/-- Two sorted lists are equal when those of their elements that compare as equal are the same and
in the same order. -/
theorem eq_of_classOf_eq (hx : xs.Pairwise fun a b => (cmp a b).isLE)
    (hy : ys.Pairwise fun a b => (cmp a b).isLE) (h : ∀ a, classOf cmp xs a = classOf cmp ys a) :
    xs = ys := by
  have hself : ∀ a, cmp a a = .eq := fun a => ReflCmp.compare_self
  have hmem : ∀ a, a ∈ xs ↔ a ∈ ys := fun a => by
    rw [← mem_classOf_self cmp, h a, mem_classOf_self cmp]
  induction hx generalizing ys with
  | nil =>
    refine (List.eq_nil_iff_forall_not_mem.mpr fun a ha => ?_).symm
    exact List.not_mem_nil ((hmem a).mpr ha)
  | @cons x xs hle _ ih =>
    match ys with
    | [] => exact absurd ((hmem x).mp List.mem_cons_self) List.not_mem_nil
    | y :: ys =>
      obtain ⟨hle', hys⟩ := List.pairwise_cons.mp hy
      -- each of the first two is at most the other
      have hxy : (cmp x y).isLE := by
        rcases List.mem_cons.mp ((hmem y).mpr List.mem_cons_self) with rfl | hmem'
        · rw [hself y]
          rfl
        · exact hle y hmem'
      have hyx : (cmp y x).isLE := by
        rcases List.mem_cons.mp ((hmem x).mp List.mem_cons_self) with rfl | hmem'
        · rw [hself x]
          rfl
        · exact hle' x hmem'
      have heq : cmp x y = .eq := OrientedCmp.isLE_antisymm hxy hyx
      -- so they are the first ones of one class
      have hfirst : x = y := by
        have hclass := h x
        rw [classOf_cons, classOf_cons, if_pos (hself x), if_pos heq] at hclass
        exact (List.cons.inj hclass).1
      subst hfirst
      -- and the classes go on alike behind them
      have htail : ∀ a, classOf cmp xs a = classOf cmp ys a := by
        intro a
        have hclass := h a
        rw [classOf_cons, classOf_cons] at hclass
        split at hclass
        · exact (List.cons.inj hclass).2
        · exact hclass
      rw [ih hys htail fun a => by rw [← mem_classOf_self cmp, htail a, mem_classOf_self cmp]]

/-- Leaving elements out before sorting or after it is the same. -/
theorem mergeSort_filter (P : α → Bool) (xs : List α) :
    (xs.filter P).mergeSort (fun a b => (cmp a b).isLE) =
      (xs.mergeSort fun a b => (cmp a b).isLE).filter P := by
  apply eq_of_classOf_eq (pairwise_mergeSort_isLE cmp _)
    ((pairwise_mergeSort_isLE cmp xs).filter P)
  intro a
  -- sorting leaves the class of each element as it is
  have hclass : ∀ ys : List α, classOf cmp (ys.mergeSort fun a b => (cmp a b).isLE) a =
      classOf cmp ys a := fun ys => by
    refine filter_mergeSort cmp (fun b c hb hc => ?_) ys
    have hab : cmp a b = .eq := eq_of_beq hb
    have hac : cmp a c = .eq := eq_of_beq hc
    exact TransCmp.isLE_trans (by rw [OrientedCmp.eq_comm.mp hab]; rfl) (by rw [hac]; rfl)
  have hfilter : ∀ ys : List α, classOf cmp (ys.filter P) a = (classOf cmp ys a).filter P :=
    fun ys => List.filter_comm _ P ys
  rw [hfilter, hclass, hclass, hfilter]

end Determined

namespace ModuleGraph

/-! ### The order of edges -/

instance : TransCmp edgeOrder :=
  letI : Ord Path := ⟨Path.order⟩
  haveI : Std.TransOrd Path := inferInstanceAs (TransCmp Path.order)
  inferInstanceAs (TransCmp (compareLex (compareOn Edge.source) (compareOn Edge.target)))

/-- Edges have the same place when they have the same ends. -/
theorem edgeOrder_eq_iff {e f : Edge} :
    edgeOrder e f = .eq ↔ e.source.same f.source ∧ e.target.same f.target := by
  simp [edgeOrder, Path.order_eq_iff]

/-- The edges from one module to another. -/
def parallel (g : ModuleGraph) (p q : Path) : List Edge :=
  g.edges.filter fun e => e.source.same p && e.target.same q

/-- The edges between two modules, in two steps. -/
theorem parallel_eq (g : ModuleGraph) (p q : Path) :
    g.parallel p q = (g.edges.filter (·.source.same p)).filter (·.target.same q) := by
  rw [parallel, List.filter_filter]
  exact List.filter_congr fun e _ => Bool.and_comm _ _

/-- A graph that is finalized has its edges in order. -/
theorem pairwise_edges_finalize (g : ModuleGraph) :
    g.finalize.edges.Pairwise fun e f => (edgeOrder e f).isLE :=
  pairwise_mergeSort_isLE edgeOrder g.edges

/-- Sorting leaves parallel edges in their order. -/
theorem parallel_finalize (g : ModuleGraph) (p q : Path) :
    g.finalize.parallel p q = g.parallel p q := by
  refine filter_mergeSort edgeOrder ?_ g.edges
  intro e f he hf
  rw [Bool.and_eq_true] at he hf
  have heq : edgeOrder e f = .eq := edgeOrder_eq_iff.mpr
    ⟨Path.same_trans he.1 (Path.same_symm hf.1), Path.same_trans he.2 (Path.same_symm hf.2)⟩
  rw [heq]
  rfl

/-- Sorted edges are determined by the parallel edges of each pair of modules. -/
theorem edges_eq_of_parallel_eq {g h : ModuleGraph}
    (hg : g.edges.Pairwise fun e f => (edgeOrder e f).isLE)
    (hh : h.edges.Pairwise fun e f => (edgeOrder e f).isLE)
    (hparallel : ∀ p q, g.parallel p q = h.parallel p q) : g.edges = h.edges := by
  refine eq_of_classOf_eq hg hh fun a => ?_
  -- edges that compare equal are those with the same ends
  have hclass : ∀ es : List Edge, classOf edgeOrder es a =
      es.filter fun e => e.source.same a.source && e.target.same a.target := by
    intro es
    refine List.filter_congr fun e _ => ?_
    rw [Bool.eq_iff_iff, beq_iff_eq, edgeOrder_eq_iff, Bool.and_eq_true,
      Path.same_comm a.source, Path.same_comm a.target]
  rw [hclass, hclass]
  exact hparallel a.source a.target

/-- Sorted edges depend on what the edges of each module are, and on their order, only. -/
theorem edges_finalize_congr {g h : ModuleGraph}
    (hsource : ∀ p, g.edges.filter (·.source.same p) = h.edges.filter (·.source.same p)) :
    g.finalize.edges = h.finalize.edges := by
  refine edges_eq_of_parallel_eq (pairwise_edges_finalize g) (pairwise_edges_finalize h) ?_
  intro p q
  rw [parallel_finalize, parallel_finalize, parallel_eq, parallel_eq, hsource]

/-! ### Sorted entries -/

/-- Nothing is dropped from what is sorted without repetitions. -/
theorem dropRepeats_of_ascending {ps : List Path} (h : Path.Ascending ps) :
    dropRepeats ps = ps := by
  fun_induction dropRepeats ps with
  | case1 => rfl
  | case2 => rfl
  | case3 p q ps hsame ih =>
    exact absurd hsame (Path.not_same_of_lt ((List.pairwise_cons.mp h).1 q List.mem_cons_self))
  | case4 p q ps hsame ih => rw [ih (List.pairwise_cons.mp h).2]

/-- Entries that are in order stay what they are. -/
theorem entries_finalize {g : ModuleGraph} (h : Path.Ascending g.entries) :
    g.finalize.entries = g.entries := by
  have hsorted : g.entries.Pairwise fun p q => (p.order q).isLE = true :=
    h.imp fun hlt => by rw [hlt]; rfl
  simp only [finalize, reindex, List.mergeSort_of_pairwise hsorted, dropRepeats_of_ascending h]

/-- A graph with its indexes made anew does not depend on those that it had. -/
theorem reindex_congr {g h : ModuleGraph} (hroot : g.root = h.root)
    (hentries : g.entries = h.entries) (hnodes : g.nodes = h.nodes) (hedges : g.edges = h.edges)
    (hlanguage : g.language = h.language) (htime : g.generatedAt = h.generatedAt) :
    g.reindex = h.reindex := by
  simp only [reindex, indexBy, hroot, hentries, hnodes, hedges, hlanguage, htime]

end ModuleGraph

/-! ### Edges, each once -/

namespace Edge

/-- The edges of a list, each once: of those that are the same the first one. -/
def distinct (es : List Edge) : List Edge :=
  es.foldl (fun kept e => if kept.any (·.same e) then kept else kept ++ [e]) []

/-- The last edge is kept if none of those kept is the same. -/
theorem distinct_concat (es : List Edge) (e : Edge) :
    distinct (es ++ [e]) =
      if (distinct es).any (·.same e) then distinct es else distinct es ++ [e] := by
  rw [distinct, List.foldl_append]
  rfl

/-- Only given edges are kept. -/
theorem mem_of_mem_distinct {e : Edge} {es : List Edge} (h : e ∈ distinct es) : e ∈ es := by
  induction es using List.reverseRecOn with
  | nil => exact h
  | append_singleton es f ih =>
    rw [distinct_concat] at h
    split at h
    · exact List.mem_append_left _ (ih h)
    · rcases List.mem_append.mp h with h | h
      · exact List.mem_append_left _ (ih h)
      · exact List.mem_append_right _ h

end Edge

end ImportAtlas
