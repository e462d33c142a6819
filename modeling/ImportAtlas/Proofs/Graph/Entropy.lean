import ImportAtlas.Graph.Entropy
import ImportAtlas.Proofs.Graph.Cycles
import ImportAtlas.Proofs.Graph.Sorted
import Mathlib.Algebra.BigOperators.Group.List.Basic
import Mathlib.Data.List.Dedup

/-!
# What entropy depends on

Entropies are sums of floating-point numbers, and such sums depend on their order. The order in
which a graph was put together never reaches them (`ModuleGraph.Assembled.entropy_determined`).

* `ModuleGraph.Assembled` — the graphs that come from adding nodes and edges, with the edges sorted
  at any time or never;
* `Sound.value?_weights` — the weight that a module puts on another is the sum over the edges
  between the two;
* `Sound.nodeEntropy_eq` — so a module has the entropy of one number for each of its dependencies,
  in the order of these;
* `ModuleGraph.entropy_congr` — graphs with the same nodes and the same weights have the same
  entropies, term by term.

Two edges between the same modules are told apart by what they take (`Edge.content`). Between two
modules the contents are listed once each, so graphs with the same edges have the same contents
there, in some order, and the sum of natural numbers does not see the order.
-/

namespace ImportAtlas

/-! ### Tables with the same values -/

namespace Keyed

variable {α : Type} {m n : Keyed α}

/-- Two tables have the same paths at the same places, and the same values there. -/
def Agree (m n : Keyed α) : Prop :=
  List.Forall₂ (fun a b => a.1.same b.1 ∧ a.2 = b.2) m n

/-- Lists that agree have the same values in the same order. -/
theorem Agree.map_snd (h : Agree m n) : m.map (·.2) = n.map (·.2) := by
  induction h with
  | nil => rfl
  | cons hab _ ih => rw [List.map_cons, List.map_cons, hab.2, ih]

/-- Tables in order are the same when the same paths have entries in both. -/
theorem forall₂_same_of_holds_eq {β : Type} {n : Keyed β} (hm : m.Ascending) (hn : n.Ascending)
    (h : ∀ p, m.holds p = n.holds p) : List.Forall₂ (fun a b => a.1.same b.1) m n := by
  -- both are sorted and hold the same modules, so they have them in the same places
  have hkeys : List.Forall₂ (fun p q => p.order q = .eq) (m.map (·.1)) (n.map (·.1)) := by
    refine forall₂_of_pairwise_lt hm hn ?_ ?_
    · intro p hp
      have hheld : n.holds p := by
        rw [← h, holds_iff_among]
        exact Path.among_of_mem hp
      rw [holds_iff_among] at hheld
      obtain ⟨q, hq, hqp⟩ := Path.among_iff.mp hheld
      exact ⟨q, hq, Path.order_eq_iff.mpr (Path.same_symm hqp)⟩
    · intro q hq
      have hheld : m.holds q := by
        rw [h, holds_iff_among]
        exact Path.among_of_mem hq
      rw [holds_iff_among] at hheld
      obtain ⟨p, hp, hpq⟩ := Path.among_iff.mp hheld
      exact ⟨p, hp, Path.order_eq_iff.mpr hpq⟩
  rw [List.forall₂_map_left_iff, List.forall₂_map_right_iff] at hkeys
  exact hkeys.imp fun _ _ => Path.order_eq_iff.mp

/-- Tables in order agree when they have the same value at every path. -/
theorem agree_of_value?_eq (hm : m.Ascending) (hn : n.Ascending)
    (h : ∀ p, m.value? p = n.value? p) : Agree m n := by
  have hkeys := forall₂_same_of_holds_eq hm hn fun p => by rw [holds_eq, holds_eq, h]
  rw [Agree, List.forall₂_iff_zip]
  refine ⟨hkeys.length_eq, fun {a b} hab => ?_⟩
  have hsame : a.1.same b.1 := (List.forall₂_iff_zip.mp hkeys).2 hab
  obtain ⟨ha, hb⟩ := List.of_mem_zip hab
  -- the values of both are what the tables have at one path
  have hvalue : m.value? a.1 = n.value? b.1 := by rw [h, value?_congr hsame]
  rw [value?_of_mem hm ha, value?_of_mem hn hb] at hvalue
  exact ⟨hsame, Option.some.inj hvalue⟩

end Keyed

/-! ### Sums of weights -/

/-- The total is the sum. -/
theorem Entropy.total_eq_sum (ws : List Nat) : Entropy.total ws = ws.sum := by
  induction ws with
  | nil => rfl
  | cons w ws ih => rw [Entropy.total, ih, List.sum_cons]

namespace Edge

/-- What an edge takes. -/
def content (e : Edge) : NameSet × Bool :=
  (e.symbols, e.wildcard)

/-- Edges are the same by their ends and their contents. -/
theorem same_iff {e f : Edge} :
    e.same f ↔ e.source.same f.source ∧ e.target.same f.target ∧ e.content = f.content := by
  simp [same, content, and_assoc]

/-- Being the same is transitive. -/
theorem same_trans {e f d : Edge} (hef : e.same f) (hfd : f.same d) : e.same d := by
  rw [same_iff] at *
  exact ⟨Path.same_trans hef.1 hfd.1, Path.same_trans hef.2.1 hfd.2.1,
    hef.2.2.trans hfd.2.2⟩

end Edge

/-- What an edge weighs that takes something. -/
def Weighting.ofContent : Weighting → NameSet × Bool → Nat
  | symbols, c => max c.1.length 1
  | edges, _ => 1

/-- The weight of an edge depends on its content only. -/
theorem Weighting.of_eq (weighting : Weighting) (e : Edge) :
    weighting.of e = weighting.ofContent e.content := by
  cases weighting <;> rfl

/-- Edges share out what an edge takes: they join the same modules, each takes something, and
together they take each of its symbols once. -/
structure Edge.SharedBy (e : Edge) (parts : List Edge) : Prop where
  ends : ∀ f ∈ parts, f.source.same e.source ∧ f.target.same e.target
  symbols_ne_nil : ∀ f ∈ parts, f.symbols ≠ []
  symbols_perm : (parts.flatMap (·.symbols)).Perm e.symbols
  ne_nil : parts ≠ []

namespace Edge.SharedBy

variable {e : Edge} {parts : List Edge}

/-- No two of the edges take the same. -/
theorem nodup_contents (h : e.SharedBy parts) (hset : NameSet.Ascending e.symbols) :
    (parts.map content).Nodup := by
  have hnodup : (parts.flatMap (·.symbols)).Nodup := h.symbols_perm.nodup_iff.mpr hset.nodup
  rw [List.Nodup, List.pairwise_map]
  refine (List.nodup_flatMap.mp hnodup).2.imp_of_mem fun {f f'} hf _ hdisjoint heq => ?_
  -- two edges that take the same have a symbol in common
  obtain ⟨n, hn⟩ := List.exists_mem_of_ne_nil _ (h.symbols_ne_nil f hf)
  have hsymbols : f.symbols = f'.symbols := congrArg Prod.fst heq
  exact hdisjoint hn (show n ∈ f'.symbols from hsymbols ▸ hn)

/-- Together the edges weigh what the one does. -/
theorem sum_weights (h : e.SharedBy parts) : (parts.map Edge.weight).sum = e.weight := by
  have hlength : parts.map Edge.weight = parts.map fun f => f.symbols.length :=
    List.map_congr_left fun f hf =>
      Nat.max_eq_left (List.length_pos_iff.mpr (h.symbols_ne_nil f hf))
  have hne : e.symbols ≠ [] := by
    obtain ⟨f, hf⟩ := List.exists_mem_of_ne_nil _ h.ne_nil
    obtain ⟨n, hn⟩ := List.exists_mem_of_ne_nil _ (h.symbols_ne_nil f hf)
    exact List.ne_nil_of_mem (h.symbols_perm.mem_iff.mp (List.mem_flatMap.mpr ⟨f, hf, hn⟩))
  rw [hlength, ← List.length_flatMap, h.symbols_perm.length_eq, weight,
    Nat.max_eq_left (List.length_pos_iff.mpr hne)]

end Edge.SharedBy

/-- Every edge has some weight, also one without symbols. -/
theorem Weighting.of_pos (weighting : Weighting) (e : Edge) : 0 < weighting.of e := by
  cases weighting with
  | symbols => exact Nat.le_max_right _ _
  | edges => exact Nat.one_pos

/-- A table of sums: what is written at a path in the course of a list is added up there. -/
theorem value?_foldl_alter_add (weight : Edge → Nat) (es : List Edge) {m : Keyed Nat}
    (hm : m.Ascending) (q : Path) :
    Keyed.Ascending (es.foldl (fun ws e => ws.alter e.target fun w => w.getD 0 + weight e) m) ∧
      Keyed.value? (es.foldl (fun ws e => ws.alter e.target fun w => w.getD 0 + weight e) m) q =
        if es.any (·.target.same q) then
          some ((m.value? q).getD 0 + ((es.filter (·.target.same q)).map weight).sum)
        else m.value? q := by
  -- the first edge adds its weight to the table that the others go on with
  induction es generalizing m with
  | nil => exact ⟨hm, rfl⟩
  | cons e es ih =>
    obtain ⟨hasc, hvalue⟩ := ih (Keyed.ascending_alter hm e.target fun w => w.getD 0 + weight e)
    refine ⟨hasc, ?_⟩
    rw [List.foldl_cons, hvalue, Keyed.value?_alter hm, List.any_cons, List.filter_cons]
    by_cases hq : e.target.same q
    · rw [if_pos hq, Option.getD_some, hq, Bool.true_or, if_pos rfl, if_pos rfl, List.map_cons,
        List.sum_cons, ← Nat.add_assoc, Keyed.value?_congr hq]
      split
      · rfl
      · next hnone =>
        have hnil : es.filter (·.target.same q) = [] := by
          rw [List.filter_eq_nil_iff]
          intro f hf hsame
          exact hnone (List.any_eq_true.mpr ⟨f, hf, hsame⟩)
        rw [hnil, List.map_nil, List.sum_nil, Nat.add_zero]
    · rw [if_neg hq, if_neg hq, Bool.eq_false_iff.mpr hq, Bool.false_or]

namespace ModuleGraph

variable {g h : ModuleGraph} {p q : Path} {weighting : Weighting}

/-! ### The weights of a module -/

/-- The weights stand in the order of the targets. -/
theorem ascending_weights (g : ModuleGraph) (weighting : Weighting) (p : Path) :
    (g.weights weighting p).Ascending :=
  (value?_foldl_alter_add weighting.of (g.outgoing p) .nil p).1

/-- The edges between two modules are asked for by what the paths lead to. -/
theorem parallel_congr {p' q' : Path} (hp : p.same p') (hq : q.same q') :
    g.parallel p q = g.parallel p' q' := by
  simp only [parallel, Path.same_congr_right hp, Path.same_congr_right hq]

/-- What a module puts on another is the weight of all edges between them. -/
theorem Joined.value?_weights (hg : Joined g) (weighting : Weighting) (p q : Path) :
    (g.weights weighting p).value? q =
      if (g.parallel p q).isEmpty then none
      else some (Entropy.total ((g.parallel p q).map weighting.of)) := by
  have hvalue := (value?_foldl_alter_add weighting.of (g.outgoing p) .nil q).2
  rw [weights, hvalue, Entropy.total_eq_sum, parallel_eq, ← hg.outgoing_eq, Keyed.value?_nil,
    Option.getD_none, Nat.zero_add]
  -- a target is weighed exactly if an edge leads to it
  have hempty : ((g.outgoing p).filter (·.target.same q)).isEmpty =
      !(g.outgoing p).any (·.target.same q) := by
    rw [Bool.eq_iff_iff, List.isEmpty_iff, List.filter_eq_nil_iff, Bool.not_eq_true',
      List.any_eq_false]
  rw [hempty]
  cases (g.outgoing p).any (·.target.same q) <;> rfl

/-- A dependency is a module that some edge leads to. -/
theorem Joined.among_dependencies_iff (hg : Joined g) :
    q.among (g.dependencies p) ↔ g.parallel p q ≠ [] := by
  simp [hg.among_dependencies, parallel, List.filter_eq_nil_iff]

/-- One positive weight for each dependency. -/
theorem Joined.agree_weights (hg : Joined g) (weighting : Weighting) (p : Path) :
    (g.weights weighting p).Agree ((g.dependencies p).map fun q =>
      (q, Entropy.total ((g.parallel p q).map weighting.of))) := by
  have hasc : Keyed.Ascending ((g.dependencies p).map fun q =>
      (q, Entropy.total ((g.parallel p q).map weighting.of))) := by
    rw [Keyed.Ascending, List.map_map]
    exact (List.map_id _).symm ▸ Path.ascending_distinct _
  -- two sorted tables agree when they have the same values
  refine Keyed.agree_of_value?_eq (ascending_weights g weighting p) hasc fun q => ?_
  rw [hg.value?_weights]
  split
  · next hnil =>
    rw [eq_comm, Keyed.value?, Option.map_eq_none_iff, List.find?_eq_none]
    intro b hb hsame
    obtain ⟨r, hr, rfl⟩ := List.mem_map.mp hb
    have hamong := Path.among_iff.mpr ⟨r, hr, hsame⟩
    exact hg.among_dependencies_iff.mp hamong (List.isEmpty_iff.mp hnil)
  · next hne =>
    -- the target is a dependency, under the path that the dependencies have for it
    have hdependency := hg.among_dependencies_iff.mpr (mt List.isEmpty_iff.mpr hne)
    obtain ⟨r, hr, hsame⟩ := Path.among_iff.mp hdependency
    rw [← Keyed.value?_congr hsame, ← parallel_congr (Path.same_refl p) hsame]
    exact (Keyed.value?_of_mem hasc (List.mem_map_of_mem hr)).symm

/-- A module has the entropy of the weights of its dependencies, in their order. -/
theorem Joined.nodeEntropy_eq (hg : Joined g) (weighting : Weighting) (p : Path) :
    g.nodeEntropy weighting p = Entropy.shannon ((g.dependencies p).map fun q =>
      Entropy.total ((g.parallel p q).map weighting.of)) := by
  rw [nodeEntropy, weightList, (hg.agree_weights weighting p).map_snd, List.map_map]
  rfl

/-- Where there is an edge there is weight. -/
theorem total_parallel_pos (hne : g.parallel p q ≠ []) (weighting : Weighting) :
    0 < Entropy.total ((g.parallel p q).map weighting.of) := by
  obtain ⟨e, es, hparallel⟩ := List.exists_cons_of_ne_nil hne
  rw [hparallel, List.map_cons, Entropy.total]
  exact Nat.add_pos_left (weighting.of_pos e) _

/-! ### The entropies of a graph -/

/-- The mean of entropies by the weights that go with them. -/
def meanEntropy (rows : List (Float × Nat)) : Float :=
  let total := Entropy.total (rows.map (·.2))
  let shown := rows.filter fun row => 0 < row.2
  let sum := shown.foldl (fun s row => s + row.1 * Float.ofNat row.2) 0.0
  if total = 0 then 0.0 else sum / Float.ofNat total

/-- The entropies of the nodes, in their order. -/
theorem Indexed.perNode_eq (hg : Indexed g) (weighting : Weighting) :
    (g.entropy weighting).perNode = g.nodes.map fun kn => (kn.1, g.nodeEntropy weighting kn.1) := by
  have hrows : (g.nodes.map fun kn =>
      (kn.2.id, g.nodeEntropy weighting kn.2.id, g.outWeight weighting kn.2.id)) =
        g.nodes.map fun kn =>
          (kn.1, g.nodeEntropy weighting kn.1, g.outWeight weighting kn.1) :=
    List.map_congr_left fun kn hkn => by rw [hg.keyed kn hkn]
  have hasc : Keyed.Ascending (g.nodes.map fun kn => (kn.1, g.nodeEntropy weighting kn.1)) := by
    rw [Keyed.Ascending, List.map_map]
    exact hg.ascending
  -- the nodes come in order, so that folding them into a table is making the list
  have hfold := Keyed.foldl_alter_of_ascending hasc
  rw [List.foldl_map] at hfold
  simp only [entropy, hrows, List.foldl_map]
  exact hfold

/-- The mean is taken over the nodes, in their order. -/
theorem Indexed.graphEntropy_eq (hg : Indexed g) (weighting : Weighting) :
    (g.entropy weighting).graph =
      meanEntropy (g.nodes.map fun kn =>
        (g.nodeEntropy weighting kn.1, g.outWeight weighting kn.1)) := by
  have hrows : (g.nodes.map fun kn =>
      (kn.2.id, g.nodeEntropy weighting kn.2.id, g.outWeight weighting kn.2.id)) =
        g.nodes.map fun kn =>
          (kn.1, g.nodeEntropy weighting kn.1, g.outWeight weighting kn.1) :=
    List.map_congr_left fun kn hkn => by rw [hg.keyed kn hkn]
  simp only [entropy, meanEntropy, hrows, List.map_map, List.filter_map, List.foldl_map]
  rfl

/-- **What entropy depends on.** Graphs with the same nodes, and in which modules put the same
weights on each other, have the same entropies, down to the order in which they are added up. -/
theorem entropy_congr (hg : Sound g) (hh : Sound h) (hnodes : ∀ p, g.contains p = h.contains p)
    (hweights : ∀ p q, (g.weights weighting p).value? q = (h.weights weighting p).value? q) :
    (g.entropy weighting).perNode.Agree (h.entropy weighting).perNode ∧
      (g.entropy weighting).graph = (h.entropy weighting).graph := by
  -- the lists of weights are equal, whichever of the same paths they are asked for
  have hlist : ∀ {p q : Path}, p.same q →
      g.weightList weighting p = h.weightList weighting q := by
    intro p q hsame
    refine Keyed.Agree.map_snd (Keyed.agree_of_value?_eq (ascending_weights g weighting p)
      (ascending_weights h weighting q) fun r => ?_)
    rw [hweights, hh.value?_weights, hh.value?_weights, parallel_congr hsame (Path.same_refl r)]
  have hkeys := Keyed.forall₂_same_of_holds_eq hg.ascending hh.ascending hnodes
  constructor
  · rw [hg.perNode_eq, hh.perNode_eq, Keyed.Agree, List.forall₂_map_left_iff,
      List.forall₂_map_right_iff]
    refine hkeys.imp fun a b hsame => ⟨hsame, ?_⟩
    rw [nodeEntropy, nodeEntropy, hlist hsame]
  · rw [hg.graphEntropy_eq, hh.graphEntropy_eq]
    refine congrArg meanEntropy (List.forall₂_eq_eq_eq ▸ ?_)
    rw [List.forall₂_map_left_iff, List.forall₂_map_right_iff]
    refine hkeys.imp fun a b hsame => ?_
    simp only [nodeEntropy, outWeight, hlist hsame]

/-! ### What edges take -/

/-- What the edges from one module to another take. -/
def contents (g : ModuleGraph) (p q : Path) : List (NameSet × Bool) :=
  (g.parallel p q).map Edge.content

/-- Between two modules everything is taken once. -/
theorem Sound.nodup_contents (hg : Sound g) (p q : Path) : (g.contents p q).Nodup := by
  rw [contents, List.Nodup, List.pairwise_map]
  refine (hg.distinct.filter _).imp_of_mem fun {e f} he hf hne heq => hne ?_
  have hends : ∀ {d : Edge}, d ∈ g.parallel p q → d.source.same p ∧ d.target.same q := by
    intro d hd
    simpa using (List.mem_filter.mp hd).2
  rw [Edge.same_iff]
  exact ⟨Path.same_trans (hends he).1 (Path.same_symm (hends hf).1),
    Path.same_trans (hends he).2 (Path.same_symm (hends hf).2), heq⟩

/-- The weights on another module, by what is taken from it. -/
theorem Joined.value?_weights_contents (hg : Joined g) (weighting : Weighting) (p q : Path) :
    (g.weights weighting p).value? q =
      if (g.contents p q).isEmpty then none
      else some ((g.contents p q).map weighting.ofContent).sum := by
  have hmap : (g.contents p q).map weighting.ofContent = (g.parallel p q).map weighting.of := by
    rw [contents, List.map_map]
    exact List.map_congr_left fun e _ => (weighting.of_eq e).symm
  rw [hg.value?_weights, hmap, Entropy.total_eq_sum, contents, List.isEmpty_map]

/-! ### Graphs that are put together -/

/-- The graphs that come from adding nodes and edges between them, listed with the last one first,
with the edges sorted in between or not. -/
inductive Assembled (root : Path) : List ModuleNode → List Edge → ModuleGraph → Prop where
  | new : Assembled root [] [] { root }
  | addNode {ns : List ModuleNode} {es : List Edge} {g : ModuleGraph}
    (h : Assembled root ns es g) (node : ModuleNode) :
    Assembled root (node :: ns) es (g.addNode node)
  | addEdge {ns : List ModuleNode} {es : List Edge} {g g' : ModuleGraph}
    (h : Assembled root ns es g) {e : Edge} {new : Bool} (hadd : g.addEdge e = .ok (g', new)) :
    Assembled root ns (e :: es) g'
  | finalize {ns : List ModuleNode} {es : List Edge} {g : ModuleGraph}
    (h : Assembled root ns es g) : Assembled root ns es g.finalize

namespace Assembled

variable {root root' : Path} {ns ns' : List ModuleNode} {es es' : List Edge}

/-- A graph that is put together from nodes and edges is sound. -/
theorem sound (hg : Assembled root ns es g) : Sound g := by
  induction hg with
  | new => exact .empty root []
  | addNode _ node ih => exact ih.addNode node
  | @addEdge _ _ g g' _ e _ hadd ih =>
    have happly := ih.apply (.addEdge e)
    rwa [Change.apply, hadd] at happly
  | finalize _ ih => exact ih.finalize

/-- An edge between nodes may be added at any time. -/
theorem applyEdge (hg : Assembled root ns es g) {e : Edge}
    (hends : g.contains e.source ∧ g.contains e.target) :
    Assembled root ns (e :: es) ((Change.addEdge e).apply g) := by
  by_cases hold : ∃ f ∈ g.edges, f.same e
  · have hadd := hg.sound.toJoined.addEdge_of_old hends hold
    rw [Change.apply, hadd]
    exact .addEdge hg hadd
  · have hadd := hg.sound.toJoined.addEdge_of_new hends (by simpa using hold)
    rw [Change.apply, hadd]
    exact .addEdge hg hadd

/-- One more node, as a change. -/
theorem applyNode (hg : Assembled root ns es g) (node : ModuleNode) :
    Assembled root (node :: ns) es ((Change.addNode node).apply g) :=
  hg.addNode node

/-- Sorting, as a change. -/
theorem applyFinalize (hg : Assembled root ns es g) :
    Assembled root ns es (Change.finalize.apply g) :=
  hg.finalize

/-- The nodes are those that were added. -/
theorem contains_iff (hg : Assembled root ns es g) (p : Path) :
    g.contains p ↔ p.among (ns.map (·.id)) := by
  induction hg with
  | new => rfl
  | @addNode ns _ g h node ih =>
    rw [contains_addNode g h.sound.ascending, List.map_cons, Path.among_cons, Bool.or_eq_true,
      Bool.or_eq_true, ih]
  -- an edge changes no node, whether it is new or not
  | @addEdge _ _ g g' h e _ hadd ih =>
    have happly : (Change.addEdge e).apply g = g' := by rw [Change.apply, hadd]
    rw [h.sound.toJoined.apply_addEdge] at happly
    rw [← ih, ← happly]
    split <;> rfl
  | finalize _ ih => exact ih

/-- The edges are those that were added, each once. -/
theorem exists_same_iff (hg : Assembled root ns es g) (d : Edge) :
    (∃ e ∈ g.edges, e.same d) ↔ ∃ e ∈ es, e.same d := by
  induction hg with
  | new => rfl
  | addNode h node ih => rw [(addNode_keeps _ node).2.2, ih]
  | @addEdge _ es g g' h e _ hadd ih =>
    have hends : g.contains e.source ∧ g.contains e.target := by
      by_contra hends
      obtain ⟨id, hid⟩ := addEdge_of_missing hends
      rw [hid] at hadd
      cases hadd
    have happly : (Change.addEdge e).apply g = g' := by rw [Change.apply, hadd]
    rw [h.sound.toJoined.apply_addEdge] at happly
    rw [List.exists_mem_cons_iff, ← ih, ← happly]
    split
    · simp [pushEdge, or_comm]
    · next hold =>
      -- the edge is there already, so that nothing is gained
      obtain ⟨f, hf, hfe⟩ : ∃ f ∈ g.edges, f.same e := by simpa [hends] using hold
      exact ⟨.inr, fun hor => hor.elim (fun hed => ⟨f, hf, Edge.same_trans hfe hed⟩) id⟩
  | finalize h ih =>
    rw [← ih]
    simp only [(finalize_perm _).mem_iff]

/-- What is taken between two modules is what the edges take that were added between them. -/
theorem mem_contents_iff (hg : Assembled root ns es g) (p q : Path) (c : NameSet × Bool) :
    c ∈ g.contents p q ↔ ∃ e ∈ es, e.source.same p ∧ e.target.same q ∧ e.content = c := by
  have hmem : c ∈ g.contents p q ↔ ∃ e ∈ g.edges, e.same ⟨p, q, c.1, c.2⟩ := by
    simp only [contents, parallel, List.mem_map, List.mem_filter, Edge.same_iff, Bool.and_eq_true,
      and_assoc]
    rfl
  rw [hmem, hg.exists_same_iff]
  simp only [Edge.same_iff]
  rfl

/-- What other edges take between two modules, each content once. -/
def contentsAmong (es : List Edge) (p q : Path) : List (NameSet × Bool) :=
  ((es.filter fun e => e.source.same p && e.target.same q).map Edge.content).dedup

/-- The contents between two modules, each once. -/
theorem mem_contentsAmong {p q : Path} {c : NameSet × Bool} :
    c ∈ contentsAmong es p q ↔ ∃ e ∈ es, e.source.same p ∧ e.target.same q ∧ e.content = c := by
  simp [contentsAmong, and_assoc]

/-- Of edges that are not repeated, what is taken between two modules is what some of them take
there, and what the rest do. -/
theorem contents_perm (hg : Assembled root ns es g) {own rest : List Edge}
    (hes : es.Perm (own ++ rest)) (hends : ∀ e ∈ own, e.source.same p ∧ e.target.same q)
    (hnodup : (own.map Edge.content).Nodup) (hnew : ∀ e ∈ own, ∀ d ∈ rest, ¬ e.same d) :
    (g.contents p q).Perm (own.map Edge.content ++ contentsAmong rest p q) := by
  refine (List.perm_ext_iff_of_nodup (hg.sound.nodup_contents p q) ?_).mpr fun c => ?_
  · refine List.nodup_append.mpr ⟨hnodup, List.nodup_dedup _, fun c hc c' hc' heq => ?_⟩
    -- an edge of one list and one of the other are not the same, so their contents differ
    obtain ⟨e, he, rfl⟩ := List.mem_map.mp hc
    obtain ⟨d, hd, hsource, htarget, hcontent⟩ := mem_contentsAmong.mp hc'
    obtain ⟨hp, hq⟩ := hends e he
    exact hnew e he d hd (Edge.same_iff.mpr ⟨Path.same_trans hp (Path.same_symm hsource),
      Path.same_trans hq (Path.same_symm htarget), heq.trans hcontent.symm⟩)
  · rw [hg.mem_contents_iff, List.mem_append, List.mem_map, mem_contentsAmong]
    simp only [hes.mem_iff, List.mem_append, or_and_right, exists_or]
    refine or_congr_left ⟨fun ⟨e, he, _, _, hc⟩ => ⟨e, he, hc⟩, fun ⟨e, he, hc⟩ => ?_⟩
    exact ⟨e, he, (hends e he).1, (hends e he).2, hc⟩

/-- Edges that differ in what they take between two modules only weigh the same elsewhere. -/
theorem contents_perm_of_elsewhere (hg : Assembled root ns es g) (hh : Assembled root' ns' es' h)
    {own own' rest : List Edge} (hes : es.Perm (own ++ rest)) (hes' : es'.Perm (own' ++ rest))
    (hown : ∀ e ∈ own ++ own', ¬ (e.source.same p ∧ e.target.same q)) :
    (g.contents p q).Perm (h.contents p q) := by
  refine (List.perm_ext_iff_of_nodup (hg.sound.nodup_contents p q)
    (hh.sound.nodup_contents p q)).mpr fun c => ?_
  rw [hg.mem_contents_iff, hh.mem_contents_iff]
  -- the edges that are elsewhere do not count between these two modules
  have hrest : ∀ {own : List Edge}, (∀ e ∈ own, ¬ (e.source.same p ∧ e.target.same q)) →
      ((∃ e ∈ own ++ rest, e.source.same p ∧ e.target.same q ∧ e.content = c) ↔
        ∃ e ∈ rest, e.source.same p ∧ e.target.same q ∧ e.content = c) := by
    intro own hnone
    refine ⟨fun ⟨e, he, hp, hq, hc⟩ => ?_, fun ⟨e, he, hc⟩ => ⟨e, List.mem_append_right _ he, hc⟩⟩
    rcases List.mem_append.mp he with he | he
    · exact absurd ⟨hp, hq⟩ (hnone e he)
    · exact ⟨e, he, hp, hq, hc⟩
  simp only [hes.mem_iff, hes'.mem_iff]
  rw [hrest fun e he => hown e (List.mem_append_left _ he),
    hrest fun e he => hown e (List.mem_append_right _ he)]

/-- The weight of a target depends on the contents of its edges, in any order. -/
theorem value?_weights_of_perm (hg : Assembled root ns es g) (hh : Assembled root' ns' es' h)
    (hperm : (g.contents p q).Perm (h.contents p q)) (weighting : Weighting) :
    (g.weights weighting p).value? q = (h.weights weighting p).value? q := by
  rw [hg.sound.toJoined.value?_weights_contents, hh.sound.toJoined.value?_weights_contents,
    hperm.isEmpty_eq, (hperm.map _).sum_eq]

/-- An edge may give way to edges that share out what it takes: all symbols weigh the same. -/
theorem value?_weights_of_shared (hg : Assembled root ns es g) (hh : Assembled root' ns' es' h)
    {e : Edge} {parts rest : List Edge} (hes : es.Perm (e :: rest))
    (hes' : es'.Perm (parts ++ rest)) (hset : NameSet.Ascending e.symbols)
    (hshared : e.SharedBy parts) (hnew : ∀ f ∈ e :: parts, ∀ d ∈ rest, ¬ f.same d) (p q : Path) :
    (g.weights .symbols p).value? q = (h.weights .symbols p).value? q := by
  obtain ⟨hnewEdge, hnewParts⟩ := List.forall_mem_cons.mp hnew
  have hends : ∀ f ∈ parts, (f.source.same p ∧ f.target.same q) ↔
      (e.source.same p ∧ e.target.same q) := by
    intro f hf
    rw [Path.same_congr_left (hshared.ends f hf).1, Path.same_congr_left (hshared.ends f hf).2]
  have hsplit : es.Perm ([e] ++ rest) := hes
  by_cases hpq : e.source.same p ∧ e.target.same q
  · -- between the ends of the edge both have its weight, and that of the rest
    have hg' := hg.contents_perm hsplit (by simpa using hpq) (by simp) (by simpa using hnewEdge)
    have hh' := hh.contents_perm hes' (fun f hf => (hends f hf).mpr hpq)
      (hshared.nodup_contents hset) hnewParts
    have hweight : ∀ fs : List Edge,
        (fs.map Edge.content).map Weighting.symbols.ofContent = fs.map Edge.weight := by
      intro fs
      rw [List.map_map]
      rfl
    have hfirst : (parts.map Edge.content ++ contentsAmong rest p q).isEmpty = false := by
      simp [hshared.ne_nil]
    rw [hg.sound.toJoined.value?_weights_contents, hh.sound.toJoined.value?_weights_contents,
      hg'.isEmpty_eq, hh'.isEmpty_eq, hfirst, (hg'.map _).sum_eq, (hh'.map _).sum_eq,
      List.map_append, List.map_append, List.sum_append, List.sum_append, hweight, hweight,
      hshared.sum_weights]
    rfl
  · -- elsewhere neither the edge nor its parts count
    refine value?_weights_of_perm hg hh (contents_perm_of_elsewhere hg hh hsplit hes' ?_) _
    intro f hf
    rcases List.mem_append.mp hf with hf | hf
    · rwa [List.mem_singleton.mp hf]
    · rwa [hends f hf]

/-- **Entropy is a function of nodes and edges.** The entropy of a node is that of one positive
number for each of its dependencies: the sum of what the edges to it weigh. Graphs that are put
together from the same nodes and edges, in whatever order and sorted or not, have the same
entropies. And by symbols they also have the same if one of the edges gives way to others that
share out what it takes. -/
theorem entropy_determined (hg : Assembled root ns es g) :
    (∀ weighting p, g.contains p →
      (g.entropy weighting).perNode.value? p = some (Entropy.shannon ((g.dependencies p).map
        fun q => Entropy.total ((g.parallel p q).map weighting.of))) ∧
      ∀ q ∈ g.dependencies p, 0 < Entropy.total ((g.parallel p q).map weighting.of)) ∧
    (∀ {root' ns' es' h}, Assembled root' ns' es' h →
      (∀ p : Path, p.among (ns.map (·.id)) ↔ p.among (ns'.map (·.id))) →
      (∀ d, (∃ e ∈ es, e.same d) ↔ ∃ e ∈ es', e.same d) →
      ∀ weighting, (g.entropy weighting).perNode.Agree (h.entropy weighting).perNode ∧
        (g.entropy weighting).graph = (h.entropy weighting).graph) ∧
    (∀ {root' ns' es' h e parts rest}, Assembled root' ns' es' h →
      (∀ p : Path, p.among (ns.map (·.id)) ↔ p.among (ns'.map (·.id))) →
      es.Perm (e :: rest) → es'.Perm (parts ++ rest) → NameSet.Ascending e.symbols →
      e.SharedBy parts → (∀ f ∈ e :: parts, ∀ d ∈ rest, ¬ f.same d) →
      (g.entropy .symbols).perNode.Agree (h.entropy .symbols).perNode ∧
        (g.entropy .symbols).graph = (h.entropy .symbols).graph) := by
  have hcontains : ∀ {root' ns' es' h}, Assembled root' ns' es' h →
      (∀ p : Path, p.among (ns.map (·.id)) ↔ p.among (ns'.map (·.id))) →
      ∀ p, g.contains p = h.contains p := by
    intro root' ns' es' h hh hnodes p
    rw [Bool.eq_iff_iff, hg.contains_iff, hh.contains_iff, hnodes]
  have hjoined := hg.sound.toJoined
  refine ⟨fun weighting p hp => ⟨?_, fun q hq => ?_⟩, fun hh hnodes hedges weighting => ?_,
    fun hh hnodes hes hes' hset hshared hnew => ?_⟩
  · -- the node may be asked for by another text than its own
    obtain ⟨kn, hkn, hsame⟩ := List.any_eq_true.mp hp
    have hmem : (kn.1, g.nodeEntropy weighting kn.1) ∈ (g.entropy weighting).perNode := by
      rw [hjoined.perNode_eq]
      exact List.mem_map_of_mem hkn
    have hasc : Keyed.Ascending (g.entropy weighting).perNode := by
      rw [hjoined.perNode_eq, Keyed.Ascending, List.map_map]
      exact hjoined.ascending
    rw [← Keyed.value?_congr hsame, Keyed.value?_of_mem hasc hmem, ← hjoined.nodeEntropy_eq]
    simp only [nodeEntropy, weightList, weights, hjoined.outgoing_eq, Path.same_congr_right hsame]
  · exact total_parallel_pos (hjoined.among_dependencies_iff.mp (Path.among_of_mem hq)) weighting
  · refine entropy_congr hg.sound hh.sound (hcontains hh hnodes) fun p q =>
      value?_weights_of_perm hg hh ?_ weighting
    refine (List.perm_ext_iff_of_nodup (hg.sound.nodup_contents p q)
      (hh.sound.nodup_contents p q)).mpr fun c => ?_
    -- a content is that of an edge between the two modules
    have hmem : ∀ es : List Edge, (∃ e ∈ es, e.source.same p ∧ e.target.same q ∧ e.content = c) ↔
        ∃ e ∈ es, e.same ⟨p, q, c.1, c.2⟩ := by
      intro es
      simp only [Edge.same_iff]
      rfl
    rw [hg.mem_contents_iff, hh.mem_contents_iff, hmem, hmem, hedges]
  · exact entropy_congr hg.sound hh.sound (hcontains hh hnodes)
      (value?_weights_of_shared hg hh hes hes' hset hshared hnew)

/-- Of two graphs one is put together the other way round and sorted at last; in the third, two
edges share out the symbols that one edge takes in the first. -/
theorem entropy_determined_of_three :
    let node (id : String) : ModuleNode := { id := ⟨id⟩, language := "js" }
    let edge (target : String) (names : List String) : Edge :=
      ⟨⟨"/p/a"⟩, ⟨target⟩, names.map (⟨·, none⟩), false⟩
    let g := ofChanges ⟨"/p"⟩ [.addNode (node "/p/a"), .addNode (node "/p/b"),
      .addNode (node "/p/c"), .addEdge (edge "/p/b" ["x", "y"]), .addEdge (edge "/p/c" [])]
    let h := ofChanges ⟨"/p"⟩ [.addNode (node "/p/c"), .addNode (node "/p/a"),
      .addEdge (edge "/p/c" []), .addNode (node "/p/b"), .addEdge (edge "/p/b" ["x", "y"]),
      .finalize]
    let shared := ofChanges ⟨"/p"⟩ [.addNode (node "/p/c"), .addNode (node "/p/b"),
      .addNode (node "/p/a"), .addEdge (edge "/p/b" ["y"]), .addEdge (edge "/p/c" []),
      .addEdge (edge "/p/b" ["x"])]
    (g.entropy .symbols).perNode.value? ⟨"/p/a"⟩ = some (Entropy.shannon [2, 1]) ∧
      (g.entropy .symbols).perNode.Agree (h.entropy .symbols).perNode ∧
      (g.entropy .symbols).graph = (h.entropy .symbols).graph ∧
      (g.entropy .symbols).graph = (shared.entropy .symbols).graph := by
  intro node edge g h shared
  have hg : Assembled ⟨"/p"⟩ [node "/p/c", node "/p/b", node "/p/a"]
      [edge "/p/c" [], edge "/p/b" ["x", "y"]] g := by
    simp only [g, ofChanges, List.foldl_cons, List.foldl_nil]
    exact .applyEdge (.applyEdge (.applyNode (.applyNode (.applyNode .new _) _) _)
      (by decide +kernel)) (by decide +kernel)
  have hh : Assembled ⟨"/p"⟩ [node "/p/b", node "/p/a", node "/p/c"]
      [edge "/p/b" ["x", "y"], edge "/p/c" []] h := by
    simp only [h, ofChanges, List.foldl_cons, List.foldl_nil]
    exact .applyFinalize (.applyEdge (.applyNode (.applyEdge (.applyNode (.applyNode .new _) _)
      (by decide +kernel)) _) (by decide +kernel))
  have hshared : Assembled ⟨"/p"⟩ [node "/p/a", node "/p/b", node "/p/c"]
      [edge "/p/b" ["x"], edge "/p/c" [], edge "/p/b" ["y"]] shared := by
    simp only [shared, ofChanges, List.foldl_cons, List.foldl_nil]
    exact .applyEdge (.applyEdge (.applyEdge (.applyNode (.applyNode (.applyNode .new _) _) _)
      (by decide +kernel)) (by decide +kernel)) (by decide +kernel)
  -- how the three graphs were assembled is all that is needed of them
  obtain ⟨hvalue, hsame, hparts⟩ := Assembled.entropy_determined hg
  have hdependencies : g.dependencies ⟨"/p/a"⟩ = [⟨"/p/b"⟩, ⟨"/p/c"⟩] := by decide +kernel
  have hnode := (hvalue .symbols ⟨"/p/a"⟩ (by decide +kernel)).1
  rw [hdependencies] at hnode
  have hweights : [(⟨"/p/b"⟩ : Path), ⟨"/p/c"⟩].map (fun q =>
      Entropy.total ((g.parallel ⟨"/p/a"⟩ q).map Weighting.symbols.of)) = [2, 1] := by
    decide +kernel
  rw [hweights] at hnode
  -- the edge with two names is shared out between two edges with one
  have hedges : edge "/p/b" ["x", "y"] |>.SharedBy [edge "/p/b" ["x"], edge "/p/b" ["y"]] :=
    ⟨by decide +kernel, by decide, .refl _, by decide⟩
  have hset : NameSet.Ascending (edge "/p/b" ["x", "y"]).symbols := by
    refine List.pairwise_pair.mpr ?_
    decide +kernel
  obtain ⟨hagree, hgraph⟩ :=
    hsame hh (by simp [or_comm, or_left_comm, or_assoc]) (by simp [or_comm]) .symbols
  refine ⟨hnode, hagree, hgraph, (hparts hshared ?_ (.swap _ _ _) ?_ hset hedges ?_).2⟩
  · simp [or_comm, or_assoc]
  · exact .cons _ (.swap _ _ _)
  · decide +kernel

end Assembled

end ModuleGraph

end ImportAtlas
