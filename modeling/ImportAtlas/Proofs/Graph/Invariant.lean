import ImportAtlas.Proofs.Keyed
import Mathlib.Data.List.Basic
import Mathlib.Data.List.Induction

/-!
# What every graph keeps

A graph grows by changes: nodes and edges are added, the edges are replaced, sorted, errors are
noted. Beside the list of its edges it keeps two indexes of places in that list, which some changes
extend and others make anew. Whatever the changes and their order, the indexes say of every node
exactly which edges leave and reach it.

The invariant is built in three layers, since graphs that were read from a file have only the first:

* `ModuleGraph.Indexed` — nodes are kept at their own paths, and both indexes are exact;
* `ModuleGraph.Joined` — besides, the ends of all edges are nodes;
* `ModuleGraph.Sound` — besides, no edge stands twice.

An index is exact when its places are those that a search through all edges would find
(`placesOf`); reading the edges at these places then is filtering the list (`outgoing_eq`,
`incoming_eq`). `Sound.apply` is the step, `sound_ofChanges` the run.
-/

namespace ImportAtlas

namespace Edge

variable {e f : Edge}

/-- Being the same is symmetric. -/
theorem same_symm (h : e.same f) : f.same e := by
  simp only [same, Bool.and_eq_true, beq_iff_eq] at *
  exact ⟨⟨⟨Path.same_symm h.1.1.1, Path.same_symm h.1.1.2⟩, h.1.2.symm⟩, h.2.symm⟩

/-- The same edges have the same ends. -/
theorem ends_same_of_same (h : e.same f) : e.source.same f.source ∧ e.target.same f.target := by
  simp only [same, Bool.and_eq_true] at h
  exact h.1.1

/-- Edges that are the same differ in the texts of their ends at most. -/
theorem eq_of_same (hsource : e.source = f.source) (htarget : e.target = f.target)
    (h : e.same f) : e = f := by
  simp only [same, Bool.and_eq_true, beq_iff_eq] at h
  cases e
  cases f
  simp_all

end Edge

namespace ModuleGraph

/-! ### Changes -/

/-- A change of a graph. -/
inductive Change where
  | addNode (node : ModuleNode)
  | addEdge (e : Edge)
  | replaceEdges (es : List Edge)
  | finalize
  | setErrors (id : Path) (errors : List NodeError)

/-- The graph after a change. An edge that cannot be added changes nothing. -/
def Change.apply (g : ModuleGraph) : Change → ModuleGraph
  | .addNode node => g.addNode node
  | .addEdge e =>
    match g.addEdge e with
    | .ok (h, _) => h
    | .error _ => g
  | .replaceEdges es => g.replaceEdges es
  | .finalize => g.finalize
  | .setErrors id errors => g.updateNode id fun n => { n with errors }

/-- The graph after changes, from one without nodes and edges. -/
def ofChanges (root : Path) (changes : List Change) : ModuleGraph :=
  changes.foldl Change.apply { root }

/-! ### Places -/

/-- The places, counted from `k`, of the edges with a path at one of their ends. -/
def placesFrom (theEnd : Edge → Path) (k : Nat) (es : List Edge) (id : Path) : List Nat :=
  ((es.zipIdx k).filter fun x => (theEnd x.1).same id).map (·.2)

/-- The places of the edges with a path at one of their ends. -/
def placesOf (theEnd : Edge → Path) (es : List Edge) (id : Path) : List Nat :=
  placesFrom theEnd 0 es id

section Places

variable {theEnd : Edge → Path} {es : List Edge} {e : Edge} {p q : Path}

/-- The places of edges, from the first on. -/
theorem placesFrom_cons (k : Nat) :
    placesFrom theEnd k (e :: es) p =
      (if (theEnd e).same p then [k] else []) ++ placesFrom theEnd (k + 1) es p := by
  simp only [placesFrom, List.zipIdx_cons, List.filter_cons]
  split <;> rfl

/-- One edge more is put at the end, so the other places stay. -/
theorem placesOf_append :
    placesOf theEnd (es ++ [e]) p =
      placesOf theEnd es p ++ if (theEnd e).same p then [es.length] else [] := by
  simp only [placesOf, placesFrom, List.zipIdx_append, List.filter_append, List.map_append]
  simp only [List.zipIdx_singleton, Nat.zero_add, List.filter_cons, List.filter_nil]
  split <;> rfl

theorem placesOf_congr (h : p.same q) : placesOf theEnd es p = placesOf theEnd es q := by
  simp only [placesOf, placesFrom, Path.same_congr_right h]

/-- Where no edge has a path at its end, there are no places for it. -/
theorem placesOf_eq_nil (h : ∀ e ∈ es, ¬ (theEnd e).same p) : placesOf theEnd es p = [] := by
  rw [placesOf, placesFrom, List.map_eq_nil_iff, List.filter_eq_nil_iff]
  intro x hx
  exact h x.1 (List.fst_mem_of_mem_zipIdx hx)

/-- The edges at the places of a path are those that a search through all edges finds. -/
theorem filterMap_placesOf :
    (placesOf theEnd es p).filterMap (es[·]?) = es.filter fun e => (theEnd e).same p := by
  rw [placesOf, placesFrom, List.filterMap_map]
  -- what stands at the place of an edge is that edge
  have hget : ∀ x ∈ es.zipIdx.filter fun x => (theEnd x.1).same p,
      ((es[·]?) ∘ fun x : Edge × Nat => x.2) x = (some ∘ fun x : Edge × Nat => x.1) x := by
    rintro ⟨e, i⟩ hx
    exact List.mem_zipIdx_iff_getElem?.mp (List.mem_filter.mp hx).1
  rw [List.filterMap_congr hget, List.filterMap_eq_map]
  have hfst : es = es.zipIdx.map (·.1) := (List.zipIdx_map_fst 0 es).symm
  conv => rhs; rw [hfst]
  rw [List.filter_map]
  rfl

end Places

/-! ### The invariant -/

/-- An index has the places of the edges for each node, and no entry for anything else. -/
structure Indexes (index : Keyed (List Nat)) (g : ModuleGraph) (theEnd : Edge → Path) : Prop where
  ascending : index.Ascending
  value? : ∀ id, index.value? id =
    if g.contains id then some (placesOf theEnd g.edges id) else none

/-- Nodes are kept at their own paths, and the indexes are exact. -/
structure Indexed (g : ModuleGraph) : Prop where
  ascending : g.nodes.Ascending
  keyed : ∀ kn ∈ g.nodes, kn.2.id = kn.1
  leaving : Indexes g.leaving g (·.source)
  arriving : Indexes g.arriving g (·.target)

/-- The ends of all edges are nodes. -/
structure Joined (g : ModuleGraph) : Prop extends Indexed g where
  source_mem : ∀ e ∈ g.edges, g.contains e.source
  target_mem : ∀ e ∈ g.edges, g.contains e.target

/-- No edge stands twice. -/
structure Sound (g : ModuleGraph) : Prop extends Joined g where
  distinct : g.edges.Pairwise fun e f => ¬ e.same f

/-- A graph without nodes and edges is sound. -/
theorem Sound.empty (root : Path) (entries : List Path) : Sound { root, entries } where
  ascending := .nil
  keyed := by simp
  leaving := ⟨.nil, fun _ => rfl⟩
  arriving := ⟨.nil, fun _ => rfl⟩
  source_mem := by simp
  target_mem := by simp
  distinct := .nil

variable {g : ModuleGraph} {p q : Path}

theorem contains_congr (h : p.same q) : g.contains p = g.contains q :=
  Keyed.holds_congr h g.nodes

/-! ### Queries through the indexes -/

/-- An index finds the edges at a module in their order, as a filter would. -/
theorem Indexes.edgesAt_eq {index : Keyed (List Nat)} {theEnd : Edge → Path}
    (h : Indexes index g theEnd) (hends : ∀ e ∈ g.edges, g.contains (theEnd e)) (id : Path) :
    g.edgesAt index id = g.edges.filter fun e => (theEnd e).same id := by
  rw [edgesAt, h.value?]
  by_cases hid : g.contains id
  · rw [if_pos hid]
    exact filterMap_placesOf
  · -- what is no node is no end of an edge either
    rw [if_neg hid, eq_comm, Option.getD_none, List.filterMap_nil, List.filter_eq_nil_iff]
    intro e he hsame
    exact hid (contains_congr hsame ▸ hends e he)

/-- The edges from a module. -/
theorem Joined.outgoing_eq (h : Joined g) (id : Path) :
    g.outgoing id = g.edges.filter (·.source.same id) :=
  h.leaving.edgesAt_eq h.source_mem id

/-- The edges to a module. -/
theorem Joined.incoming_eq (h : Joined g) (id : Path) :
    g.incoming id = g.edges.filter (·.target.same id) :=
  h.arriving.edgesAt_eq h.target_mem id

/-- A dependency is what some edge leads to. -/
theorem Joined.among_dependencies (h : Joined g) (p q : Path) :
    q.among (g.dependencies p) ↔ ∃ e ∈ g.edges, e.source.same p ∧ e.target.same q := by
  simp only [dependencies, Path.among_distinct, h.outgoing_eq, Path.among_iff, List.mem_map,
    List.mem_filter]
  constructor
  · rintro ⟨_, ⟨e, ⟨he, hp⟩, rfl⟩, hq⟩
    exact ⟨e, he, hp, hq⟩
  · rintro ⟨e, he, hp, hq⟩
    exact ⟨e.target, ⟨e, ⟨he, hp⟩, rfl⟩, hq⟩

/-- A dependent is what some edge comes from. -/
theorem Joined.among_dependents (h : Joined g) (p q : Path) :
    p.among (g.dependents q) ↔ ∃ e ∈ g.edges, e.source.same p ∧ e.target.same q := by
  simp only [dependents, Path.among_distinct, h.incoming_eq, Path.among_iff, List.mem_map,
    List.mem_filter]
  constructor
  · rintro ⟨_, ⟨e, ⟨he, hq⟩, rfl⟩, hp⟩
    exact ⟨e, he, hp, hq⟩
  · rintro ⟨e, he, hp, hq⟩
    exact ⟨e.source, ⟨e, ⟨he, hq⟩, rfl⟩, hp⟩

/-- A module without dependencies is one that no edge leaves. -/
theorem Joined.dependencies_eq_nil (h : Joined g) (p : Path) :
    g.dependencies p = [] ↔ ∀ e ∈ g.edges, ¬ e.source.same p := by
  rw [dependencies, Path.distinct_eq_nil, List.map_eq_nil_iff, h.outgoing_eq,
    List.filter_eq_nil_iff]

/-! ### Adding nodes -/

/-- Adding a node changes nothing but the nodes and the indexes. -/
theorem addNode_keeps (g : ModuleGraph) (node : ModuleNode) :
    (g.addNode node).root = g.root ∧ (g.addNode node).entries = g.entries ∧
      (g.addNode node).edges = g.edges := by
  unfold addNode
  split <;> exact ⟨rfl, rfl, rfl⟩

/-- A new node adds its path to those of the others. -/
theorem nodes_perm_addNode (node : ModuleNode) (hnew : ¬ g.contains node.id) :
    ((g.addNode node).nodes.map (·.1)).Perm (node.id :: g.nodes.map (·.1)) := by
  rw [addNode, if_neg hnew]
  exact (Keyed.perm_alter_of_new hnew _).map _

/-- The other nodes stay. -/
theorem node?_addNode (hg : g.nodes.Ascending) (node : ModuleNode)
    (hp : ¬ node.id.same p) : (g.addNode node).node? p = g.node? p := by
  unfold addNode
  split
  · rfl
  · rw [node?, Keyed.value?_alter hg, if_neg hp]
    rfl

/-- There is the new node, and there are those of before. -/
theorem contains_addNode (g : ModuleGraph) (hg : g.nodes.Ascending) (node : ModuleNode) (p : Path) :
    (g.addNode node).contains p = (node.id.same p || g.contains p) := by
  unfold addNode
  split
  · next h =>
    by_cases hp : node.id.same p
    · rw [← contains_congr hp, h, hp, Bool.true_or]
    · simp [hp]
  · exact Keyed.holds_alter hg node.id _ p

/-- An entry for a new node, to which no edge leads, keeps an index exact. -/
theorem Indexes.alter_new {index : Keyed (List Nat)} {theEnd : Edge → Path} {g' : ModuleGraph}
    (h : Indexes index g theEnd) (hends : ∀ e ∈ g.edges, g.contains (theEnd e)) {id : Path}
    (hnew : ¬ g.contains id) (hedges : g'.edges = g.edges)
    (hcontains : ∀ p, g'.contains p = (id.same p || g.contains p)) :
    Indexes (index.alter id (·.getD [])) g' theEnd where
  ascending := Keyed.ascending_alter h.ascending id _
  value? p := by
    rw [Keyed.value?_alter h.ascending, hedges, hcontains, h.value?, if_neg hnew, h.value?]
    by_cases hp : id.same p
    · -- the new entry is empty, and rightly so: an edge there would end at what was no node
      have hnone : placesOf theEnd g.edges p = [] := by
        refine placesOf_eq_nil fun e he hsame => hnew ?_
        rw [contains_congr (Path.same_trans hp (Path.same_symm hsame))]
        exact hends e he
      rw [if_pos hp, hp, Bool.true_or, if_pos rfl, hnone, Option.getD_none]
    · simp [hp]

/-- Adding a node keeps edges and indexes in step: a new node begins with no edges in either
index. -/
theorem Joined.addNode (h : Joined g) (node : ModuleNode) : Joined (g.addNode node) := by
  have hcontains := contains_addNode g h.ascending node
  by_cases hnew : g.contains node.id
  · rwa [ModuleGraph.addNode, if_pos hnew]
  · rw [ModuleGraph.addNode, if_neg hnew] at hcontains ⊢
    refine ⟨⟨Keyed.ascending_alter h.ascending _ _, ?_, ?_, ?_⟩, ?_, ?_⟩
    · -- of the nodes only the new one has come, at its own path
      intro kn hkn
      rcases List.mem_cons.mp ((Keyed.perm_alter_of_new hnew _).mem_iff.mp hkn) with rfl | hkn
      · rfl
      · exact h.keyed kn hkn
    · exact h.leaving.alter_new h.source_mem hnew rfl hcontains
    · exact h.arriving.alter_new h.target_mem hnew rfl hcontains
    · intro e he
      rw [hcontains, h.source_mem e he, Bool.or_true]
    · intro e he
      rw [hcontains, h.target_mem e he, Bool.or_true]

/-! ### Adding edges -/

/-- No end is missing when both are nodes. -/
theorem missingEnd?_eq_none {e : Edge} :
    g.missingEnd? e = none ↔ g.contains e.source ∧ g.contains e.target := by
  simp [missingEnd?, List.find?_eq_none]

/-- A new last edge, noted at its end, keeps an index exact. -/
theorem Indexes.alter_edge {index : Keyed (List Nat)} {theEnd : Edge → Path} {g' : ModuleGraph}
    (h : Indexes index g theEnd) {e : Edge} (hend : g.contains (theEnd e))
    (hedges : g'.edges = g.edges ++ [e]) (hcontains : ∀ p, g'.contains p = g.contains p) :
    Indexes (index.alter (theEnd e) (notePlace g.edges.length)) g' theEnd where
  ascending := Keyed.ascending_alter h.ascending _ _
  value? p := by
    rw [Keyed.value?_alter h.ascending, hedges, hcontains, h.value?, if_pos hend, h.value?,
      placesOf_append]
    -- only the entry of the end itself gets a place more, and it was there before
    by_cases hp : (theEnd e).same p
    · rw [if_pos hp, ← contains_congr hp, if_pos hend, if_pos hp, ← placesOf_congr hp]
      rfl
    · rw [if_neg hp, if_neg hp, List.append_nil]

/-- An edge between nodes is put at the end of the list, and its place into both indexes. -/
theorem Joined.pushEdge (h : Joined g) {e : Edge} (hsource : g.contains e.source)
    (htarget : g.contains e.target) : Joined (g.pushEdge e) where
  ascending := h.ascending
  keyed := h.keyed
  leaving := h.leaving.alter_edge hsource rfl fun _ => rfl
  arriving := h.arriving.alter_edge htarget rfl fun _ => rfl
  source_mem := by
    intro f hf
    -- an edge of before, or the new one
    rcases List.mem_append.mp hf with hf | hf
    · exact h.source_mem f hf
    · rwa [List.mem_singleton.mp hf]
  target_mem := by
    intro f hf
    rcases List.mem_append.mp hf with hf | hf
    · exact h.target_mem f hf
    · rwa [List.mem_singleton.mp hf]

/-- An edge is looked for among those of its source, where any that is the same would be. -/
theorem Joined.any_outgoing (h : Joined g) (e : Edge) :
    (g.outgoing e.source).any (·.same e) ↔ ∃ f ∈ g.edges, f.same e := by
  rw [h.outgoing_eq, List.any_eq_true]
  constructor
  · rintro ⟨f, hf, hsame⟩
    exact ⟨f, (List.mem_filter.mp hf).1, hsame⟩
  · rintro ⟨f, hf, hsame⟩
    exact ⟨f, List.mem_filter.mpr ⟨hf, (Edge.ends_same_of_same hsame).1⟩, hsame⟩

/-- An edge with an end that is no node is refused. -/
theorem addEdge_of_missing {e : Edge} (h : ¬ (g.contains e.source ∧ g.contains e.target)) :
    ∃ id, g.addEdge e = .error (.missingEndpoint id) := by
  obtain ⟨id, hid⟩ := Option.ne_none_iff_exists'.mp (mt missingEnd?_eq_none.mp h)
  exact ⟨id, by rw [addEdge, hid]⟩

/-- One that is there already changes nothing. -/
theorem Joined.addEdge_of_old (h : Joined g) {e : Edge}
    (hends : g.contains e.source ∧ g.contains e.target) (hold : ∃ f ∈ g.edges, f.same e) :
    g.addEdge e = .ok (g, false) := by
  rw [addEdge, missingEnd?_eq_none.mpr hends]
  simp only [(h.any_outgoing e).mpr hold, if_true]

/-- Any other one is added. -/
theorem Joined.addEdge_of_new (h : Joined g) {e : Edge}
    (hends : g.contains e.source ∧ g.contains e.target) (hnew : ∀ f ∈ g.edges, ¬ f.same e) :
    g.addEdge e = .ok (g.pushEdge e, true) := by
  have hany : ¬ (g.outgoing e.source).any (·.same e) := by
    rintro hany
    obtain ⟨f, hf, hsame⟩ := (h.any_outgoing e).mp hany
    exact hnew f hf hsame
  rw [addEdge, missingEnd?_eq_none.mpr hends]
  simp only [hany, Bool.false_eq_true, if_false]

/-- Adding an edge changes the graph only where both ends are nodes and the edge is new; then it is
the last edge from now on. -/
theorem Joined.apply_addEdge (h : Joined g) (e : Edge) :
    (Change.addEdge e).apply g =
      if (g.contains e.source ∧ g.contains e.target) ∧ ∀ f ∈ g.edges, ¬ f.same e then g.pushEdge e
      else g := by
  by_cases hends : g.contains e.source ∧ g.contains e.target
  · -- both ends are nodes, so all depends on whether the edge is there already
    by_cases hnew : ∀ f ∈ g.edges, ¬ f.same e
    · simp only [Change.apply, h.addEdge_of_new hends hnew]
      rw [if_pos ⟨hends, hnew⟩]
    · have hold : ∃ f ∈ g.edges, f.same e := by simpa using hnew
      simp only [Change.apply, h.addEdge_of_old hends hold]
      rw [if_neg fun hc => hnew hc.2]
  · obtain ⟨id, hid⟩ := addEdge_of_missing hends
    -- the fault names one of the ends, and it does not matter which
    simp only [Change.apply, hid]
    rw [if_neg fun hc => hends hc.1]

/-- A new edge leaves the edges distinct. -/
theorem Sound.pushEdge (h : Sound g) {e : Edge} (hsource : g.contains e.source)
    (htarget : g.contains e.target) (hnew : ∀ f ∈ g.edges, ¬ f.same e) : Sound (g.pushEdge e) where
  toJoined := h.toJoined.pushEdge hsource htarget
  distinct := by
    refine List.pairwise_append.mpr ⟨h.distinct, List.pairwise_singleton _ _, ?_⟩
    intro f hf f' hf'
    rw [List.mem_singleton.mp hf']
    exact hnew f hf

/-! ### Making the indexes anew -/

/-- Noting the places of edges, from `k` on, adds them to the entries that an index has. -/
theorem value?_foldl_update (theEnd : Edge → Path) (es : List Edge) (k : Nat)
    (index : Keyed (List Nat)) (p : Path) :
    ((es.zipIdx k).foldl (fun index x => index.update (theEnd x.1) (· ++ [x.2])) index).value? p =
      (index.value? p).map (· ++ placesFrom theEnd k es p) := by
  -- the first edge notes its place, and the others are noted from the next place on
  induction es generalizing k index with
  | nil => simp [placesFrom]
  | cons e es ih =>
    rw [List.zipIdx_cons, List.foldl_cons, ih, Keyed.value?_update, placesFrom_cons]
    by_cases hp : (theEnd e).same p
    · rw [if_pos hp, if_pos hp, Option.map_map]
      refine congrArg (Option.map · _) (funext fun places => ?_)
      exact List.append_assoc _ _ _
    · rw [if_neg hp, if_neg hp, List.nil_append]

/-- Filling an index keeps its keys in order. -/
theorem ascending_foldl_update (theEnd : Edge → Path) (xs : List (Edge × Nat))
    (index : Keyed (List Nat)) (h : index.Ascending) :
    Keyed.Ascending
      (xs.foldl (fun index x => index.update (theEnd x.1) (· ++ [x.2])) index) := by
  induction xs generalizing index with
  | nil => exact h
  | cons x xs ih => exact ih _ (Keyed.ascending_update h _ _)

/-- An index begins with no places for each node. -/
theorem value?_blank (nodes : Keyed ModuleNode) (p : Path) :
    Keyed.value? (nodes.map fun (k, _) => (k, ([] : List Nat))) p =
      if nodes.holds p then some [] else none := by
  induction nodes with
  | nil => rfl
  | cons kn nodes ih =>
    rw [List.map_cons, Keyed.value?_cons, ih, Keyed.holds_cons]
    by_cases hp : kn.1.same p <;> simp [hp]

/-- An index that is made anew is right for the edges that are there. -/
theorem indexes_indexBy (hg : g.nodes.Ascending) (theEnd : Edge → Path) :
    Indexes (g.indexBy theEnd) g theEnd where
  ascending := by
    refine ascending_foldl_update theEnd _ _ ?_
    simpa [Keyed.Ascending, Function.comp_def] using hg
  value? p := by
    rw [indexBy, value?_foldl_update, value?_blank]
    simp only [contains, placesOf]
    by_cases hp : g.nodes.holds p <;> simp [hp]

/-- A graph with its indexes made anew has exact ones, whatever its edges. -/
theorem Indexed.reindex (hasc : g.nodes.Ascending) (hkeyed : ∀ kn ∈ g.nodes, kn.2.id = kn.1) :
    Indexed g.reindex where
  ascending := hasc
  keyed := hkeyed
  leaving := ⟨(indexes_indexBy hasc _).ascending, (indexes_indexBy hasc _).value?⟩
  arriving := ⟨(indexes_indexBy hasc _).ascending, (indexes_indexBy hasc _).value?⟩

/-! ### Other edges -/

/-- What is kept of a list of edges joins nodes, each edge once. -/
theorem keepEdges_spec (g : ModuleGraph) (es : List Edge) :
    (∀ e ∈ g.keepEdges es, g.contains e.source ∧ g.contains e.target) ∧
      (g.keepEdges es).Pairwise fun e f => ¬ e.same f := by
  -- the induction is on the list, with what has been kept so far
  suffices h : ∀ (es kept : List Edge),
      ((∀ e ∈ kept, g.contains e.source ∧ g.contains e.target) ∧
        kept.Pairwise fun e f => ¬ e.same f) →
      ((∀ e ∈ es.foldl (fun kept e =>
          if (g.missingEnd? e).isNone && !kept.any (·.same e) then kept ++ [e] else kept) kept,
        g.contains e.source ∧ g.contains e.target) ∧
        (es.foldl (fun kept e =>
          if (g.missingEnd? e).isNone && !kept.any (·.same e) then kept ++ [e] else kept)
          kept).Pairwise fun e f => ¬ e.same f) from
    h es [] ⟨by simp, .nil⟩
  intro es
  induction es with
  | nil => exact fun kept h => h
  | cons e es ih =>
    intro kept ⟨hends, hdistinct⟩
    rw [List.foldl_cons]
    split
    · next hc =>
      simp only [Bool.and_eq_true, Option.isNone_iff_eq_none, missingEnd?_eq_none] at hc
      refine ih _ ⟨fun f hf => ?_, ?_⟩
      · rcases List.mem_append.mp hf with hf | hf
        · exact hends f hf
        · rw [List.mem_singleton.mp hf]
          exact hc.1
      · -- what is kept has no edge that is the same, or the new one would not be kept
        refine List.pairwise_append.mpr ⟨hdistinct, List.pairwise_singleton _ _, ?_⟩
        intro f hf f' hf' hsame
        rw [List.mem_singleton.mp hf'] at hsame
        have hany : kept.any (·.same e) := List.any_eq_true.mpr ⟨f, hf, hsame⟩
        simp [hany] at hc
    · exact ih _ ⟨hends, hdistinct⟩

/-- Edges are kept one by one: the last one when its ends are there and none of those kept is the
same. -/
theorem keepEdges_concat (g : ModuleGraph) (es : List Edge) (e : Edge) :
    g.keepEdges (es ++ [e]) =
      if (g.missingEnd? e).isNone && !(g.keepEdges es).any (·.same e) then g.keepEdges es ++ [e]
      else g.keepEdges es := by
  rw [keepEdges, List.foldl_append]
  rfl

/-- Of edges that join nodes, and of which no two differ in texts only, none is dropped. -/
theorem mem_keepEdges {es : List Edge} {f : Edge}
    (hends : ∀ e ∈ es, g.contains e.source ∧ g.contains e.target)
    (hsame : ∀ e ∈ es, ∀ e' ∈ es, e.same e' → e = e') : f ∈ g.keepEdges es ↔ f ∈ es := by
  induction es using List.reverseRecOn generalizing f with
  | nil => rfl
  | append_singleton es e ih =>
    have ih : ∀ {f}, f ∈ g.keepEdges es ↔ f ∈ es :=
      ih (fun e' he' => hends e' (List.mem_append_left _ he')) fun e' he' e'' he'' =>
        hsame e' (List.mem_append_left _ he') e'' (List.mem_append_left _ he'')
    have hmissing : g.missingEnd? e = none := missingEnd?_eq_none.mpr (hends e (by simp))
    rw [keepEdges_concat, hmissing, List.mem_append, List.mem_singleton]
    split
    · rw [List.mem_append, List.mem_singleton, ih]
    · next hany =>
      -- what is not kept is the same as an edge that is there already, so it is that edge
      obtain ⟨e', he', hsame'⟩ : ∃ e' ∈ g.keepEdges es, e'.same e := by simpa using hany
      have heq := hsame e' (List.mem_append_left _ (ih.mp he')) e (by simp) hsame'
      rw [ih]
      refine ⟨.inl, ?_⟩
      rintro (hf | rfl)
      · exact hf
      · exact heq ▸ ih.mp he'

/-- Whatever the edges are that take the place of the old ones, the graph is sound. -/
theorem Indexed.replaceEdges (h : Indexed g) (es : List Edge) : Sound (g.replaceEdges es) where
  toIndexed := Indexed.reindex h.ascending h.keyed
  source_mem := fun e he => ((keepEdges_spec g es).1 e he).1
  target_mem := fun e he => ((keepEdges_spec g es).1 e he).2
  distinct := (keepEdges_spec g es).2

theorem finalize_perm (g : ModuleGraph) : g.finalize.edges.Perm g.edges :=
  List.mergeSort_perm _ _

/-- Sorting keeps the edges, and the indexes are made anew. -/
theorem Joined.finalize (h : Joined g) : Joined g.finalize where
  toIndexed := Indexed.reindex h.ascending h.keyed
  source_mem := fun e he => h.source_mem e ((finalize_perm g).mem_iff.mp he)
  target_mem := fun e he => h.target_mem e ((finalize_perm g).mem_iff.mp he)

/-- It keeps them distinct too. -/
theorem Sound.finalize (h : Sound g) : Sound g.finalize where
  toJoined := h.toJoined.finalize
  distinct :=
    ((finalize_perm g).pairwise_iff fun hef hfe => hef (Edge.same_symm hfe)).mpr h.distinct

/-- What a graph says of itself is no part of the invariant. -/
theorem Sound.describe (h : Sound g) (language generatedAt : String) :
    Sound { g with language, generatedAt } where
  ascending := h.ascending
  keyed := h.keyed
  leaving := ⟨h.leaving.ascending, h.leaving.value?⟩
  arriving := ⟨h.arriving.ascending, h.arriving.value?⟩
  source_mem := h.source_mem
  target_mem := h.target_mem
  distinct := h.distinct

/-- The entries have nothing to do with nodes and edges. -/
theorem Sound.assignEntries (h : Sound g) (entries : List Path) : Sound { g with entries } where
  ascending := h.ascending
  keyed := h.keyed
  leaving := ⟨h.leaving.ascending, h.leaving.value?⟩
  arriving := ⟨h.arriving.ascending, h.arriving.value?⟩
  source_mem := h.source_mem
  target_mem := h.target_mem
  distinct := h.distinct

/-! ### Changing nodes -/

/-- Overwriting a node keeps its key. -/
theorem contains_updateNode (g : ModuleGraph) (id : Path) (f : ModuleNode → ModuleNode) (p : Path) :
    (g.updateNode id f).contains p = g.contains p :=
  Keyed.holds_update g.nodes id f p

/-- So the indexes stay right. -/
theorem Indexes.updateNode {index : Keyed (List Nat)} {theEnd : Edge → Path}
    (h : Indexes index g theEnd) (id : Path) (f : ModuleNode → ModuleNode) :
    Indexes index (g.updateNode id f) theEnd where
  ascending := h.ascending
  value? p := by
    rw [contains_updateNode]
    exact h.value? p

/-- A node may be overwritten by one with the same identifier. -/
theorem Joined.updateNode (h : Joined g) (id : Path) {f : ModuleNode → ModuleNode}
    (hf : ∀ n, (f n).id = n.id) : Joined (g.updateNode id f) where
  ascending := Keyed.ascending_update h.ascending id f
  keyed := by
    intro kn hkn
    obtain ⟨⟨k, n⟩, hmem, rfl⟩ := List.mem_map.mp hkn
    dsimp only
    split
    · -- the node itself, which has kept its identifier, or another one
      rw [hf]
      exact h.keyed _ hmem
    · exact h.keyed _ hmem
  leaving := h.leaving.updateNode id f
  arriving := h.arriving.updateNode id f
  source_mem := fun e he => by
    rw [contains_updateNode]
    exact h.source_mem e he
  target_mem := fun e he => by
    rw [contains_updateNode]
    exact h.target_mem e he

/-- The edges stay, so they stay distinct. -/
theorem Sound.updateNode (h : Sound g) (id : Path) {f : ModuleNode → ModuleNode}
    (hf : ∀ n, (f n).id = n.id) : Sound (g.updateNode id f) where
  toJoined := h.toJoined.updateNode id hf
  distinct := h.distinct

/-- A new node changes no edge, so the edges stay distinct. -/
theorem Sound.addNode (h : Sound g) (node : ModuleNode) : Sound (g.addNode node) where
  toJoined := h.toJoined.addNode node
  distinct := by
    rw [(addNode_keeps g node).2.2]
    exact h.distinct

/-- New nodes that differ from each other are all added. -/
theorem foldl_addNode (language : String) (ids : List Path) (g : ModuleGraph) (hg : g.Sound)
    (hnew : ∀ p ∈ ids, ¬ g.contains p) (hids : ids.Pairwise fun p q => ¬ p.same q) :
    let g' := ids.foldl (fun g id => g.addNode { id, language }) g
    g'.Sound ∧ (g'.root = g.root ∧ g'.entries = g.entries ∧ g'.edges = g.edges) ∧
      (g'.nodes.map (·.1)).Perm (ids ++ g.nodes.map (·.1)) := by
  induction ids generalizing g with
  | nil => exact ⟨hg, ⟨rfl, rfl, rfl⟩, .refl _⟩
  | cons id ids ih =>
    obtain ⟨hid, hids⟩ := List.pairwise_cons.mp hids
    obtain ⟨hnewId, hnew⟩ := List.forall_mem_cons.mp hnew
    -- the others are still new, since they differ from this one
    have hnew' : ∀ p ∈ ids, ¬ (g.addNode { id, language }).contains p := by
      intro p hp
      rw [contains_addNode g hg.ascending, Bool.or_eq_true, not_or]
      exact ⟨hid p hp, hnew p hp⟩
    obtain ⟨hsound, ⟨hroot, hentries, hedges⟩, hperm⟩ := ih _ (hg.addNode _) hnew' hids
    obtain ⟨hroot', hentries', hedges'⟩ := addNode_keeps g { id, language }
    refine ⟨hsound, ⟨hroot.trans hroot', hentries.trans hentries', hedges.trans hedges'⟩, ?_⟩
    have hone := nodes_perm_addNode { id, language } hnewId
    exact (hperm.trans (hone.append_left ids)).trans List.perm_middle

/-! ### Steps and runs -/

/-- **Invariant preservation.** Every change keeps a graph sound. -/
theorem Sound.apply (h : Sound g) (c : Change) : Sound (c.apply g) := by
  cases c with
  | addNode node => exact h.addNode node
  | addEdge e =>
    rw [h.toJoined.apply_addEdge e]
    split
    · next hc => exact h.pushEdge hc.1.1 hc.1.2 hc.2
    · exact h
  | replaceEdges es => exact h.toIndexed.replaceEdges es
  | finalize => exact h.finalize
  | setErrors id errors => exact h.updateNode id fun _ => rfl

/-- Whatever the changes, a graph is sound after them. -/
theorem sound_ofChanges (root : Path) (changes : List Change) : Sound (ofChanges root changes) := by
  suffices h : ∀ (changes : List Change) (g : ModuleGraph), Sound g →
      Sound (changes.foldl Change.apply g) from h changes _ (.empty root [])
  intro changes
  induction changes with
  | nil => exact fun g h => h
  | cons c changes ih => exact fun g h => ih _ (h.apply c)

/-- **Exact indexes after every sequence of changes.** The ends of edges are nodes and no edge
stands twice. What leaves and reaches a module is what a search through all edges finds, in their
order. Dependencies and dependents ascend and are each other's converse. An edge is added exactly
when its ends are nodes and it is new; otherwise the graph stays what it was, and so do all its
answers. -/
theorem queries_ofChanges (root : Path) (changes : List Change) :
    let g := ofChanges root changes
    (∀ e ∈ g.edges, g.contains e.source ∧ g.contains e.target) ∧
    (g.edges.Pairwise fun e f => ¬ e.same f) ∧
    (∀ id, g.outgoing id = g.edges.filter (·.source.same id) ∧
      g.incoming id = g.edges.filter (·.target.same id)) ∧
    (∀ id, Path.Ascending (g.dependencies id) ∧ Path.Ascending (g.dependents id)) ∧
    (∀ p q, (q.among (g.dependencies p) ↔ p.among (g.dependents q)) ∧
      (q.among (g.dependencies p) ↔ ∃ e ∈ g.edges, e.source.same p ∧ e.target.same q)) ∧
    ∀ e, ((∃ h, g.addEdge e = .ok (h, true)) ↔
        (g.contains e.source ∧ g.contains e.target) ∧ ∀ f ∈ g.edges, ¬ f.same e) ∧
      ((¬ ∃ h, g.addEdge e = .ok (h, true)) → (Change.addEdge e).apply g = g) := by
  intro g
  have h : Sound g := sound_ofChanges root changes
  refine ⟨fun e he => ⟨h.source_mem e he, h.target_mem e he⟩, h.distinct,
    fun id => ⟨h.outgoing_eq id, h.incoming_eq id⟩,
    fun id => ⟨Path.ascending_distinct _, Path.ascending_distinct _⟩,
    fun p q => ⟨?_, h.among_dependencies p q⟩, fun e => ?_⟩
  · rw [h.among_dependencies, h.among_dependents]
  · -- that an edge is added says of it what the definition asks, and so does that it is not
    have hiff : (∃ h, g.addEdge e = .ok (h, true)) ↔
        (g.contains e.source ∧ g.contains e.target) ∧ ∀ f ∈ g.edges, ¬ f.same e := by
      constructor
      · rintro ⟨g', hg'⟩
        have hends : g.contains e.source ∧ g.contains e.target := by
          by_contra hends
          obtain ⟨id, hid⟩ := addEdge_of_missing hends
          simp [hid] at hg'
        refine ⟨hends, fun f hf hsame => ?_⟩
        simp [h.addEdge_of_old hends ⟨f, hf, hsame⟩] at hg'
      · rintro ⟨hends, hnew⟩
        exact ⟨_, h.addEdge_of_new hends hnew⟩
    refine ⟨hiff, fun hnot => ?_⟩
    rw [h.apply_addEdge, if_neg (mt hiff.mpr hnot)]

end ModuleGraph

end ImportAtlas
