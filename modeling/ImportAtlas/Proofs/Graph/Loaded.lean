import ImportAtlas.Proofs.Graph.Saved

/-!
# What can be loaded

Reading a graph from a text checks the shape of every part and nothing that the parts say of each
other. So the graphs that can be loaded are all those whose table of nodes is in order, whose parts
are well-formed and whose indexes are made of their edges (`ModuleGraph.exists_load_iff`): an edge
may end where there is no node, a node may be kept at a path that is not its own, and an edge may
stand twice. `ModuleGraph.load_unjoined` is a graph with all three.

* `ModuleGraph.Loadable` — what is known of a graph that was loaded;
* `ImportRecord.wellFormed_of_ofJson?` and its like — what is read is well-formed;
* `Loadable.outgoing_eq`, `Loadable.incoming_eq` — the answers of such a graph: of a node the edges
  that a search finds, and of anything else none;
* `Loadable.contains_dependencies_iff`, `Loadable.contains_dependents_iff` — these name nodes only
  exactly if edges lead from nodes to nodes only, one way and the other.
-/

namespace ImportAtlas

/-! ### Parts -/

/-- What is read of a list is read of its members. -/
theorem exists_of_mem_mapM {α β : Type} {f : α → Option β} {xs : List α} {ys : List β}
    (h : xs.mapM f = some ys) {y : β} (hy : y ∈ ys) : ∃ x ∈ xs, f x = some y := by
  induction xs generalizing ys with
  | nil =>
    cases h
    exact absurd hy List.not_mem_nil
  | cons x xs ih =>
    rw [List.mapM_cons] at h
    -- all are read, the first and the others
    obtain ⟨z, hz, h⟩ := Option.bind_eq_some_iff.mp h
    obtain ⟨zs, hzs, h⟩ := Option.bind_eq_some_iff.mp h
    cases h
    rcases List.mem_cons.mp hy with rfl | hy
    · exact ⟨x, List.mem_cons_self, hz⟩
    · obtain ⟨x', hx', hf⟩ := ih hzs hy
      exact ⟨x', List.mem_cons_of_mem _ hx', hf⟩

namespace Json

/-- Each element of a list that is read is read from something. -/
theorem exists_of_mem_listOf? {α : Type} {f : Json → Option α} {j : Json} {xs : List α}
    (h : j.listOf? f = some xs) {x : α} (hx : x ∈ xs) : ∃ j, f j = some x := by
  obtain ⟨items, -, hitems⟩ := Option.bind_eq_some_iff.mp h
  obtain ⟨item, -, hitem⟩ := exists_of_mem_mapM hitems hx
  exact ⟨item, hitem⟩

/-- Numbers are read as machine words. -/
theorem natural?_lt {j : Json} {n : Nat} (h : j.natural? = some n) : n < Nat.pow 2 64 := by
  unfold natural? at h
  split at h
  · split at h
    · split at h
      · split at h
        · next hlt =>
          cases h
          exact hlt
        · cases h
      · cases h
    · cases h
  · cases h

end Json

/-- Sets are made anew, so they are sorted whatever the order of the text. -/
theorem NameSet.ascending_of_ofJson? {j : Json} {s : NameSet} (h : NameSet.ofJson? j = some s) :
    s.Ascending := by
  obtain ⟨names, -, rfl⟩ := Option.map_eq_some_iff.mp h
  exact NameSet.ascending_ofList names

/-- What a record is read from gives numbers in range and sorted names. -/
theorem ImportRecord.wellFormed_of_ofJson? {j : Json} {r : ImportRecord}
    (h : ImportRecord.ofJson? j = some r) : r.WellFormed := by
  obtain ⟨f, -, hf⟩ := Option.bind_eq_some_iff.mp h
  split at hf
  · simp only [bind, Option.bind_eq_some_iff] at hf
    obtain ⟨_, _, _, _, depth, hdepth, names, hnames, _, _, _, _, _, _, line, hline, hr⟩ := hf
    cases hr
    exact ⟨Json.natural?_lt hdepth, Json.natural?_lt hline, NameSet.ascending_of_ofJson? hnames⟩
  · cases hf

/-- A node that is read from a value has records with numbers in range and sorted names. -/
theorem ModuleNode.wellFormed_of_ofJson? {j : Json} {n : ModuleNode}
    (h : ModuleNode.ofJson? j = some n) : n.WellFormed := by
  obtain ⟨f, -, hf⟩ := Option.bind_eq_some_iff.mp h
  split at hf
  · simp only [bind, Option.bind_eq_some_iff] at hf
    obtain ⟨_, _, _, _, imports, himports, _, _, hn⟩ := hf
    cases hn
    intro r hr
    obtain ⟨j, hj⟩ := Json.exists_of_mem_listOf? himports hr
    exact ImportRecord.wellFormed_of_ofJson? hj
  · cases hf

/-- An edge that is read from a value has its symbols sorted. -/
theorem Edge.wellFormed_of_ofJson? {j : Json} {e : Edge} (h : Edge.ofJson? j = some e) :
    e.WellFormed := by
  obtain ⟨f, -, hf⟩ := Option.bind_eq_some_iff.mp h
  split at hf
  · simp only [bind, Option.bind_eq_some_iff] at hf
    obtain ⟨_, _, _, _, symbols, hsymbols, _, _, he⟩ := hf
    cases he
    exact NameSet.ascending_of_ofJson? hsymbols
  · cases hf

/-! ### Tables -/

namespace Keyed

variable {α : Type} {m : Keyed α}

/-- The values of a written table are those of the table and the one that is written. -/
theorem snd_mem_alter {p : Path} {a : α} {b : Path × α} (h : b ∈ m.alter p fun _ => a) :
    b.2 = a ∨ b.2 ∈ m.map (·.2) := by
  induction m with
  | nil =>
    rw [alter, List.mem_singleton] at h
    exact .inl (congrArg Prod.snd h)
  | cons c m ih =>
    -- the new entry comes before the first, in its place or behind it
    simp only [alter] at h
    split at h <;> rcases List.mem_cons.mp h with rfl | h
    · exact .inl rfl
    · exact .inr (List.mem_map_of_mem h)
    · exact .inl rfl
    · exact .inr (List.mem_map_of_mem (List.mem_cons_of_mem _ h))
    · exact .inr (by simp)
    · exact (ih h).imp id (by simp_all)

/-- A table that is written entry by entry is in order, and has values of the entries only. -/
theorem foldl_alter_spec (entries : List (Path × α)) (hm : m.Ascending) :
    Ascending (entries.foldl (fun kept b => alter b.1 (fun _ => b.2) kept) m) ∧
      ∀ c ∈ entries.foldl (fun kept b => alter b.1 (fun _ => b.2) kept) m,
        c.2 ∈ entries.map (·.2) ∨ c.2 ∈ m.map (·.2) := by
  induction entries generalizing m with
  | nil => exact ⟨hm, fun c hc => .inr (List.mem_map_of_mem hc)⟩
  | cons b entries ih =>
    obtain ⟨hasc, hmem⟩ := ih (ascending_alter hm b.1 fun _ => b.2)
    refine ⟨hasc, fun c hc => ?_⟩
    -- what is held is one of the later entries, the first or one of before
    rcases hmem c hc with hc | hc
    · exact .inl (List.mem_cons_of_mem _ hc)
    · obtain ⟨d, hd, hdc⟩ := List.mem_map.mp hc
      rw [← hdc]
      rcases snd_mem_alter hd with heq | hd
      · exact .inl (heq ▸ List.mem_cons_self)
      · exact .inr hd

end Keyed

namespace ModuleGraph

variable {g : ModuleGraph} {p q : Path}

/-! ### Graphs that can be loaded -/

/-- What is known of a graph that was loaded: its nodes are in order, its parts are well-formed, and
its indexes are made of its edges. -/
structure Loadable (g : ModuleGraph) : Prop where
  ascending : g.nodes.Ascending
  wellFormed : g.WellFormed
  reindexed : g.reindex = g

/-- The nodes that are read are sorted by their keys, and well-formed. -/
theorem nodes_of_nodesOfJson? {j : Json} {nodes : Keyed ModuleNode}
    (h : nodesOfJson? j = some nodes) :
    nodes.Ascending ∧ ∀ kn ∈ nodes, kn.2.WellFormed := by
  obtain ⟨es, -, h⟩ := Option.bind_eq_some_iff.mp h
  obtain ⟨entries, hentries, h⟩ := Option.bind_eq_some_iff.mp h
  cases h
  obtain ⟨hasc, hmem⟩ := Keyed.foldl_alter_spec entries (m := []) .nil
  refine ⟨hasc, fun kn hkn => ?_⟩
  obtain ⟨entry, hentry, heq⟩ := List.mem_map.mp ((hmem kn hkn).resolve_right List.not_mem_nil)
  obtain ⟨kv, -, hread⟩ := exists_of_mem_mapM hentries hentry
  obtain ⟨n, hn, rfl⟩ := Option.map_eq_some_iff.mp hread
  rw [← heq]
  exact ModuleNode.wellFormed_of_ofJson? hn

/-- A graph that is read is one that can be loaded: its parts are well-formed and its indexes are
made anew. -/
theorem loadable_of_ofJson? {j : Json} (h : ofJson? j = some g) : g.Loadable := by
  obtain ⟨f, -, hf⟩ := Option.bind_eq_some_iff.mp h
  split at hf
  · obtain ⟨m, -, hm⟩ := Option.bind_eq_some_iff.mp hf
    split at hm
    · simp only [bind, Option.bind_eq_some_iff] at hm
      obtain ⟨_, _, _, _, nodes, hnodes, _, _, _, _, edges, hedges, hg⟩ := hm
      -- every part has been read, and the graph is made of them
      cases hg
      obtain ⟨hasc, hwell⟩ := nodes_of_nodesOfJson? hnodes
      refine ⟨hasc, ⟨hwell, fun e he => ?_⟩, rfl⟩
      obtain ⟨j, hj⟩ := Json.exists_of_mem_listOf? hedges he
      exact Edge.wellFormed_of_ofJson? hj
    · cases hm
  · cases hf

/-- What is loaded from a text is read from what the text is parsed to. -/
theorem loadable_of_load {text : String} (h : load text = .ok g) : g.Loadable := by
  rw [load] at h
  split at h
  · next hread =>
    cases h
    obtain ⟨j, -, hj⟩ := Option.bind_eq_some_iff.mp hread
    exact loadable_of_ofJson? hj
  · cases h

/-- The text of a graph whose parts are well-formed is read as the graph with its indexes made
anew, whatever its parts say of each other. -/
theorem load_save_of_wellFormed (hasc : g.nodes.Ascending) (hw : g.WellFormed) :
    load g.save = .ok g.reindex := by
  rw [load, save, Json.parse?_pretty (plain_toJson g), Option.bind_some, ofJson?_toJson hasc hw]

/-- **What can be loaded.** -/
theorem exists_load_iff (g : ModuleGraph) : (∃ text, load text = .ok g) ↔ g.Loadable := by
  constructor
  · rintro ⟨text, h⟩
    exact loadable_of_load h
  · rintro ⟨hasc, hw, hindexed⟩
    refine ⟨g.save, ?_⟩
    rw [load_save_of_wellFormed hasc hw, hindexed]

/-! ### Their answers -/

namespace Loadable

/-- A node has the edges that a search finds, and what is no node has none. -/
theorem edgesAt_eq {index : Keyed (List Nat)} {theEnd : Edge → Path} (hg : g.Loadable)
    (hindex : index = g.indexBy theEnd) (id : Path) :
    g.edgesAt index id = if g.contains id then g.edges.filter (theEnd · |>.same id) else [] := by
  rw [edgesAt, hindex, (indexes_indexBy hg.ascending theEnd).value?]
  split
  · exact filterMap_placesOf
  · rfl

/-- A graph that is loaded finds the edges from a node, and none from what is no node, even if there
are some. -/
theorem outgoing_eq (hg : g.Loadable) (id : Path) :
    g.outgoing id = if g.contains id then g.edges.filter (·.source.same id) else [] :=
  hg.edgesAt_eq (congrArg leaving hg.reindexed).symm id

/-- A graph that is loaded finds the edges to a node, and none to what is no node, even if there are
such edges. -/
theorem incoming_eq (hg : g.Loadable) (id : Path) :
    g.incoming id = if g.contains id then g.edges.filter (·.target.same id) else [] :=
  hg.edgesAt_eq (congrArg arriving hg.reindexed).symm id

/-- The dependencies are asked for at a node only. -/
theorem among_dependencies_iff (hg : g.Loadable) :
    q.among (g.dependencies p) ↔
      g.contains p ∧ ∃ e ∈ g.edges, e.source.same p ∧ e.target.same q := by
  rw [dependencies, Path.among_distinct, hg.outgoing_eq, Path.among_iff]
  split <;> simp_all [and_assoc]

/-- The dependents are asked for at a node only. -/
theorem among_dependents_iff (hg : g.Loadable) :
    p.among (g.dependents q) ↔
      g.contains q ∧ ∃ e ∈ g.edges, e.source.same p ∧ e.target.same q := by
  rw [dependents, Path.among_distinct, hg.incoming_eq, Path.among_iff]
  split
  · next hq =>
    simp only [hq, true_and, List.mem_map, List.mem_filter]
    constructor
    · rintro ⟨_, ⟨e, ⟨he, htarget⟩, rfl⟩, hsource⟩
      exact ⟨e, he, hsource, htarget⟩
    · rintro ⟨e, he, hsource, htarget⟩
      exact ⟨e.source, ⟨e, ⟨he, htarget⟩, rfl⟩, hsource⟩
  · simp_all

/-- Dependencies are nodes exactly if no edge leads from a node to anything else. -/
theorem contains_dependencies_iff (hg : g.Loadable) :
    (∀ p, ∀ q ∈ g.dependencies p, g.contains q) ↔
      ∀ e ∈ g.edges, g.contains e.source → g.contains e.target := by
  constructor
  · intro h e he hsource
    -- the target of an edge from a node is a dependency
    have hamong : e.target.among (g.dependencies e.source) :=
      hg.among_dependencies_iff.mpr ⟨hsource, e, he, Path.same_refl _, Path.same_refl _⟩
    obtain ⟨q, hq, hsame⟩ := Path.among_iff.mp hamong
    rw [← contains_congr hsame]
    exact h e.source q hq
  · intro h p q hq
    obtain ⟨hp, e, he, hsource, htarget⟩ := hg.among_dependencies_iff.mp (Path.among_of_mem hq)
    rw [← contains_congr htarget]
    exact h e he (contains_congr hsource ▸ hp)

/-- Dependents are nodes exactly if no edge leads to a node from anything else. -/
theorem contains_dependents_iff (hg : g.Loadable) :
    (∀ q, ∀ p ∈ g.dependents q, g.contains p) ↔
      ∀ e ∈ g.edges, g.contains e.target → g.contains e.source := by
  constructor
  · intro h e he htarget
    -- the source of an edge to a node is a dependent
    have hamong : e.source.among (g.dependents e.target) :=
      hg.among_dependents_iff.mpr ⟨htarget, e, he, Path.same_refl _, Path.same_refl _⟩
    obtain ⟨p, hp, hsame⟩ := Path.among_iff.mp hamong
    rw [← contains_congr hsame]
    exact h e.target p hp
  · intro h q p hp
    obtain ⟨hq, e, he, hsource, htarget⟩ := hg.among_dependents_iff.mp (Path.among_of_mem hp)
    rw [← contains_congr hsource]
    exact h e he (contains_congr htarget ▸ hq)

/-- What a loaded graph lacks of the invariant of a graph that has grown is what its parts say of
each other. -/
theorem sound_iff (hg : g.Loadable) :
    g.Sound ↔ (∀ kn ∈ g.nodes, kn.2.id = kn.1) ∧
      (∀ e ∈ g.edges, g.contains e.source ∧ g.contains e.target) ∧
      g.edges.Pairwise fun e f => ¬ e.same f := by
  constructor
  · intro h
    exact ⟨h.keyed, fun e he => ⟨h.source_mem e he, h.target_mem e he⟩, h.distinct⟩
  · rintro ⟨hkeyed, hends, hdistinct⟩
    have hindexed := hg.reindexed ▸ Indexed.reindex hg.ascending hkeyed
    exact ⟨⟨hindexed, fun e he => (hends e he).1, fun e he => (hends e he).2⟩, hdistinct⟩

end Loadable

/-- **Loaded graphs.** A graph can be loaded exactly if its nodes are in order, its parts are
well-formed and its indexes are made of its edges. It then keeps the invariant of a graph that has
grown exactly if, besides, its nodes are kept at their own paths, its edges join nodes and no edge
stands twice. A node has the edges that a search finds, and what is no node has none. So its
dependencies are nodes exactly if no edge leads from a node to anything else, and its dependents
exactly if no edge leads to a node from anything else. -/
theorem answers_of_load (g : ModuleGraph) :
    ((∃ text, load text = .ok g) ↔ g.nodes.Ascending ∧ g.WellFormed ∧ g.reindex = g) ∧
    ((∃ text, load text = .ok g) →
      (g.Sound ↔ (∀ kn ∈ g.nodes, kn.2.id = kn.1) ∧
        (∀ e ∈ g.edges, g.contains e.source ∧ g.contains e.target) ∧
        g.edges.Pairwise fun e f => ¬ e.same f) ∧
      (∀ id,
        g.outgoing id = (if g.contains id then g.edges.filter (·.source.same id) else []) ∧
        g.incoming id = if g.contains id then g.edges.filter (·.target.same id) else []) ∧
      ((∀ p, ∀ q ∈ g.dependencies p, g.contains q) ↔
        ∀ e ∈ g.edges, g.contains e.source → g.contains e.target) ∧
      ((∀ q, ∀ p ∈ g.dependents q, g.contains p) ↔
        ∀ e ∈ g.edges, g.contains e.target → g.contains e.source)) := by
  refine ⟨?_, fun h => ?_⟩
  · rw [exists_load_iff]
    exact ⟨fun h => ⟨h.ascending, h.wellFormed, h.reindexed⟩, fun ⟨hasc, hw, hindexed⟩ =>
      ⟨hasc, hw, hindexed⟩⟩
  · have hg := (exists_load_iff g).mp h
    exact ⟨hg.sound_iff, fun id => ⟨hg.outgoing_eq id, hg.incoming_eq id⟩,
      hg.contains_dependencies_iff, hg.contains_dependents_iff⟩

/-- A graph with one node and an edge from there to nothing can be loaded. -/
theorem answers_of_load_of_one :
    let node : ModuleNode := { id := ⟨"/p/a"⟩, language := "js" }
    let g : ModuleGraph :=
      { root := ⟨"/p"⟩, nodes := [(node.id, node)], edges := [⟨node.id, ⟨"/p/b"⟩, [], false⟩] }
    (∃ text, load text = .ok g.reindex) ∧ ¬ g.reindex.Sound ∧
      ¬ (∀ p, ∀ q ∈ g.reindex.dependencies p, g.contains q) ∧
      ∀ q, ∀ p ∈ g.reindex.dependents q, g.contains p := by
  intro node g
  obtain ⟨hiff, hanswers⟩ := answers_of_load g.reindex
  have hload : ∃ text, load text = .ok g.reindex :=
    hiff.mpr ⟨List.pairwise_singleton _ _, ⟨by simp [g, node, reindex, ModuleNode.WellFormed],
      by simp [g, reindex, Edge.WellFormed, NameSet.Ascending]⟩, rfl⟩
  obtain ⟨hsound, -, hdependencies, hdependents⟩ := hanswers hload
  refine ⟨hload, mt hsound.mp ?_, mt hdependencies.mp ?_, hdependents.mpr ?_⟩ <;> decide +kernel

/-- One node, kept at a path that is not its own, and twice the same edge from there to no node.
Each record is written as the list of its fields. -/
def unjoinedText : String :=
  "[\"/p\",[],\x7b\"/p/a\":[\"/p/c\",\"js\",[],[]]\x7d," ++
    "[[\"/p/a\",\"/p/b\",[],false],[\"/p/a\",\"/p/b\",[],false]],[\"js\",\"\"]]"

/-- Such a text is loaded, and the graph names a module that is none of its nodes. -/
theorem load_unjoined :
    ∃ g, load unjoinedText = .ok g ∧
      (¬ ∀ e ∈ g.edges, g.contains e.source ∧ g.contains e.target) ∧
      (¬ ∀ kn ∈ g.nodes, kn.2.id.same kn.1) ∧
      (¬ g.edges.Pairwise fun e f => ¬ e.same f) ∧
      g.dependencies ⟨"/p/a"⟩ = [⟨"/p/b"⟩] ∧ ¬ g.contains ⟨"/p/b"⟩ := by
  let node : ModuleNode := { id := ⟨"/p/c"⟩, language := "js" }
  let edge : Edge := { source := ⟨"/p/a"⟩, target := ⟨"/p/b"⟩ }
  let g : ModuleGraph :=
    { root := ⟨"/p"⟩, nodes := [(⟨"/p/a"⟩, node)], edges := [edge, edge], language := "js" }
  refine ⟨g.reindex, ?_⟩
  decide +kernel

end ModuleGraph

end ImportAtlas
