import ImportAtlas.Check
import ImportAtlas.Proofs.Graph.Cycles
import ImportAtlas.Proofs.Graph.Entropy
import ImportAtlas.Proofs.Path.Relative
import ImportAtlas.Report

/-!
# The names that modules are shown with

Reports, checks and cycles speak of modules by the names that they are shown with. Where all paths
are absolute, nothing is lost by that: joined to the root, the name of a module is its path again
(`ModuleGraph.join_displayName`), be it below the root, elsewhere, or the root itself. So modules
with one name are the same (`ModuleGraph.displayName_distinguishes`), and names that stand for
different modules differ (`ModuleGraph.nodup_names`).
-/

namespace ImportAtlas

namespace ModuleGraph

variable {g : ModuleGraph} {p q : Path}

/-! ### Reading names -/

theorem displayName_of_none (h : p.relativeTo? g.root = none) : g.displayName p = p.text := by
  rw [displayName, h]

/-- Below the root the name that is shown is the way from there. The root itself is shown by its
path. -/
theorem displayName_of_some {rel : Path} (h : p.relativeTo? g.root = some rel) :
    g.displayName p =
      if rel.text.isEmpty then p.text else "/".intercalate (rel.components.map Component.text) := by
  rw [displayName, h]

/-- **Names are read back.** Joined to the root, the name of a module is its path. -/
theorem join_displayName (hroot : g.root.isAbsolute) (hp : p.isAbsolute) :
    (g.root.join (g.displayName p)).same p := by
  -- outside of the root, and for the root itself, the name is the path as it was written
  have hwhole : (g.root.join p.text).same p := by
    rw [Path.join, if_pos (eq_of_beq hp)]
    exact Path.same_refl p
  cases hrel : p.relativeTo? g.root with
  | none => rwa [displayName_of_none hrel]
  | some rel =>
    rw [displayName_of_some hrel]
    split
    · exact hwhole
    · obtain ⟨hcomponents, hinner⟩ := Path.relativeTo?_spec hp hroot hrel
      rw [Path.same_iff, Path.components_join_intercalate
        (Path.text_ne_empty_of_isAbsolute hroot) hinner, hcomponents]

/-- Modules that are shown with one name are the same. -/
theorem same_of_displayName_eq (hroot : g.root.isAbsolute) (hp : p.isAbsolute) (hq : q.isAbsolute)
    (h : g.displayName p = g.displayName q) : p.same q := by
  have hread := join_displayName hroot hp
  rw [h] at hread
  exact Path.same_trans (Path.same_symm hread) (join_displayName hroot hq)

/-- The names of different modules differ. -/
theorem nodup_names (hroot : g.root.isAbsolute) {ps : List Path}
    (habsolute : ∀ p ∈ ps, p.isAbsolute)
    (hps : ps.Pairwise fun p q => ¬ p.same q) : (ps.map g.displayName).Nodup := by
  refine List.pairwise_map.mpr (hps.imp_of_mem fun hp hq hdiffer heq => hdiffer ?_)
  exact same_of_displayName_eq hroot (habsolute _ hp) (habsolute _ hq) heq

/-! ### Modules of a graph -/

/-- The paths of all nodes are absolute. -/
def Absolute (g : ModuleGraph) : Prop :=
  ∀ node ∈ g.nodes, node.2.id.isAbsolute

/-- In a graph of absolute paths whatever is a node is absolute. -/
theorem Absolute.of_contains (h : Absolute g) (hg : g.Indexed) (hp : g.contains p) :
    p.isAbsolute := by
  rw [contains, Keyed.holds_iff_among, Path.among_iff] at hp
  obtain ⟨k, hk, hsame⟩ := hp
  obtain ⟨node, hnode, rfl⟩ := List.mem_map.mp hk
  rw [← Path.isAbsolute_congr hsame, ← hg.keyed node hnode]
  exact h node hnode

/-- In a graph of absolute paths whatever is on a cycle is absolute, being a node. -/
theorem Absolute.of_among_cycle (h : Absolute g) (hg : g.Joined) {c : List Path} (hc : c ∈ g.cycles)
    (hp : p ∈ c) : p.isAbsolute :=
  h.of_contains hg.toIndexed <|
    hg.contains_of_leadsOn (hg.exists_cycle.mp ⟨c, hc, Path.among_of_mem hp⟩)

/-- No module of a cycle comes twice, in this cycle or in another one. -/
theorem Indexed.pairwise_flatten_cycles (hg : g.Indexed) :
    g.cycles.flatten.Pairwise fun p q => ¬ p.same q := by
  refine List.pairwise_flatten.mpr ⟨fun c hc => ?_, hg.disjoint_cycles.imp fun hdisjoint => ?_⟩
  · exact (hg.ascending_cycle hc).imp Path.not_same_of_lt
  · intro p hp q hq hsame
    refine hdisjoint p ⟨Path.among_of_mem hp, ?_⟩
    rw [Path.among_congr hsame]
    exact Path.among_of_mem hq

/-- The nodes of a graph have names of their own. -/
theorem Indexed.nodup_names_nodes (hg : g.Indexed) (hroot : g.root.isAbsolute)
    (habsolute : g.Absolute) : ((g.nodes.map (·.1)).map g.displayName).Nodup := by
  have hasc : (g.nodes.map (·.1)).Pairwise fun p q => p.order q = .lt := hg.ascending
  refine nodup_names hroot (fun p hp => ?_) (hasc.imp Path.not_same_of_lt)
  obtain ⟨node, hnode, rfl⟩ := List.mem_map.mp hp
  rw [← hg.keyed node hnode]
  exact habsolute node hnode

end ModuleGraph

namespace Report

variable {g : ModuleGraph}

/-- The rows of a report are about different modules. -/
theorem nodup_file_moduleRows (hg : g.Indexed) (hroot : g.root.isAbsolute) (habsolute : g.Absolute)
    (weighting : Weighting) (top : Nat) :
    ((moduleRows g (g.entropy weighting) top).map (·.file)).Nodup := by
  have hnames := hg.nodup_names_nodes hroot habsolute
  rw [List.map_map] at hnames
  -- the rows are those of the nodes, sorted and perhaps cut short
  unfold moduleRows
  rw [hg.perNode_eq, List.map_take]
  refine List.Nodup.sublist (List.take_sublist _ _) ?_
  refine ((List.mergeSort_perm _ _).map _).nodup_iff.mpr ?_
  rw [List.map_map, List.map_map]
  exact hnames

end Report

namespace RuleSet

/-- A violation names the modules that it is about. -/
theorem ends_of_violation? {s : RuleSet} {source target : String} {v : Violation}
    (h : s.violation? source target = some v) : v.source = source ∧ v.target = target := by
  unfold violation? at h
  cases hrule : s.decidingRule? source target with
  | none =>
    -- without a rule the default decides
    cases hdefault : s.default with
    | allow => simp [hrule, hdefault] at h
    | deny =>
      simp only [hrule, hdefault, Option.some.injEq] at h
      exact h ▸ ⟨rfl, rfl⟩
  | some rule =>
    -- the rule decides
    cases hpolicy : rule.2.spec.policy with
    | allow => simp [hrule, hpolicy] at h
    | deny =>
      simp only [hrule, hpolicy, Option.some.injEq] at h
      exact h ▸ ⟨rfl, rfl⟩

end RuleSet

namespace ModuleGraph

/-- **Names tell modules apart.** With an absolute root, absolute paths that are shown with one name
are the same, step by step. So in a graph of such paths no two modules are shown as one: two edges
that break the rules in the same way join the same modules, no name comes twice in the cycles of a
check, and no two rows of a report are about files of one name. -/
theorem displayName_distinguishes (g : ModuleGraph) (hroot : g.root.isAbsolute) :
    (∀ p q : Path, p.isAbsolute → q.isAbsolute → g.displayName p = g.displayName q → p.same q) ∧
    (g.Joined → g.Absolute →
      (∀ s : RuleSet, ∀ e ∈ g.edges, ∀ f ∈ g.edges, ∀ v,
        s.violation? (g.displayName e.source) (g.displayName e.target) = some v →
        s.violation? (g.displayName f.source) (g.displayName f.target) = some v →
        e.source.same f.source ∧ e.target.same f.target) ∧
      (∀ (s : RuleSet) (allowCycles : Bool), (s.check allowCycles g).cycles.flatten.Nodup) ∧
      ∀ (weighting : Weighting) (top : Nat),
        ((Report.moduleRows g (g.entropy weighting) top).map (·.file)).Nodup) := by
  refine ⟨fun p q hp hq => same_of_displayName_eq hroot hp hq, fun hg habsolute => ⟨?_, ?_, ?_⟩⟩
  · intro s e he f hf v hev hfv
    obtain ⟨hsource, htarget⟩ := RuleSet.ends_of_violation? hev
    obtain ⟨hsource', htarget'⟩ := RuleSet.ends_of_violation? hfv
    -- the ends of edges are modules of the graph, and all of these have absolute paths
    have hends {p q : Path} (hp : g.contains p) (hq : g.contains q) :
        g.displayName p = g.displayName q → p.same q :=
      same_of_displayName_eq hroot (habsolute.of_contains hg.toIndexed hp)
        (habsolute.of_contains hg.toIndexed hq)
    exact ⟨hends (hg.source_mem e he) (hg.source_mem f hf) (hsource.symm.trans hsource'),
      hends (hg.target_mem e he) (hg.target_mem f hf) (htarget.symm.trans htarget')⟩
  · intro s allowCycles
    cases allowCycles with
    | true => exact List.nodup_nil
    -- modules on cycles are different modules, so their names are different
    | false =>
      have hmem : ∀ p ∈ g.cycles.flatten, p.isAbsolute := by
        intro p hp
        obtain ⟨c, hc, hpc⟩ := List.mem_flatten.mp hp
        exact habsolute.of_among_cycle hg hc hpc
      have hcycles : (s.check false g).cycles.flatten = g.cycles.flatten.map g.displayName :=
        List.map_flatten.symm
      rw [hcycles]
      exact nodup_names hroot hmem hg.toIndexed.pairwise_flatten_cycles
  · exact Report.nodup_file_moduleRows hg.toIndexed hroot habsolute

/-- A module below the root, one beside it whose path begins with the same text, and the root
itself: each imports the next one, and the three that are in a cycle have three names. -/
theorem displayName_distinguishes_of_three :
    let below : Path := ⟨"/p/q"⟩
    let beside : Path := ⟨"/pq"⟩
    let g := ofChanges ⟨"/p"⟩ [.addNode { id := below, language := "js" },
      .addNode { id := beside, language := "js" }, .addNode { id := ⟨"/p"⟩, language := "js" },
      .addEdge { source := below, target := beside },
      .addEdge { source := beside, target := ⟨"/p"⟩ },
      .addEdge { source := ⟨"/p"⟩, target := below }]
    let s : RuleSet := {}
    g.root.isAbsolute ∧ g.Joined ∧ g.Absolute ∧ (below.isAbsolute ∧ beside.isAbsolute) ∧
    (g.displayName below = g.displayName beside → below.same beside) ∧
    (s.check false g).cycles.flatten.Nodup ∧
    [below, beside, ⟨"/p"⟩].map g.displayName = ["q", "/pq", "/p"] := by
  intro below beside g s
  have hroot : g.root.isAbsolute := by decide
  have hg : g.Joined := (sound_ofChanges _ _).toJoined
  have habsolute : g.Absolute := by
    unfold Absolute
    decide
  have hbelow : below.isAbsolute := by decide
  have hbeside : beside.isAbsolute := by decide
  obtain ⟨hsame, hrest⟩ := displayName_distinguishes g hroot
  exact ⟨hroot, hg, habsolute, ⟨hbelow, hbeside⟩, hsame below beside hbelow hbeside,
    (hrest hg habsolute).2.1 s false, by decide⟩

end ModuleGraph

end ImportAtlas
