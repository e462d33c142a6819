import ImportAtlas.Proofs.Drawing.Text
import ImportAtlas.Proofs.Graph.Cycles

/-!
# The modules in a drawing

Every node of a graph is drawn once and every edge is drawn once, and what is red is on a cycle
(`ModuleGraph.read_draw`).

* `Sheet.InDirectory`, `Sheet.inDirectory_directory` — the directory of a module is what its shown
  name has before the last slash;
* `Sheet.grouped_byDirectory` — the nodes by their directories: each directory has one group, and a
  node is in the group of its own (`Sheet.Grouped`);
* `Sheet.isSome_cycleOf?`, `Sheet.onCycle_iff` — the colour of a node and of an edge, in terms of
  the ways along edges.

A module is on no two cycles, so which of them counts does not matter, and the ends of an edge are
on one cycle exactly if a way leads back (`Joined.exists_cycle_iff`).
-/

namespace ImportAtlas

namespace Drawing

open Dot
open Std (TransCmp OrientedCmp)

namespace Sheet

/-! ### Directories -/

/-- `InDirectory dir name`: before its last slash the name has `dir`. A name without a slash is in
the root, the name of which is empty. -/
inductive InDirectory : (dir name : String) → Prop where
  | root {name : String} (h : '/' ∉ name.toList) : InDirectory "" name
  | below (dir : String) {base : String} (h : '/' ∉ base.toList) :
    InDirectory dir (dir ++ "/" ++ base)

/-- A name is in one directory only. -/
theorem InDirectory.unique {dir dir' name : String} (h : InDirectory dir name)
    (h' : InDirectory dir' name) : dir = dir' := by
  have hslash : ∀ dir base : String, '/' ∈ (dir ++ "/" ++ base).toList := by simp
  generalize hname : name = name' at h'
  cases h with
  | root h =>
    cases h' with
    | root => rfl
    | below dir' => exact absurd (hslash dir' _) (hname ▸ h)
  | @below dir base hbase =>
    cases h' with
    | root h' => exact absurd (hslash dir base) (hname ▸ h')
    | @below dir' base' hbase' =>
      have hcut : dir.toList ++ '/' :: base.toList = dir'.toList ++ '/' :: base'.toList := by
        simpa using congrArg String.toList hname
      -- neither base has a slash, so that both names are cut at the same one
      exact String.toList_inj.mp (Text.append_cons_inj_last (P := (· = '/')) hcut
        (fun _ ha hslash => hbase (hslash ▸ ha)) rfl
        (fun _ ha hslash => hbase' (hslash ▸ ha)) rfl).1

/-- The directory of a module is that of the name under which it is shown. -/
theorem inDirectory_directory (s : Sheet) (id : Path) :
    InDirectory (s.directory id) (s.graph.displayName id) := by
  rw [directory]
  generalize s.graph.displayName id = name
  -- read from its end, the name is a part without slash and what is before that
  have hsplit : (name.toList.reverse.dropWhile (· != '/')).reverse ++
      (name.toList.reverse.takeWhile (· != '/')).reverse = name.toList := by
    rw [← List.reverse_append, List.takeWhile_append_dropWhile, List.reverse_reverse]
  have hbase : '/' ∉ (name.toList.reverse.takeWhile (· != '/')).reverse := fun hmem => by
    simpa using List.mem_takeWhile_imp (List.mem_reverse.mp hmem)
  have hhead := List.head?_dropWhile_not (· != '/') name.toList.reverse
  generalize name.toList.reverse.takeWhile (· != '/') = w at *
  cases hrest : name.toList.reverse.dropWhile (· != '/') with
  | nil =>
    rw [hrest, List.reverse_nil, List.nil_append] at hsplit
    exact .root (hsplit ▸ hbase)
  | cons c r =>
    -- what is before begins, from the end, with the last slash
    have hc : c = '/' := by simpa [hrest] using hhead
    have hname : name = String.ofList r.reverse ++ "/" ++ String.ofList w.reverse := by
      rw [← String.toList_inj, ← hsplit, hrest, hc]
      simp
    rw [hname]
    exact .below _ (by simpa using hbase)

section Grouped

variable {f : Path → String} {dir : String} {id : Path} {ids : List Path}
  {groups : List (String × List Path)} {group : String × List Path}

/-- Groups in the strict order of their directories. -/
def Sorted (groups : List (String × List Path)) : Prop :=
  groups.Pairwise fun a b => compare a.1 b.1 = .lt

/-- What has been grouped by its directory `f`: each group has all that is of its directory, in the
order in which it came. -/
structure Grouped (f : Path → String) (ids : List Path) (groups : List (String × List Path)) :
    Prop where
  sorted : Sorted groups
  members : ∀ group ∈ groups, group.2 = ids.filter fun id => f id = group.1
  nonempty : ∀ group ∈ groups, group.2 ≠ []
  exists_group : ∀ id ∈ ids, ∃ group ∈ groups, group.1 = f id
  perm : (groups.flatMap (·.2)).Perm ids

/-- Directories in order are different ones. -/
theorem ne_of_compare_lt {d d' : String} (h : compare d d' = .lt) : d ≠ d' := by
  rintro rfl
  rw [Std.ReflOrd.compare_self] at h
  exact Ordering.noConfusion h

/-- The directories after one module more. -/
theorem exists_mem_insertInto {d : String} :
    (∃ group ∈ insertInto dir id groups, group.1 = d) ↔
      d = dir ∨ ∃ group ∈ groups, group.1 = d := by
  induction groups with
  | nil => simp [insertInto, eq_comm]
  | cons head rest ih =>
    obtain ⟨d', ids⟩ := head
    rw [insertInto]
    cases hcmp : compare dir d' with
    | lt => simp [eq_comm]
    | eq =>
      -- the directory is there already, so that the module joins its group
      obtain rfl := Std.LawfulEqCmp.eq_of_compare hcmp
      simp [eq_comm]
    | gt => simp only [List.exists_mem_cons_iff, ih, or_left_comm]

/-- The groups stay sorted: a new one is put before the first that is larger. -/
theorem Sorted.insertInto (h : Sorted groups) (dir : String) (id : Path) :
    Sorted (insertInto dir id groups) := by
  induction groups with
  | nil => exact List.pairwise_singleton _ _
  | cons head rest ih =>
    obtain ⟨d, ids⟩ := head
    obtain ⟨hhead, hrest⟩ := List.pairwise_cons.mp h
    rw [Sheet.insertInto]
    cases hcmp : compare dir d with
    | lt =>
      refine List.pairwise_cons.mpr ⟨fun group hgroup => ?_, h⟩
      rcases List.mem_cons.mp hgroup with rfl | hgroup
      · exact hcmp
      · exact TransCmp.lt_trans hcmp (hhead group hgroup)
    | eq => exact List.pairwise_cons.mpr ⟨hhead, hrest⟩
    | gt =>
      refine List.pairwise_cons.mpr ⟨fun group hgroup => ?_, ih hrest⟩
      -- behind the head there are the old directories and the new one
      rcases exists_mem_insertInto.mp ⟨group, hgroup, rfl⟩ with heq | ⟨old, hold, heq⟩
      · rw [heq]
        exact OrientedCmp.lt_of_gt hcmp
      · rw [← heq]
        exact hhead old hold

/-- A group is an old one of another directory, or that of the module, which comes last in it. -/
theorem Sorted.mem_insertInto (h : Sorted groups)
    (hgroup : group ∈ Sheet.insertInto dir id groups) :
    (group ∈ groups ∧ group.1 ≠ dir) ∨
      group.1 = dir ∧ ∃ ids, group.2 = ids ++ [id] ∧
        ((dir, ids) ∈ groups ∨ ids = [] ∧ ∀ old ∈ groups, old.1 ≠ dir) := by
  induction groups with
  | nil =>
    obtain rfl := List.mem_singleton.mp hgroup
    exact .inr ⟨rfl, [], rfl, .inr ⟨rfl, fun _ hold => absurd hold List.not_mem_nil⟩⟩
  | cons head rest ih =>
    obtain ⟨d, ids⟩ := head
    obtain ⟨hhead, hrest⟩ := List.pairwise_cons.mp h
    rw [Sheet.insertInto] at hgroup
    cases hcmp : compare dir d with
    | lt =>
      rw [hcmp] at hgroup
      -- all of the old directories come behind the new one
      have hne : ∀ old ∈ (d, ids) :: rest, old.1 ≠ dir := by
        intro old hold
        rcases List.mem_cons.mp hold with rfl | hold
        · exact (ne_of_compare_lt hcmp).symm
        · exact (ne_of_compare_lt (TransCmp.lt_trans hcmp (hhead old hold))).symm
      rcases List.mem_cons.mp hgroup with rfl | hold
      · exact .inr ⟨rfl, [], rfl, .inr ⟨rfl, hne⟩⟩
      · exact .inl ⟨hold, hne group hold⟩
    | eq =>
      rw [hcmp] at hgroup
      obtain rfl := Std.LawfulEqCmp.eq_of_compare hcmp
      rcases List.mem_cons.mp hgroup with rfl | hold
      · exact .inr ⟨rfl, ids, rfl, .inl List.mem_cons_self⟩
      · exact .inl ⟨List.mem_cons_of_mem _ hold, (ne_of_compare_lt (hhead group hold)).symm⟩
    | gt =>
      rw [hcmp] at hgroup
      have hne : d ≠ dir := ne_of_compare_lt (OrientedCmp.lt_of_gt hcmp)
      rcases List.mem_cons.mp hgroup with rfl | hold
      · exact .inl ⟨List.mem_cons_self, hne⟩
      · rcases ih hrest hold with ⟨hold, hother⟩ | ⟨hdir, ids', hids, hold⟩
        · exact .inl ⟨List.mem_cons_of_mem _ hold, hother⟩
        · refine .inr ⟨hdir, ids', hids, ?_⟩
          rcases hold with hold | ⟨hnil, hnone⟩
          · exact .inl (List.mem_cons_of_mem _ hold)
          · exact .inr ⟨hnil, List.forall_mem_cons.mpr ⟨hne, hnone⟩⟩

/-- No module is lost and none comes twice. -/
theorem perm_insertInto (dir : String) (id : Path) (groups : List (String × List Path)) :
    ((insertInto dir id groups).flatMap (·.2)).Perm (id :: groups.flatMap (·.2)) := by
  induction groups with
  | nil => exact .refl _
  | cons head rest ih =>
    obtain ⟨d, ids⟩ := head
    rw [insertInto]
    cases compare dir d with
    | lt => exact .refl _
    | eq =>
      simp only [List.flatMap_cons, List.append_assoc]
      -- the module goes behind the others of its group
      exact List.perm_middle
    | gt =>
      simp only [List.flatMap_cons]
      exact (ih.append_left ids).trans List.perm_middle

/-- No modules, no groups. -/
theorem Grouped.empty (f : Path → String) : Grouped f [] [] where
  sorted := .nil
  members := fun _ h => absurd h List.not_mem_nil
  nonempty := fun _ h => absurd h List.not_mem_nil
  exists_group := fun _ h => absurd h List.not_mem_nil
  perm := .refl _

/-- One module more, put into the group of its directory. -/
theorem Grouped.insertInto (h : Grouped f ids groups) (id : Path) :
    Grouped f (ids ++ [id]) (insertInto (f id) id groups) where
  sorted := h.sorted.insertInto (f id) id
  members := by
    intro group hgroup
    rw [List.filter_append, List.filter_singleton]
    rcases h.sorted.mem_insertInto hgroup with ⟨hold, hne⟩ | ⟨hdir, old, hids, hold⟩
    · rw [h.members group hold]
      simp [hne.symm]
    · rw [hids, hdir]
      rcases hold with hold | ⟨rfl, hnone⟩
      · have hmembers : old = ids.filter fun id' => f id' = f id := h.members _ hold
        simp [hmembers]
      · -- the directory is new, so that nothing of it has come before
        have hnil : (ids.filter fun id' => f id' = f id) = [] := by
          rw [List.filter_eq_nil_iff]
          intro id' hid'
          obtain ⟨group', hgroup', heq⟩ := h.exists_group id' hid'
          simpa [← heq] using hnone group' hgroup'
        simp [hnil]
  nonempty := by
    intro group hgroup
    rcases h.sorted.mem_insertInto hgroup with ⟨hold, -⟩ | ⟨-, old, hids, -⟩
    · exact h.nonempty group hold
    · simp [hids]
  exists_group := by
    intro id' hid'
    rw [exists_mem_insertInto]
    rcases List.mem_append.mp hid' with hid' | hid'
    · exact .inr (h.exists_group id' hid')
    · rw [List.mem_singleton.mp hid']
      exact .inl rfl
  perm := calc
    ((Sheet.insertInto (f id) id groups).flatMap (·.2)).Perm (id :: groups.flatMap (·.2)) :=
      perm_insertInto _ _ _
    List.Perm _ (id :: ids) := h.perm.cons id
    List.Perm _ (ids ++ [id]) := (List.perm_append_singleton _ _).symm

/-- Modules are grouped one after the other, as the fold takes them. -/
theorem Grouped.foldl (h : Grouped f ids groups) (more : List Path) :
    Grouped f (ids ++ more)
      (more.foldl (fun groups id => Sheet.insertInto (f id) id groups) groups) := by
  induction more generalizing ids groups with
  | nil => rwa [List.append_nil]
  | cons id more ih =>
    have hmore := ih (h.insertInto id)
    rwa [List.append_assoc, List.singleton_append] at hmore

end Grouped

/-- **Grouping.** The nodes by their directories. -/
theorem grouped_byDirectory (s : Sheet) :
    Grouped s.directory (s.graph.nodes.map fun node => node.2.id) s.byDirectory := by
  have h := (Grouped.empty s.directory).foldl (s.graph.nodes.map fun node => node.2.id)
  rwa [List.nil_append] at h

/-! ### Colours -/

section Colours

variable {g : ModuleGraph} (options : Options) {p : Path}

/-- The cycle that counts for a module is the one that it is on. -/
theorem cycleOf?_eq_some (hg : g.Indexed) {i : Nat} :
    (Sheet.of g options).cycleOf? p = some i ↔ ∃ c, g.cycles[i]? = some c ∧ p.among c := by
  unfold cycleOf?
  rw [Option.map_eq_some_iff]
  constructor
  · rintro ⟨⟨c, j⟩, hfind, rfl⟩
    have hmem := List.mem_reverse.mp (List.mem_of_find?_eq_some hfind)
    have hp := List.find?_some hfind
    exact ⟨c, List.mem_zipIdx_iff_getElem?.mp hmem, hp⟩
  · rintro ⟨c, hc, hp⟩
    have hmem : (c, i) ∈ g.cycles.zipIdx.reverse :=
      List.mem_reverse.mpr (List.mem_zipIdx_iff_getElem?.mpr hc)
    obtain ⟨⟨d, j⟩, hfind⟩ : ∃ x, g.cycles.zipIdx.reverse.find? (fun x => x.1.any (·.same p)) =
        some x :=
      Option.isSome_iff_exists.mp (List.find?_isSome.mpr ⟨(c, i), hmem, hp⟩)
    have hd : g.cycles[j]? = some d := List.mem_zipIdx_iff_getElem?.mp <|
      List.mem_reverse.mp (List.mem_of_find?_eq_some hfind)
    have hpd := List.find?_some hfind
    -- another cycle with the module would not be disjoint from this one
    obtain ⟨hi, rfl⟩ := List.getElem?_eq_some_iff.mp hc
    obtain ⟨hj, rfl⟩ := List.getElem?_eq_some_iff.mp hd
    have hdisjoint := List.pairwise_iff_getElem.mp hg.disjoint_cycles
    refine ⟨_, hfind, ?_⟩
    rcases Nat.lt_trichotomy i j with hlt | heq | hgt
    · exact absurd ⟨hp, hpd⟩ (hdisjoint i j hi hj hlt p)
    · exact heq.symm
    · exact absurd ⟨hpd, hp⟩ (hdisjoint j i hj hi hgt p)

/-- A module counts as one on a cycle exactly if it leads back to itself. -/
theorem isSome_cycleOf? (hg : g.Joined) :
    ((Sheet.of g options).cycleOf? p).isSome ↔ g.LeadsOn p p := by
  rw [← hg.exists_cycle, Option.isSome_iff_exists]
  simp only [cycleOf?_eq_some options hg.toIndexed]
  constructor
  · rintro ⟨i, c, hc, hp⟩
    exact ⟨c, List.mem_of_getElem? hc, hp⟩
  · rintro ⟨c, hc, hp⟩
    obtain ⟨i, hi⟩ := List.mem_iff_getElem?.mp hc
    exact ⟨i, c, hi, hp⟩

/-- An edge counts as one on a cycle exactly if both of its ends are on one. -/
theorem onCycle_iff_exists (hg : g.Indexed) {e : Edge} : (Sheet.of g options).onCycle e ↔
    ∃ c ∈ g.cycles, e.source.among c ∧ e.target.among c := by
  unfold onCycle
  constructor
  · intro h
    split at h
    · next a b ha hb =>
      -- the cycles of both ends are the same one by their number
      obtain rfl := eq_of_beq h
      obtain ⟨c, hc, hsource⟩ := (cycleOf?_eq_some options hg).mp ha
      obtain ⟨d, hd, htarget⟩ := (cycleOf?_eq_some options hg).mp hb
      obtain rfl := Option.some.inj (hc.symm.trans hd)
      exact ⟨c, List.mem_of_getElem? hc, hsource, htarget⟩
    · exact absurd h Bool.false_ne_true
  · rintro ⟨c, hc, hsource, htarget⟩
    obtain ⟨i, hi⟩ := List.mem_iff_getElem?.mp hc
    have ha := (cycleOf?_eq_some options hg).mpr ⟨c, hi, hsource⟩
    have hb := (cycleOf?_eq_some options hg).mpr ⟨c, hi, htarget⟩
    simp [ha, hb]

/-- An edge counts as one on a cycle exactly if a way leads back from its target to its source. -/
theorem onCycle_iff (hg : g.Joined) {e : Edge} (he : e ∈ g.edges) :
    (Sheet.of g options).onCycle e ↔ g.LeadsOn e.target e.source := by
  have hedge : g.LeadsOn e.source e.target :=
    .single ⟨e, he, Path.same_refl _, Path.same_refl _⟩
  rw [onCycle_iff_exists options hg.toIndexed, hg.exists_cycle_iff]
  exact ⟨fun h => h.2, fun h => ⟨hedge, h⟩⟩

/-- The border of a box is red exactly if the module is on a cycle. No theme has a border of that
colour. -/
theorem color_nodeStatement (hg : g.Joined) :
    ((Sheet.of g options).nodeStatement p).attribute? "color" = some cycleColour ↔
      g.LeadsOn p p := by
  rw [← isSome_cycleOf? options hg]
  have hcolor : ((Sheet.of g options).nodeStatement p).attribute? "color" =
      some (if ((Sheet.of g options).cycleOf? p).isSome then cycleColour
        else (Sheet.of g options).options.theme.border) := rfl
  -- no theme draws its borders in the colour of cycles
  have hborder : ∀ theme : Theme, theme.border ≠ cycleColour := by
    intro theme
    cases theme <;> decide
  rw [hcolor]
  split <;> simp [*]

/-- An arrow is red exactly if it is part of a cycle. Others have a colour of their own. -/
theorem color_edgeStatement (hg : g.Joined) {e : Edge} (he : e ∈ g.edges) :
    ((Sheet.of g options).edgeStatement e).attribute? "color" = some cycleColour ↔
      g.LeadsOn e.target e.source := by
  rw [← onCycle_iff options hg he]
  have hcolor : ((Sheet.of g options).edgeStatement e).attribute? "color" =
      some (if (Sheet.of g options).onCycle e then cycleColour else edgeColour) := rfl
  have hother : edgeColour ≠ cycleColour := by decide
  rw [hcolor]
  split <;> simp [*]

end Colours

/-! ### The nodes and the edges of a drawing -/

/-- Statements made for modules are all for nodes. -/
theorem nodesOf_map (s : Sheet) (ids : List Path) :
    nodesOf (ids.map s.nodeStatement) = ids.map s.nodeStatement ∧
      edgesOf (ids.map s.nodeStatement) = [] := by
  apply nodesOf_of_isNode
  intro t ht
  obtain ⟨id, -, rfl⟩ := List.mem_map.mp ht
  rfl

/-- Statements made for edges are all for edges. -/
theorem edgesOf_map (s : Sheet) (es : List Edge) :
    edgesOf (es.map s.edgeStatement) = es.map s.edgeStatement ∧
      nodesOf (es.map s.edgeStatement) = [] := by
  apply edgesOf_of_isEdge
  intro t ht
  obtain ⟨e, -, rfl⟩ := List.mem_map.mp ht
  rfl

/-- A cluster has its modules and nothing else. -/
theorem nodesOf_clusterStatements (s : Sheet) (dir : String) (ids : List Path) :
    nodesOf (s.clusterStatements dir ids) = ids.map s.nodeStatement ∧
      edgesOf (s.clusterStatements dir ids) = [] := by
  obtain ⟨hnodes, hedges⟩ := nodesOf_map s ids
  unfold clusterStatements
  split
  · exact ⟨hnodes, hedges⟩
  · -- a cluster is passed through, and its settings are no nodes
    constructor
    · refine Eq.trans ?_ hnodes
      simp [nodesOf, partsOf, Statement.parts, Statement.isNode]
    · refine Eq.trans ?_ hedges
      simp [edgesOf, partsOf, Statement.parts, Statement.isEdge]

/-- With clusters or without, the modules are drawn once each, and no edges among them. -/
theorem nodesOf_nodeStatements (s : Sheet) :
    (nodesOf s.nodeStatements).Perm
        ((s.graph.nodes.map fun node => node.2.id).map s.nodeStatement) ∧
      edgesOf s.nodeStatements = [] := by
  unfold nodeStatements
  split
  · rw [nodesOf_flatMap, edgesOf_flatMap]
    simp only [nodesOf_clusterStatements]
    refine ⟨?_, List.flatMap_eq_nil_iff.mpr fun _ _ => rfl⟩
    -- the groups hold the modules, in another order
    rw [← List.map_flatMap]
    exact (grouped_byDirectory s).perm.map s.nodeStatement
  · obtain ⟨hnodes, hedges⟩ := nodesOf_map s (s.graph.nodes.map fun node => node.2.id)
    rw [List.map_map] at hnodes hedges ⊢
    exact ⟨.of_eq hnodes, hedges⟩

end Sheet

end Drawing

namespace ModuleGraph

open Drawing Dot

variable {g : ModuleGraph}

/-- **Drawings.** A drawing is DOT: a directed graph with some statements, and the legend if there
is to be one. Besides the legend it has one statement for each node, and one for each edge in the
order of the edges. Without clusters, the nodes stand in their order. With clusters, they are
grouped by their directories, and each directory but the root has its cluster; the directory of a
node is what the name it is shown under has before its last slash. A node is red exactly if a way
along edges leads from it back to it, and an edge exactly if one leads from its target back to its
source. -/
theorem read_draw (hg : g.Joined) (options : Options) :
    let s := Sheet.of g options
    let ids := g.nodes.map fun node => node.2.id
    ∃ nodes : List Statement,
      let drawn := s.headStatements ++ nodes ++ g.edges.map s.edgeStatement
      Dot.read (g.draw options) =
        some ("DepTree", drawn ++ if options.legend then [s.legendStatement] else []) ∧
      (nodesOf drawn).Perm (ids.map s.nodeStatement) ∧
      edgesOf drawn = g.edges.map s.edgeStatement ∧
      (options.clusters = false → nodes = ids.map s.nodeStatement) ∧
      (∀ id, Sheet.InDirectory (s.directory id) (g.displayName id)) ∧
      (options.clusters = true → ∃ groups, Sheet.Grouped s.directory ids groups ∧
        nodes = groups.flatMap fun group =>
          if group.1 = "" then group.2.map s.nodeStatement
          else
            [.cluster ("cluster_" ++ identifier group.1) (.setting "label" group.1 ::
              .setting "color" "lightgrey" :: group.2.map s.nodeStatement)]) ∧
      (∀ id ∈ ids, (s.nodeStatement id).attribute? "color" = some cycleColour ↔
        g.LeadsOn id id) ∧
      ∀ e ∈ g.edges, (s.edgeStatement e).attribute? "color" = some cycleColour ↔
        g.LeadsOn e.target e.source := by
  intro s ids
  obtain ⟨hnodes, hnone⟩ := s.nodesOf_nodeStatements
  obtain ⟨hedges, hnone'⟩ := s.edgesOf_map g.edges
  -- what stands before the modules draws neither a module nor an edge
  have hhead : nodesOf s.headStatements = [] ∧ edgesOf s.headStatements = [] := ⟨rfl, rfl⟩
  refine ⟨s.nodeStatements, s.read_lines, ?_, ?_, fun hflat => ?_, s.inDirectory_directory,
    fun hclusters => ?_, fun id _ => Sheet.color_nodeStatement options hg,
    fun e he => Sheet.color_edgeStatement options hg he⟩
  · rw [nodesOf_append, nodesOf_append, hhead.1, hnone', List.append_nil, List.nil_append]
    exact hnodes
  · rw [edgesOf_append, edgesOf_append, hhead.2, hnone, hedges, List.nil_append, List.nil_append]
  · have hoption : s.options.clusters = false := hflat
    rw [Sheet.nodeStatements, hoption, List.map_map]
    rfl
  · -- one cluster for each directory but the root of the drawing, whose modules stand free
    have hoption : s.options.clusters = true := hclusters
    refine ⟨s.byDirectory, s.grouped_byDirectory, ?_⟩
    rw [Sheet.nodeStatements, hoption]
    simp [Sheet.clusterStatements, String.isEmpty_iff]

/-- A module of a directory that takes something from itself, and one of the root that takes from
it. The first is alone in the cluster of its directory, and the other one is in no cluster. -/
theorem read_draw_of_loop :
    let a : Path := ⟨"/p/src/a"⟩
    let b : Path := ⟨"/p/b"⟩
    let g := ofChanges ⟨"/p"⟩ [.addNode { id := a, language := "python" },
      .addNode { id := b, language := "python" }, .addEdge { source := a, target := a },
      .addEdge { source := b, target := a }]
    let s := Sheet.of g {}
    g.Joined ∧
    (∃ drawn, Dot.read (g.draw {}) = some ("DepTree", drawn ++ [s.legendStatement]) ∧
      edgesOf drawn = g.edges.map s.edgeStatement ∧ s.nodeStatement b ∈ drawn ∧
      .cluster "cluster_src" [.setting "label" "src", .setting "color" "lightgrey",
        s.nodeStatement a] ∈ drawn) ∧
    (s.nodeStatement a).attribute? "color" = some cycleColour := by
  intro a b g s
  have hg : g.Joined := (sound_ofChanges _ _).toJoined
  obtain ⟨nodes, hread, -, hedges, -, hdirectory, hclusters, hnode, -⟩ := read_draw hg {}
  obtain ⟨groups, hgroups, hnodes⟩ := hclusters rfl
  have hids : (g.nodes.map fun node => node.2.id) = [b, a] := by decide
  rw [hids] at hnode
  have hsheet : Sheet.of g {} = s := rfl
  rw [hids, hsheet] at hgroups
  -- the directory is read off the shown name, which determines it
  have ha : s.directory a = "src" := by
    have hname : g.displayName a = "src" ++ "/" ++ "a" := by decide +kernel
    exact (hdirectory a).unique (hname ▸ .below "src" (by decide))
  have hb : s.directory b = "" := by
    have hname : g.displayName b = "b" := by decide +kernel
    exact (hdirectory b).unique (hname ▸ .root (by decide))
  have hloop : g.LeadsOn a a :=
    .single ⟨{ source := a, target := a }, by decide, Path.same_refl a, Path.same_refl a⟩
  have hmem : ∀ t, t ∈ nodes → t ∈ s.headStatements ++ nodes ++ g.edges.map s.edgeStatement :=
    fun t ht => by simp [ht]
  refine ⟨hg, ⟨_, hread, hedges, hmem _ ?_, hmem _ ?_⟩, (hnode a (by simp)).mpr hloop⟩
  · -- the module at the root stands outside of every cluster
    obtain ⟨group, hgroup, hdir⟩ := hgroups.exists_group b (by simp)
    have hmembers : group.2 = [b] := by simp [hgroups.members group hgroup, hdir, ha, hb]
    rw [hnodes]
    exact List.mem_flatMap.mpr ⟨group, hgroup, by simp [hdir, hb, hmembers, hsheet]⟩
  · -- the other one is alone in the cluster of its directory
    obtain ⟨group, hgroup, hdir⟩ := hgroups.exists_group a (by simp)
    have hmembers : group.2 = [a] := by simp [hgroups.members group hgroup, hdir, ha, hb]
    have hidentifier : "cluster_" ++ identifier "src" = "cluster_src" := by decide +kernel
    rw [hnodes]
    exact List.mem_flatMap.mpr
      ⟨group, hgroup, by simp [hdir, ha, hmembers, hidentifier, hsheet]⟩

end ModuleGraph

end ImportAtlas
