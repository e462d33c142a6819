import ImportAtlas.Proofs.Build.State
import Mathlib.Data.List.Perm.Subperm
import Mathlib.Logic.Function.Iterate

/-!
# What a build gives

A build that nobody calls off ends, and its graph does not depend on the schedule
(`Builder.build_eq_graphOf`).

It ends since every turn is the first one of a needed file, and there are finitely many of these
(`BuildState.Valid.run`). When no file waits any more, those that are done are closed under imports,
so that they are exactly the needed ones (`BuildState.Valid.mem_done_iff`); what the graph has of
each file is then what the file has published. The edges may have come in any order from different
files, but those of one file are in the order of its records, and sorting is stable; so the sorted
list is one and the same (`BuildState.Valid.finish_eq`).
-/

namespace ImportAtlas

namespace Builder

/-- The graph of some files: each as its report has it, and the edges of all, sorted. -/
def graphOf (b : Builder) (files : List Path) (generatedAt : String) (ids : List Path) :
    ModuleGraph :=
  ModuleGraph.reindex
    { root := b.root
      entries := b.entriesOf files
      nodes := ids.map fun p => (p, b.nodeOf p)
      edges := (ids.flatMap fun p => Edge.distinct (b.reportOf p).edges).mergeSort fun e f =>
        (ModuleGraph.edgeOrder e f).isLE
      language := b.language.name
      generatedAt }

end Builder

variable {b : Builder} {files ids : List Path} {s : BuildState} {p : Path}

/-- Of the edges that several files have, those of one file are its own. -/
theorem filter_flatMap_source {f : Path → List Edge} (hf : ∀ q, ∀ e ∈ f q, e.source = q)
    (hids : Path.Ascending ids) (hp : p ∈ ids) :
    (ids.flatMap f).filter (·.source.same p) = f p := by
  have hown : ∀ q, q.same p → (f q).filter (·.source.same p) = f q := by
    intro q hsame
    refine List.filter_eq_self.mpr fun e he => ?_
    rwa [hf q e he]
  have hother : ∀ q, ¬ q.same p → (f q).filter (·.source.same p) = [] := by
    intro q hne
    refine List.filter_eq_nil_iff.mpr fun e he => ?_
    rwa [hf q e he]
  induction hids with
  | nil => exact absurd hp List.not_mem_nil
  | @cons q ids hlt hids ih =>
    rw [List.flatMap_cons, List.filter_append]
    rcases List.mem_cons.mp hp with rfl | hp
    · -- the files behind it are larger, so none of them is the same
      have hrest : (ids.flatMap f).filter (·.source.same p) = [] := by
        rw [List.filter_flatMap, List.flatMap_eq_nil_iff]
        exact fun r hr => hother r fun hsame =>
          Path.not_same_of_lt (hlt r hr) (Path.same_symm hsame)
      rw [hown p (Path.same_refl p), hrest, List.append_nil]
    · rw [hother q (Path.not_same_of_lt (hlt p hp)), ih hp, List.nil_append]

/-! ### The end of a build -/

section Cwd

variable (hcwd : ∀ n ∈ b.resolver.disk.cwd, IsName n)

include hcwd

namespace BuildState

/-- Only as many turns have been had as there are needed files: the files that are done are
different ones. This bounds the run. -/
theorem Valid.done_length_le (h : Valid b files s) : s.done.length ≤ (b.bound files).length := by
  have hnodup : (s.done ++ s.waiting).Nodup := h.turns_perm.nodup_iff.mpr h.nodup
  refine (List.Nodup.subperm (List.nodup_append.mp hnodup).1 fun p hp => ?_).length_le
  exact (h.needed p (h.done_visited hp)).mem_bound hcwd

/-- **Termination.** From a valid state on, some number of turns leaves no file waiting, each turn
being that of a file that had none before, and this is where the build stops. -/
theorem Valid.run {c : Schedule} {s : BuildState} (hc : c.cancelAfter = none)
    (hread : ∀ id ∈ b.entriesOf files, b.language.handles id →
      ∃ bytes, b.resolver.disk.read id = .ok bytes)
    (h : Valid b files s) :
    ∃ k, let t := (b.step c (b.entriesOf files))^[k] s
      Valid b files t ∧ t.waiting = [] ∧ t.done.length = s.done.length + k ∧
        b.run c (b.entriesOf files) s = t := by
  by_cases hwaiting : s.waiting = []
  · exact ⟨0, h, hwaiting, rfl, by rw [Builder.run_eq, hwaiting]; rfl⟩
  · obtain ⟨hstep, id, hdone⟩ := h.step hcwd hc hread hwaiting
    -- each step has one more file done, and there is a bound on these: it carries the recursion
    have hmore : (b.step c (b.entriesOf files) s).done.length = s.done.length + 1 := by
      rw [hdone, List.length_cons]
    have hle := hstep.done_length_le hcwd
    obtain ⟨k, hvalid, hnone, hlength, hrun⟩ := hstep.run hc hread
    have hempty : s.waiting.isEmpty = false := by simpa using hwaiting
    refine ⟨k + 1, hvalid, hnone, ?_, ?_⟩
    · rw [Function.iterate_succ_apply, hlength, hmore]
      omega
    · rw [Builder.run_eq, hempty, if_neg Bool.false_ne_true, hrun, Function.iterate_succ_apply]
termination_by (b.bound files).length - s.done.length

/-- Once no file waits, the files that are done are those that are needed. -/
theorem Valid.mem_done_iff (h : Valid b files s) (hwaiting : s.waiting = []) :
    p ∈ s.done ↔ b.Needed files p := by
  have hperm := h.turns_perm
  rw [hwaiting, List.append_nil] at hperm
  refine ⟨fun hp => h.needed p (h.done_visited hp), fun hp => ?_⟩
  induction hp with
  | entry hfile hex =>
    exact hperm.mem_iff.mpr (h.entries_visited _ (Builder.mem_entriesOf hcwd hfile hex))
  | @imported p q _ himports ih =>
    -- what a file that is done imports is the target of an edge that it has published
    obtain ⟨e, he, rfl⟩ := Builder.imports_iff.mp himports
    have hpublished : b.published s.done p = (b.reportOf p).edges := if_pos ih
    rw [← hpublished] at he
    exact hperm.mem_iff.mpr (h.target_visited p (h.done_visited ih) e he)

/-- The nodes at the end: the needed files in order, each as its report has it. -/
theorem Valid.nodes_eq (h : Valid b files s) (hwaiting : s.waiting = []) :
    let ids := s.graph.nodes.map (·.1)
    Path.Ascending ids ∧ (∀ p, p ∈ ids ↔ b.Needed files p) ∧ s.done.Perm ids ∧
      s.graph.nodes = ids.map fun p => (p, b.nodeOf p) := by
  intro ids
  -- nothing waits, so that the nodes are the files that are done
  have hperm := h.turns_perm.trans h.nodes_perm.symm
  rw [hwaiting, List.append_nil] at hperm
  refine ⟨h.sound.ascending, fun p => ?_, hperm, ?_⟩
  · rw [← h.mem_done_iff hcwd hwaiting, hperm.mem_iff]
  · -- each of these has the node that its report makes
    have hnode : ∀ kn ∈ s.graph.nodes, kn = (kn.1, b.nodeOf kn.1) := by
      intro kn hkn
      have hdone : kn.1 ∈ s.done := hperm.mem_iff.mpr (List.mem_map_of_mem hkn)
      have hvalue := Keyed.value?_of_mem h.sound.ascending hkn
      have heq := (h.node_eq _ hdone).symm.trans hvalue
      rw [Option.some.inj heq]
    rw [List.map_map]
    calc s.graph.nodes = s.graph.nodes.map id := List.map_id _ |>.symm
      _ = _ := List.map_congr_left hnode

/-- The edges at the end: sorted, they are those that all files have published. -/
theorem Valid.edges_finalize (h : Valid b files s) (hwaiting : s.waiting = []) {g : ModuleGraph}
    (hedges : g.edges =
      (s.graph.nodes.map (·.1)).flatMap fun p => Edge.distinct (b.reportOf p).edges) :
    s.graph.finalize.edges = g.finalize.edges := by
  obtain ⟨hids, hmem, hperm, -⟩ := h.nodes_eq hcwd hwaiting
  have hsource : ∀ q, ∀ e ∈ Edge.distinct (b.reportOf q).edges, e.source = q := fun q e he =>
    Builder.source_eq_of_mem_edges (Edge.mem_of_mem_distinct he)
  -- sorting needs the edges of each source only, and there the file has published what it has
  refine ModuleGraph.edges_finalize_congr fun p => ?_
  rw [hedges]
  by_cases hp : s.graph.contains p
  · rw [ModuleGraph.contains, Keyed.holds_iff_among] at hp
    obtain ⟨q, hq, hsame⟩ := Path.among_iff.mp hp
    have hdone : q ∈ s.done := hperm.mem_iff.mpr hq
    have hpublished : b.published s.done q = (b.reportOf q).edges := if_pos hdone
    simp only [← Path.same_congr_right hsame]
    rw [filter_flatMap_source hsource hids hq, h.edges_eq q (h.done_visited hdone), hpublished]
  · -- what is no node has no edges
    have hnone : s.graph.edges.filter (·.source.same p) = [] := by
      refine List.filter_eq_nil_iff.mpr fun e he hsame => hp ?_
      rw [← ModuleGraph.contains_congr hsame]
      exact h.sound.source_mem e he
    rw [hnone, eq_comm, List.filter_eq_nil_iff]
    intro e he hsame
    obtain ⟨q, hq, he⟩ := List.mem_flatMap.mp he
    rw [hsource q e he] at hsame
    refine hp ?_
    rw [ModuleGraph.contains, Keyed.holds_iff_among]
    exact Path.among_iff.mpr ⟨q, hq, hsame⟩

/-- **The graph at the end** is that of the needed files. -/
theorem Valid.finish_eq (h : Valid b files s) (hwaiting : s.waiting = [])
    (hunwrap : b.unwrapReExports = false) (generatedAt : String) :
    b.finish generatedAt s = b.graphOf files generatedAt (s.graph.nodes.map (·.1)) := by
  obtain ⟨-, -, -, hnodes⟩ := h.nodes_eq hcwd hwaiting
  have hentries : s.graph.finalize.entries = b.entriesOf files := by
    rw [ModuleGraph.entries_finalize, h.entries_eq]
    rw [h.entries_eq]
    exact b.ascending_entriesOf files
  rw [Builder.finish, hunwrap, if_neg Bool.false_ne_true]
  exact ModuleGraph.reindex_congr h.root_eq hentries hnodes
    (h.edges_finalize hcwd hwaiting (g := { root := b.root, edges := _ }) rfl) rfl rfl

end BuildState

end Cwd

namespace Builder

/-! ### Every schedule -/

/-- The edges between two files are those of the first, in the order of its records. -/
theorem parallel_graphOf (b : Builder) (files : List Path) (generatedAt : String)
    (hids : Path.Ascending ids) (hp : p ∈ ids) (q : Path) :
    (b.graphOf files generatedAt ids).parallel p q =
      (Edge.distinct ((b.reportOf p).imports.filterMap (b.edgeOf? p))).filter
        (·.target.same q) := by
  let g : ModuleGraph :=
    { root := b.root, edges := ids.flatMap fun p => Edge.distinct (b.reportOf p).edges }
  have hsource : ∀ q, ∀ e ∈ Edge.distinct (b.reportOf q).edges, e.source = q := fun q e he =>
    source_eq_of_mem_edges (Edge.mem_of_mem_distinct he)
  -- sorting keeps the edges between two files in their order
  calc (b.graphOf files generatedAt ids).parallel p q
      = g.finalize.parallel p q := rfl
    _ = (g.edges.filter (·.source.same p)).filter (·.target.same q) := by
      rw [ModuleGraph.parallel_finalize, ModuleGraph.parallel_eq]
    _ = _ := by rw [filter_flatMap_source hsource hids hp, reportOf_edges]

/-- A build without entries fails in the same way under every schedule. -/
theorem build_of_no_entries (hentries : b.entriesOf files = []) :
    ∃ reason, ∀ c generatedAt, b.build c generatedAt files = .error (.noEntryFiles reason) := by
  by_cases hfiles : files.isEmpty
  · exact ⟨.noneGiven, fun c t => by rw [build, if_pos hfiles]⟩
  · refine ⟨.allExcluded, fun c t => ?_⟩
    rw [build, if_neg hfiles, hentries]
    rfl

/-- **Every schedule builds the same graph.** Let nobody call the build off, let re-exports not be
followed, and let all entries that are not left out be readable. If there are none, the build says
so. Otherwise it ends, with the graph of the least set of files that has these entries and what its
members import: whichever of the waiting files is next, after as many turns as there are such files
none waits any more, and each of them has had one turn. -/
theorem build_eq_graphOf (b : Builder) (files : List Path)
    (hunwrap : b.unwrapReExports = false) (hcwd : ∀ n ∈ b.resolver.disk.cwd, IsName n)
    (hread : ∀ id ∈ b.entriesOf files, b.language.handles id →
      ∃ bytes, b.resolver.disk.read id = .ok bytes) :
    let entries := b.entriesOf files
    (entries = [] → ∃ reason, ∀ c generatedAt,
      b.build c generatedAt files = .error (.noEntryFiles reason)) ∧
    (entries ≠ [] → ∃ ids, Path.Ascending ids ∧ (∀ p, p ∈ ids ↔ b.Needed files p) ∧
      (∀ p ∈ entries, p ∈ ids) ∧
      (∀ p ∈ ids, ¬ b.exclusion.excludes p ∧ b.read p (p.among entries) = .ok (b.reportOf p)) ∧
      (∀ generatedAt, ∀ p ∈ ids, ∀ q, (b.graphOf files generatedAt ids).parallel p q =
        (Edge.distinct ((b.reportOf p).imports.filterMap (b.edgeOf? p))).filter
          (·.target.same q)) ∧
      ∀ c : Schedule, c.cancelAfter = none →
        let s := (b.step c entries)^[ids.length] (b.start entries)
        s.waiting = [] ∧ s.done.Perm ids ∧ b.run c entries (b.start entries) = s ∧
        ∀ generatedAt, b.build c generatedAt files = .ok (b.graphOf files generatedAt ids)) := by
  intro entries
  refine ⟨build_of_no_entries, fun hentries => ?_⟩
  -- the files are taken from the run under some schedule; all others turn out to have the same
  obtain ⟨k, hvalid, hnone, -⟩ := (BuildState.Valid.start b files).run hcwd (c := {}) rfl hread
  generalize (b.step {} (b.entriesOf files))^[k] (b.start (b.entriesOf files)) = t at hvalid hnone
  obtain ⟨hids, hmem, -⟩ := hvalid.nodes_eq hcwd hnone
  refine ⟨t.graph.nodes.map (·.1), hids, hmem,
    fun p hp => (hmem p).mpr (needed_of_mem_entriesOf hp), fun p hp => ⟨?_, read_eq ?_⟩,
    fun generatedAt p hp => b.parallel_graphOf files generatedAt hids hp, fun c hc => ?_⟩
  · exact ((hmem p).mp hp).not_excluded
  · -- a needed file that is the same as an entry is that entry
    intro hamong
    obtain ⟨q, hq, hsame⟩ := Path.among_iff.mp hamong
    rw [← (needed_of_mem_entriesOf hq).eq_of_same hcwd ((hmem p).mp hp) hsame]
    exact hread q hq
  · obtain ⟨k', hvalid', hnone', hlength, hrun⟩ :=
      (BuildState.Valid.start b files).run hcwd hc hread
    obtain ⟨hids', hmem', hperm, -⟩ := hvalid'.nodes_eq hcwd hnone'
    have heq := hids'.eq_of_mem_iff hids fun p => by rw [hmem', hmem]
    -- every turn has done one file more, so there have been as many turns as files
    have hk : (t.graph.nodes.map (·.1)).length = k' := by
      rw [← heq, ← hperm.length_eq, hlength]
      exact Nat.zero_add k'
    rw [hk]
    refine ⟨hnone', heq ▸ hperm, hrun, fun generatedAt => ?_⟩
    have hfiles : files.isEmpty = false := by
      cases files with
      | nil => exact absurd rfl hentries
      | cons => rfl
    have hcancel : ∀ s, c.isCancelled s = false := fun s => by rw [Schedule.isCancelled, hc]; rfl
    have hempty : (b.entriesOf files).isEmpty = false := by simpa using hentries
    simp only [build, hfiles, hempty, hrun, hcancel, hvalid'.fault_eq]
    rw [hvalid'.finish_eq hcwd hnone' hunwrap, heq]
    rfl

/-- Two files that import each other: the build of the first has both. -/
theorem build_eq_graphOf_of_circle :
    let p : Path := ⟨"/p.py"⟩
    let q : Path := ⟨"/q.py"⟩
    let tree : FileTree :=
      .directory [("p.py", .file ("import q".toUTF8)), ("q.py", .file ("import p".toUTF8))]
    let b : Builder :=
      { resolver :=
          { disk := { tree }, language := .python false, sourceRoot := ⟨"/"⟩, aliases := [] }
        exclusion := ⟨⟨"/"⟩, []⟩
        root := ⟨"/"⟩
        unwrapReExports := false }
    (∀ n ∈ b.resolver.disk.cwd, IsName n) ∧
    (∀ id ∈ b.entriesOf [p], b.language.handles id →
      ∃ bytes, b.resolver.disk.read id = .ok bytes) ∧
    ∃ ids, p ∈ ids ∧ q ∈ ids ∧ ∀ c : Schedule, c.cancelAfter = none → ∀ generatedAt,
      b.build c generatedAt [p] = .ok (b.graphOf [p] generatedAt ids) := by
  intro p q tree b
  have hentries : b.entriesOf [p] = [p] := by decide
  have hcwd : ∀ n ∈ b.resolver.disk.cwd, IsName n := fun n hn => absurd hn List.not_mem_nil
  have hread : ∀ id ∈ b.entriesOf [p], b.language.handles id →
      ∃ bytes, b.resolver.disk.read id = .ok bytes := by
    intro id hid _
    rw [hentries, List.mem_singleton] at hid
    rw [hid]
    have hok : (b.resolver.disk.read p).isOk := by decide +kernel
    cases hread : b.resolver.disk.read p with
    | ok bytes => exact ⟨bytes, rfl⟩
    | error f => rw [hread] at hok; exact absurd hok Bool.false_ne_true
  obtain ⟨ids, -, hids, hmem, -, -, hbuild⟩ :=
    (build_eq_graphOf b [p] rfl hcwd hread).2 (by rw [hentries]; exact List.cons_ne_nil _ _)
  have hp : p ∈ ids := hmem p (by rw [hentries]; exact List.mem_singleton_self p)
  -- the second file is needed because the first imports it
  have himports : b.Imports p q := imports_iff.mpr (by decide +kernel)
  have hq : q ∈ ids := (hids q).mpr (((hids p).mp hp).imported himports)
  exact ⟨hcwd, hread, ids, hp, hq, fun c hc => (hbuild c hc).2.2.2⟩

end Builder

end ImportAtlas
