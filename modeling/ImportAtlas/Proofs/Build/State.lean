import ImportAtlas.Proofs.Build.File
import ImportAtlas.Proofs.Graph.Sorted
import Mathlib.Data.List.Nodup
import Mathlib.Data.List.Perm.Basic
import Mathlib.Logic.Function.Basic

/-!
# Graphs in the making

What holds of a build after every turn, whichever of the waiting files had it (`BuildState.Valid`).

The invariant is stated for what each file has published so far (`BuildState.Inv`), since in the
midst of a turn one file has published a part of its edges only:

* `Inv.discover` — a module that is heard of for the first time becomes a node, and waits;
* `Inv.addEdge` — an edge is one more that its file has published;
* `Inv.publish` — a file that has its turn publishes all of its edges;
* `Valid.step` — the step. It gives some waiting file its turn, so that there is one turn more.

Files that are done and files that wait are together those that have been heard of, each once
(`turns_perm`), and these are the nodes of the graph (`nodes_perm`). Of the edges it is enough to
know, for each file, which of them it has published and in which order: those of one file stand in
the graph without any others of the same source.
-/

namespace ImportAtlas

/-- The edges that files have published that are done. -/
def Builder.published (b : Builder) (done : List Path) (p : Path) : List Edge :=
  if p ∈ done then (b.reportOf p).edges else []

namespace BuildState

/-- A state that has heard of a module. One that is new becomes a node, and its file waits. -/
def discover (s : BuildState) (p : Path) : BuildState :=
  if p.among s.visited then s
  else
    { s with
      visited := p :: s.visited
      graph := s.graph.addNode { id := p, language := "" }
      waiting := p :: s.waiting }

/-- Adding an edge hears of its target first. The change of the graph that follows is one that the
graph may refuse. -/
theorem addEdge_eq (s : BuildState) (e : Edge) :
    s.addEdge e = { s.discover e.target with
      graph := (ModuleGraph.Change.addEdge e).apply (s.discover e.target).graph } := by
  rw [addEdge, ← discover, ModuleGraph.Change.apply]
  dsimp only
  cases (s.discover e.target).graph.addEdge e <;> rfl

/-- The invariant of a build, each file having published some edges. -/
structure Inv (b : Builder) (files : List Path) (published : Path → List Edge) (s : BuildState) :
    Prop where
  sound : s.graph.Sound
  root_eq : s.graph.root = b.root
  entries_eq : s.graph.entries = b.entriesOf files
  /-- What has been heard of is needed, each file once. -/
  needed : ∀ p ∈ s.visited, b.Needed files p
  nodup : s.visited.Nodup
  entries_visited : ∀ p ∈ b.entriesOf files, p ∈ s.visited
  /-- Its files are the nodes, and each of them is done or waits. -/
  nodes_perm : (s.graph.nodes.map (·.1)).Perm s.visited
  turns_perm : (s.done ++ s.waiting).Perm s.visited
  node_eq : ∀ p ∈ s.done, s.graph.node? p = some (b.nodeOf p)
  /-- The edges of a file are those that it has published. -/
  edges_eq : ∀ p ∈ s.visited,
    s.graph.edges.filter (·.source.same p) = Edge.distinct (published p)
  target_visited : ∀ p ∈ s.visited, ∀ e ∈ published p, e.target ∈ s.visited
  published_eq_nil : ∀ p, p ∉ s.done → published p = []
  fault_eq : s.fault = none

section

variable {b : Builder} {files : List Path} {published : Path → List Edge} {s : BuildState}
  {id p : Path} {e : Edge}

namespace Inv

/-- A file that is done has been heard of. -/
theorem done_visited (h : Inv b files published s) (hp : p ∈ s.done) : p ∈ s.visited :=
  h.turns_perm.subset (List.mem_append_left _ hp)

/-- A file that waits has been heard of. -/
theorem waiting_visited (h : Inv b files published s) (hp : p ∈ s.waiting) : p ∈ s.visited :=
  h.turns_perm.subset (List.mem_append_right _ hp)

/-- No file is done while it waits, since it has been heard of once. -/
theorem not_done_of_waiting (h : Inv b files published s) (hp : p ∈ s.waiting) : p ∉ s.done := by
  have hnodup : (s.done ++ s.waiting).Nodup := h.turns_perm.nodup_iff.mpr h.nodup
  exact fun hdone => List.disjoint_of_nodup_append hnodup hdone hp

/-- A node is what has been heard of. -/
theorem contains_iff (h : Inv b files published s) (p : Path) :
    s.graph.contains p ↔ ∃ q ∈ s.visited, q.same p := by
  rw [ModuleGraph.contains, Keyed.holds_iff_among, Path.among_iff]
  constructor
  · rintro ⟨q, hq, hsame⟩
    exact ⟨q, h.nodes_perm.mem_iff.mp hq, hsame⟩
  · rintro ⟨q, hq, hsame⟩
    exact ⟨q, h.nodes_perm.mem_iff.mpr hq, hsame⟩

/-- What has been heard of is a node. -/
theorem contains_of_visited (h : Inv b files published s) (hp : p ∈ s.visited) :
    s.graph.contains p :=
  (h.contains_iff p).mpr ⟨p, hp, Path.same_refl p⟩

/-- An edge between files that have been heard of changes no node. It is new in the graph exactly if
its file has not published it before. -/
theorem apply_addEdge (h : Inv b files published s) (hsource : e.source ∈ s.visited)
    (htarget : e.target ∈ s.visited) :
    let g := (ModuleGraph.Change.addEdge e).apply s.graph
    (g.root = s.graph.root ∧ g.entries = s.graph.entries ∧ g.nodes = s.graph.nodes) ∧
      g.edges = s.graph.edges ++
        if (Edge.distinct (published e.source)).any (·.same e) then [] else [e] := by
  intro g
  have hgraph : g = _ := h.sound.apply_addEdge e
  have hends : s.graph.contains e.source ∧ s.graph.contains e.target :=
    ⟨h.contains_of_visited hsource, h.contains_of_visited htarget⟩
  have hold : (Edge.distinct (published e.source)).any (·.same e) ↔
      ∃ f ∈ s.graph.edges, f.same e := by
    rw [← h.edges_eq _ hsource, ← h.sound.outgoing_eq]
    exact h.sound.any_outgoing e
  refine ⟨?_, ?_⟩
  · rw [hgraph]
    split <;> exact ⟨rfl, rfl, rfl⟩
  · by_cases hany : (Edge.distinct (published e.source)).any (·.same e)
    · obtain ⟨f, hf, hsame⟩ := hold.mp hany
      rw [hgraph, if_neg fun hc => hc.2 f hf hsame, if_pos hany, List.append_nil]
    · have hnew : ∀ f ∈ s.graph.edges, ¬ f.same e := fun f hf hsame =>
        hany (hold.mpr ⟨f, hf, hsame⟩)
      rw [hgraph, if_pos ⟨hends, hnew⟩, if_neg hany]
      rfl

section Cwd

variable (hcwd : ∀ n ∈ b.resolver.disk.cwd, IsName n)

include hcwd

/-- Of a needed file it is certain whether it has been heard of, since it has no other path. -/
theorem visited_of_same (h : Inv b files published s) (hp : b.Needed files p) {q : Path}
    (hq : q ∈ s.visited) (hsame : q.same p) : p ∈ s.visited := by
  rwa [← (h.needed q hq).eq_of_same hcwd hp hsame]

/-! ### Hearing of a module -/

/-- Hearing of a needed file keeps the invariant. A new one is added as a node and waits, with
nothing published. -/
theorem discover (h : Inv b files published s) (hp : b.Needed files p) :
    Inv b files published (s.discover p) ∧ p ∈ (s.discover p).visited ∧
      (s.discover p).done = s.done := by
  unfold BuildState.discover
  split
  · next hamong =>
    obtain ⟨q, hq, hsame⟩ := Path.among_iff.mp hamong
    exact ⟨h, h.visited_of_same hcwd hp hq hsame, rfl⟩
  · next hamong =>
    -- a file that is new differs from all that have been heard of
    have hne : ∀ q ∈ s.visited, ¬ p.same q := fun q hq hsame =>
      hamong (Path.among_iff.mpr ⟨q, hq, Path.same_symm hsame⟩)
    have hnew : ¬ s.graph.contains p := by
      intro hcontains
      obtain ⟨q, hq, hsame⟩ := (h.contains_iff p).mp hcontains
      exact hne q hq (Path.same_symm hsame)
    have hvisited : p ∉ s.visited := fun hmem => hne p hmem (Path.same_refl p)
    have hdone : p ∉ s.done := fun hmem => hvisited (h.done_visited hmem)
    let node : ModuleNode := { id := p, language := "" }
    obtain ⟨hroot, hentries, hedges⟩ := ModuleGraph.addNode_keeps s.graph node
    have hnodes := ModuleGraph.nodes_perm_addNode node hnew
    refine ⟨?_, List.mem_cons_self, rfl⟩
    constructor
    case sound => exact h.sound.addNode _
    case root_eq => exact hroot.trans h.root_eq
    case entries_eq => exact hentries.trans h.entries_eq
    case needed => exact List.forall_mem_cons.mpr ⟨hp, h.needed⟩
    case nodup => exact List.nodup_cons.mpr ⟨hvisited, h.nodup⟩
    case entries_visited => exact fun q hq => List.mem_cons_of_mem _ (h.entries_visited q hq)
    case nodes_perm => exact hnodes.trans (h.nodes_perm.cons p)
    case turns_perm => exact List.perm_middle.trans (h.turns_perm.cons p)
    case node_eq =>
      intro q hq
      rw [← h.node_eq q hq]
      exact ModuleGraph.node?_addNode h.sound.ascending _ (hne q (h.done_visited hq))
    case edges_eq =>
      intro q hq
      change (s.graph.addNode node).edges.filter _ = _
      rw [hedges]
      rcases List.mem_cons.mp hq with rfl | hq
      · -- no edge leaves what was no node
        rw [h.published_eq_nil q hdone]
        refine List.filter_eq_nil_iff.mpr fun f hf hsame => hnew ?_
        rw [← ModuleGraph.contains_congr hsame]
        exact h.sound.source_mem f hf
      · exact h.edges_eq q hq
    case target_visited =>
      intro q hq f hf
      rcases List.mem_cons.mp hq with rfl | hq
      · rw [h.published_eq_nil q hdone] at hf
        exact absurd hf List.not_mem_nil
      · exact List.mem_cons_of_mem _ (h.target_visited q hq f hf)
    case published_eq_nil => exact h.published_eq_nil
    case fault_eq => exact h.fault_eq

/-! ### One edge more -/

/-- A file that is done publishes one more edge, to a needed file. The edges of the other files
stay. -/
theorem addEdge (h : Inv b files published s) (hsource : e.source ∈ s.done)
    (htarget : b.Needed files e.target) :
    Inv b files (Function.update published e.source (published e.source ++ [e])) (s.addEdge e) ∧
      (s.addEdge e).done = s.done := by
  -- from here on the target has been heard of, and the source is done as before
  obtain ⟨ht, hmem, hdone⟩ := h.discover hcwd htarget
  rw [addEdge_eq]
  generalize s.discover e.target = t at ht hmem hdone
  rw [← hdone] at hsource
  have hvisited := ht.done_visited hsource
  have hsound := ht.sound.apply (.addEdge e)
  obtain ⟨hkeep, hedges⟩ := ht.apply_addEdge hvisited hmem
  generalize (ModuleGraph.Change.addEdge e).apply t.graph = g at hkeep hedges hsound
  refine ⟨?_, hdone⟩
  constructor
  case sound => exact hsound
  case root_eq => exact hkeep.1.trans ht.root_eq
  case entries_eq => exact hkeep.2.1.trans ht.entries_eq
  case needed => exact ht.needed
  case nodup => exact ht.nodup
  case entries_visited => exact ht.entries_visited
  case nodes_perm =>
    change (g.nodes.map (·.1)).Perm t.visited
    rw [hkeep.2.2]
    exact ht.nodes_perm
  case turns_perm => exact ht.turns_perm
  case node_eq =>
    intro q hq
    change g.nodes.value? q = _
    rw [hkeep.2.2]
    exact ht.node_eq q hq
  case edges_eq =>
    intro q hq
    change g.edges.filter _ = _
    rw [hedges, List.filter_append, ht.edges_eq q hq]
    by_cases hqe : q = e.source
    · rw [hqe, Function.update_self, Edge.distinct_concat]
      split <;> simp
    · -- an edge of another file
      have hne : ¬ e.source.same q := fun hsame =>
        hqe ((ht.needed _ hvisited).eq_of_same hcwd (ht.needed q hq) hsame).symm
      rw [Function.update_of_ne hqe]
      split <;> simp [hne]
  case target_visited =>
    intro q hq f hf
    by_cases hqe : q = e.source
    · rw [hqe, Function.update_self] at hf
      rcases List.mem_append.mp hf with hf | hf
      · exact ht.target_visited _ hvisited f hf
      · rwa [List.mem_singleton.mp hf]
    · rw [Function.update_of_ne hqe] at hf
      exact ht.target_visited q hq f hf
  case published_eq_nil =>
    intro q hq
    have hqe : q ≠ e.source := fun heq => hq (heq ▸ hsource)
    rw [Function.update_of_ne hqe]
    exact ht.published_eq_nil q hq
  case fault_eq => exact ht.fault_eq

/-- A file that publishes edges one after the other has published them all. -/
theorem foldl_addEdge (es : List Edge) (h : Inv b files published s) (hid : id ∈ s.done)
    (hsource : ∀ e ∈ es, e.source = id) (htarget : ∀ e ∈ es, b.Needed files e.target) :
    Inv b files (Function.update published id (published id ++ es))
        (es.foldl BuildState.addEdge s) ∧
      (es.foldl BuildState.addEdge s).done = s.done := by
  induction es generalizing s published with
  | nil =>
    rw [List.append_nil, Function.update_eq_self]
    exact ⟨h, rfl⟩
  | cons e es ih =>
    obtain ⟨hse, hses⟩ := List.forall_mem_cons.mp hsource
    obtain ⟨hte, htes⟩ := List.forall_mem_cons.mp htarget
    subst hse
    -- what the first edge adds is published, and the rest is added to that
    obtain ⟨hadd, hdone⟩ := h.addEdge hcwd hid hte
    obtain ⟨hall, hdone'⟩ := ih hadd (hdone ▸ hid) hses htes
    refine ⟨?_, hdone'.trans hdone⟩
    -- two updates at one file are one with both lists of edges
    rwa [Function.update_idem, Function.update_self, List.append_assoc] at hall

/-! ### A file's turn -/

/-- A file that has its turn overwrites the node that stands for it. -/
theorem overwrite (h : Inv b files published s) {i : Nat} (hi : s.waiting[i]? = some id) :
    Inv b files published
      { s with
        waiting := s.waiting.eraseIdx i
        done := id :: s.done
        graph := s.graph.updateNode id fun n =>
          { n with
            language := (b.reportOf id).language, imports := (b.reportOf id).imports
            errors := (b.reportOf id).errors } } := by
  have hid : id ∈ s.waiting := List.mem_of_getElem? hi
  have hvisited := h.waiting_visited hid
  have hdone := h.not_done_of_waiting hid
  constructor
  case sound => exact h.sound.updateNode id fun _ => rfl
  case root_eq => exact h.root_eq
  case entries_eq => exact h.entries_eq
  case needed => exact h.needed
  case nodup => exact h.nodup
  case entries_visited => exact h.entries_visited
  case nodes_perm =>
    rw [ModuleGraph.updateNode, Keyed.map_fst_update]
    exact h.nodes_perm
  case turns_perm =>
    -- the file goes over from those that wait to those that are done
    obtain ⟨hlt, hget⟩ := List.getElem?_eq_some_iff.mp hi
    have hperm := List.getElem_cons_eraseIdx_perm hlt
    rw [hget] at hperm
    exact (List.perm_middle.symm.trans (hperm.append_left s.done)).trans h.turns_perm
  case node_eq =>
    intro p hp
    rw [ModuleGraph.node?, ModuleGraph.updateNode, Keyed.value?_update]
    rcases List.mem_cons.mp hp with rfl | hp
    · -- the node has the path that it is kept at, and that is the path of the file
      have hcontains := h.contains_of_visited hvisited
      rw [ModuleGraph.contains, Keyed.holds_eq] at hcontains
      obtain ⟨n, hn⟩ := Option.isSome_iff_exists.mp hcontains
      obtain ⟨k, hsame, hmem⟩ := Keyed.mem_of_value? hn
      have hk : k ∈ s.visited := h.nodes_perm.subset (List.mem_map_of_mem hmem)
      have hkp := (h.needed k hk).eq_of_same hcwd (h.needed p hvisited) hsame
      have hnp : n.id = p := (h.sound.keyed _ hmem).trans hkp
      rw [if_pos (Path.same_refl p), hn, Option.map_some, hnp]
      rfl
    · -- a file that was done before is another one
      have hne : ¬ id.same p := fun hsame =>
        hdone ((h.needed _ hvisited).eq_of_same hcwd (h.needed p (h.done_visited hp)) hsame ▸ hp)
      rw [if_neg hne]
      exact h.node_eq p hp
  case edges_eq => exact h.edges_eq
  case target_visited => exact h.target_visited
  case published_eq_nil => exact fun p hp => h.published_eq_nil p (mt (List.mem_cons_of_mem _) hp)
  case fault_eq => exact h.fault_eq

end Cwd

end Inv

/-! ### Validity -/

/-- What holds of a build between two turns: the files that are done have published their edges. -/
def Valid (b : Builder) (files : List Path) (s : BuildState) : Prop :=
  Inv b files (b.published s.done) s

/-- The beginning: the entries are nodes and wait, and nothing has been published. -/
theorem Valid.start (b : Builder) (files : List Path) :
    Valid b files (b.start (b.entriesOf files)) := by
  have hdistinct : (b.entriesOf files).Pairwise fun p q => ¬ p.same q :=
    (b.ascending_entriesOf files).imp Path.not_same_of_lt
  -- adding the entries, which are different modules, gives a sound graph of them without edges
  obtain ⟨hsound, ⟨hroot, hentries, hedges⟩, hperm⟩ :=
    ModuleGraph.foldl_addNode b.language.name (b.entriesOf files)
      { root := b.root, entries := b.entriesOf files } (.empty _ _) (fun _ _ => Bool.false_ne_true)
      hdistinct
  have hnone : ∀ p, b.published [] p = [] := fun p => if_neg List.not_mem_nil
  constructor
  case sound => exact hsound
  case root_eq => exact hroot
  case entries_eq => exact hentries
  case needed => exact fun p hp => Builder.needed_of_mem_entriesOf hp
  case nodup => exact (b.ascending_entriesOf files).nodup
  case entries_visited => exact fun p hp => hp
  case nodes_perm =>
    rw [List.map_nil, List.append_nil] at hperm
    exact hperm
  case turns_perm => exact List.reverse_perm _
  case node_eq => exact fun p hp => absurd hp List.not_mem_nil
  case edges_eq =>
    intro p _
    change List.filter _ (b.start _).graph.edges = Edge.distinct (b.published [] p)
    rw [hnone, Builder.start, hedges]
    rfl
  case target_visited =>
    intro p _ e he
    change e ∈ b.published [] p at he
    rw [hnone] at he
    exact absurd he List.not_mem_nil
  case published_eq_nil => exact fun p _ => hnone p
  case fault_eq => rfl

/-- A report on a known file overwrites its node, then adds its edges, then notes what it passes
on. -/
theorem publish_eq (r : FileReport) (h : s.graph.contains r.id) :
    s.publish r =
      let t := r.edges.foldl BuildState.addEdge
        { s with
          graph := s.graph.updateNode r.id fun n =>
            { n with language := r.language, imports := r.imports, errors := r.errors } }
      if r.reExports.isEmpty then t
      else { t with reExports := t.reExports ++ [(r.id, r.reExports)] } := by
  simp only [publish, if_pos h]

/-- A file that is done now has published what its report has; before, it had published nothing. -/
theorem published_cons {done : List Path} (hid : id ∉ done) :
    Function.update (b.published done) id (b.published done id ++ (b.reportOf id).edges) =
      b.published (id :: done) := by
  have hnone : b.published done id = [] := if_neg hid
  funext p
  by_cases hp : p = id
  · rw [hp, Function.update_self, hnone, List.nil_append]
    exact (if_pos List.mem_cons_self).symm
  · rw [Function.update_of_ne hp]
    simp only [Builder.published, List.mem_cons, hp, false_or]

section Cwd

variable (hcwd : ∀ n ∈ b.resolver.disk.cwd, IsName n)

include hcwd

/-- A waiting file is known already, so that its report changes a node and adds its edges. -/
theorem Valid.publish (h : Valid b files s) {i : Nat} (hi : s.waiting[i]? = some id) :
    let t : BuildState := { s with waiting := s.waiting.eraseIdx i, done := id :: s.done }
    Valid b files (t.publish (b.reportOf id)) ∧
      (t.publish (b.reportOf id)).done = id :: s.done := by
  intro t
  have hid : id ∈ s.waiting := List.mem_of_getElem? hi
  have hneeded := h.needed id (h.waiting_visited hid)
  have hcontains : t.graph.contains (b.reportOf id).id := by
    rw [b.reportOf_id]
    exact h.contains_of_visited (h.waiting_visited hid)
  obtain ⟨hall, hdone⟩ := (h.overwrite hcwd hi).foldl_addEdge hcwd (b.reportOf id).edges
    List.mem_cons_self (fun e he => Builder.source_eq_of_mem_edges he)
    fun e he => hneeded.imported (Builder.imports_iff.mpr ⟨e, he, rfl⟩)
  rw [published_cons (h.not_done_of_waiting hid)] at hall
  rw [publish_eq _ hcontains, b.reportOf_id]
  dsimp only [t]
  generalize (b.reportOf id).edges.foldl BuildState.addEdge _ = u at hall hdone
  change u.done = id :: s.done at hdone
  rw [← hdone] at hall
  split
  · exact ⟨hall, hdone⟩
  · -- the table of re-exports is no part of the invariant
    refine ⟨?_, hdone⟩
    change Inv b files (b.published u.done) _
    exact { hall with }

/-- **Step.** A turn keeps a build valid, whichever file has it. -/
theorem Valid.step {c : Schedule} (hc : c.cancelAfter = none)
    (hread : ∀ id ∈ b.entriesOf files, b.language.handles id →
      ∃ bytes, b.resolver.disk.read id = .ok bytes)
    (h : Valid b files s) (hwaiting : s.waiting ≠ []) :
    Valid b files (b.step c (b.entriesOf files) s) ∧
      ∃ id, (b.step c (b.entriesOf files) s).done = id :: s.done := by
  have hcancel : c.isCancelled s = false := by rw [Schedule.isCancelled, hc]; rfl
  obtain ⟨id, hid⟩ : ∃ id, s.waiting[min (c.pick s) (s.waiting.length - 1)]? = some id := by
    have hpos := List.length_pos_of_ne_nil hwaiting
    exact ⟨_, List.getElem?_eq_getElem (by omega)⟩
  -- a file that is the same as an entry is that entry, so it can be read
  have hentry : id.among (b.entriesOf files) → b.language.handles id →
      ∃ bytes, b.resolver.disk.read id = .ok bytes := by
    intro hamong
    obtain ⟨p, hp, hsame⟩ := Path.among_iff.mp hamong
    have hneeded := h.needed id (h.waiting_visited (List.mem_of_getElem? hid))
    rw [← (Builder.needed_of_mem_entriesOf hp).eq_of_same hcwd hneeded hsame]
    exact hread p hp
  have hstep : b.step c (b.entriesOf files) s =
      BuildState.publish
        { s with
          waiting := s.waiting.eraseIdx (min (c.pick s) (s.waiting.length - 1))
          done := id :: s.done }
        (b.reportOf id) := by
    simp only [Builder.step, hcancel, hid, Builder.turn, h.fault_eq, Builder.read_eq hentry]
    simp
  rw [hstep]
  exact ⟨(h.publish hcwd hid).1, id, (h.publish hcwd hid).2⟩

end Cwd

end

end BuildState

end ImportAtlas
