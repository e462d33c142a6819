import ImportAtlas.Proofs.Build.ReExport
import ImportAtlas.Proofs.Build.Result

/-!
# Builds that follow re-exports

A build may follow re-exports at its end. The graph then has the same entries and nodes as without,
and the edges that take the place of those (`Builder.build_unwrapped`).

* `Builder.offersOf`, `Builder.reExportTable` — what a file passes on, and the table of what several
  files do;
* `BuildState.Tabled` — a build has noted what the files that are done pass on, in their order;
* `BuildState.Valid.run_outcome` — under every schedule a build ends, called off, with a fault, or
  with all needed files done;
* `BuildState.Valid.mem_edges_unwrap` — what following re-exports makes of the edges at the end.

What a file passes on comes with an edge to the same module. So every module in the table is a
needed file and a node, whatever the order in which the files had their turns, and no edge is lost.
-/

namespace ImportAtlas

namespace Builder

/-- What a file passes on, in the order of its records. -/
def offersOf (b : Builder) (p : Path) : List ReExport :=
  (b.reportOf p).imports.filterMap (b.offerOf? p)

/-- The table of the files that pass something on. -/
def reExportTable (b : Builder) (ids : List Path) : ReExportTable :=
  (ids.map fun p => (p, b.offersOf p)).filter fun entry => !entry.2.isEmpty

/-- The builder that follows re-exports, or the one that does not. -/
def unwrapping (b : Builder) (unwrap : Bool) : Builder :=
  { b with unwrapReExports := unwrap }

variable {b : Builder} {files ids ids' : List Path} {p q : Path}

/-- What a report notes is what the file passes on. -/
theorem reportOf_reExports (b : Builder) (p : Path) : (b.reportOf p).reExports = b.offersOf p :=
  (b.reportOf_spec p).2.2

/-- Whatever has been read is the report on the file. -/
theorem eq_reportOf_of_read {isEntry : Bool} {r : FileReport} (h : b.read p isEntry = .ok r) :
    r = b.reportOf p := by
  have hread : b.read p isEntry = .ok (b.reportOf p) := by
    refine read_eq fun hentry hhandles => ?_
    cases hdisk : b.resolver.disk.read p with
    | ok bytes => exact ⟨bytes, rfl⟩
    | error f => simp [read, hhandles, hdisk, hentry] at h
  exact Except.ok.inj (h.symm.trans hread)

/-! ### Tables -/

/-- The table is made file by file, in the order in which they are done. -/
theorem reExportTable_append (b : Builder) (ids ids' : List Path) :
    b.reExportTable (ids ++ ids') = b.reExportTable ids ++ b.reExportTable ids' := by
  rw [reExportTable, List.map_append, List.filter_append]
  rfl

/-- The entries of the table: the files that pass something on, each with all that it passes on. -/
theorem mem_reExportTable {entry : Path × List ReExport} :
    entry ∈ b.reExportTable ids ↔
      entry.1 ∈ ids ∧ b.offersOf entry.1 ≠ [] ∧ entry.2 = b.offersOf entry.1 := by
  rw [reExportTable, List.mem_filter, List.mem_map]
  constructor
  · rintro ⟨⟨p, hp, rfl⟩, hne⟩
    exact ⟨hp, by simpa using hne, rfl⟩
  · rintro ⟨hp, hne, heq⟩
    exact ⟨⟨entry.1, hp, Prod.ext rfl heq.symm⟩, by simpa [heq] using hne⟩

/-- What is offered comes with an edge to the same module. -/
theorem imports_of_mem_offersOf {offer : ReExport} (h : offer ∈ b.offersOf p) :
    b.Imports p offer.target := by
  obtain ⟨record, hrecord, hoffer⟩ := List.mem_filterMap.mp h
  unfold offerOf? at hoffer
  split at hoffer
  · obtain ⟨e, he, rfl⟩ := Option.map_eq_some_iff.mp hoffer
    rw [imports_iff, reportOf_edges]
    exact ⟨e, List.mem_filterMap.mpr ⟨record, hrecord, he⟩, rfl⟩
  · cases hoffer

/-- What needed files pass on is taken from needed files. -/
theorem needed_of_offer (hids : ∀ p ∈ ids, b.Needed files p)
    {entry : Path × List ReExport} (hentry : entry ∈ b.reExportTable ids) {offer : ReExport}
    (hoffer : offer ∈ entry.2) : b.Needed files offer.target := by
  obtain ⟨hmem, -, heq⟩ := mem_reExportTable.mp hentry
  rw [heq] at hoffer
  exact (hids _ hmem).imported (imports_of_mem_offersOf hoffer)

section Apart

variable (hnodup : ids.Nodup) (hapart : ∀ p ∈ ids, ∀ q ∈ ids, p.same q → p = q)

include hnodup hapart

/-- Different files have different entries, since no two of them are the same module. -/
theorem distinct_reExportTable : (b.reExportTable ids).Distinct := by
  have hids : ids.Pairwise fun p q => ¬ p.same q :=
    hnodup.imp_of_mem fun hp hq hne hsame => hne (hapart _ hp _ hq hsame)
  exact (List.pairwise_map.mpr hids).filter _

/-- A table has what its files pass on. -/
theorem of?_reExportTable (hp : p ∈ ids) :
    (b.reExportTable ids).of? p = if b.offersOf p = [] then none else some (b.offersOf p) := by
  have hof : ∀ offers, (b.reExportTable ids).of? p = some offers ↔
      b.offersOf p ≠ [] ∧ offers = b.offersOf p := by
    intro offers
    rw [(distinct_reExportTable hnodup hapart).of?_eq_some]
    constructor
    · rintro ⟨k, hk, hsame⟩
      obtain ⟨hmem, hne, heq⟩ := mem_reExportTable.mp hk
      -- the entry that is found is that of the file itself
      obtain rfl : k = p := hapart k hmem p hp hsame
      exact ⟨hne, heq⟩
    · rintro ⟨hne, rfl⟩
      exact ⟨p, mem_reExportTable.mpr ⟨hp, hne, rfl⟩, Path.same_refl p⟩
  split
  · next hnil => exact Option.eq_none_iff_forall_ne_some.mpr fun offers h => ((hof _).mp h).1 hnil
  · next hne => exact (hof _).mpr ⟨hne, rfl⟩

end Apart

end Builder

namespace BuildState

variable {b : Builder} {files : List Path} {s : BuildState} {id p : Path}

/-- A build has noted what the files that are done pass on. -/
def Tabled (b : Builder) (s : BuildState) : Prop :=
  s.reExports = b.reExportTable s.done.reverse

/-- Edges do not touch the table. -/
theorem reExports_addEdge (s : BuildState) (e : Edge) : (s.addEdge e).reExports = s.reExports := by
  rw [addEdge_eq]
  dsimp only [discover]
  split <;> rfl

/-- All edges of a file do not touch the table. -/
theorem reExports_foldl_addEdge (s : BuildState) (es : List Edge) :
    (es.foldl addEdge s).reExports = s.reExports := by
  induction es generalizing s with
  | nil => rfl
  | cons e es ih => rw [List.foldl_cons, ih, reExports_addEdge]

/-- Publishing a report adds at most one entry to the table, at its end. -/
theorem reExports_publish (s : BuildState) (r : FileReport) :
    (s.publish r).reExports =
      s.reExports ++ if r.reExports.isEmpty then [] else [(r.id, r.reExports)] := by
  unfold publish
  dsimp only
  split
  · exact (reExports_foldl_addEdge _ _).trans (List.append_nil _).symm
  · exact congrArg (· ++ [(r.id, r.reExports)]) (reExports_foldl_addEdge _ _)

/-- The table is kept when a file is done: it gets the entry of that file. -/
theorem tabled_publish (h : Tabled b s) (waiting : List Path)
    (hdone : (publish { s with waiting, done := id :: s.done } (b.reportOf id)).done =
      id :: s.done) :
    Tabled b (publish { s with waiting, done := id :: s.done } (b.reportOf id)) := by
  rw [Tabled, hdone, reExports_publish, b.reportOf_reExports, b.reportOf_id, List.reverse_cons,
    Builder.reExportTable_append, ← h]
  -- the file is the last one of the table, if it passes anything on
  refine congrArg (s.reExports ++ ·) ?_
  cases hoffers : b.offersOf id <;> simp [Builder.reExportTable, hoffers]

end BuildState

namespace Builder

variable {b : Builder} {c : Schedule} {entries files : List Path} {s : BuildState} {id : Path}

/-! ### The end of a run -/

/-- When no file waits, a step does nothing, so that runs may be compared step by step. -/
theorem step_of_waiting_nil (h : s.waiting = []) : b.step c entries s = s := by
  unfold step
  split
  · rw [← h]
  · simp [h]

/-- When no file waits, the run is over. -/
theorem run_of_waiting_nil (h : s.waiting = []) : b.run c entries s = s := by
  rw [run_eq, if_pos (by rw [h]; rfl)]

/-- While a file waits, the run takes a step. -/
theorem run_of_waiting (h : s.waiting ≠ []) :
    b.run c entries s = b.run c entries (b.step c entries s) := by
  rw [run_eq, if_neg (by simpa using h)]

/-- A run is as many steps as it takes until no file waits. -/
theorem run_eq_iterate (k : Nat) (h : ((b.step c entries)^[k] s).waiting = []) :
    b.run c entries s = (b.step c entries)^[k] s := by
  induction k generalizing s with
  | zero => exact run_of_waiting_nil h
  | succ k ih =>
    rw [Function.iterate_succ_apply] at h ⊢
    by_cases hwaiting : s.waiting = []
    · rw [step_of_waiting_nil hwaiting] at h ⊢
      exact ih h
    · rw [run_of_waiting hwaiting]
      exact ih h

/-- A step of a build that is not called off is the turn of a waiting file. Which one the schedule
picks does not matter, since every pick is cut to the length of the list. -/
theorem step_eq_turn (b : Builder) (entries : List Path) (hcancel : ¬ c.isCancelled s)
    (hwaiting : s.waiting ≠ []) :
    ∃ i id, s.waiting[i]? = some id ∧
      b.step c entries s = b.turn entries id { s with waiting := s.waiting.eraseIdx i } := by
  have hpos := List.length_pos_of_ne_nil hwaiting
  have hget := List.getElem?_eq_getElem
    (show min (c.pick s) (s.waiting.length - 1) < s.waiting.length by omega)
  refine ⟨_, _, hget, ?_⟩
  simp only [step, if_neg hcancel, hget]

/-- After a fault the files are only taken off the list. -/
theorem ends_of_fault (b : Builder) (c : Schedule) (entries : List Path) (s : BuildState)
    (hfault : s.fault.isSome) :
    ∃ k, let t := (b.step c entries)^[k] s
      t.waiting = [] ∧ t.fault.isSome := by
  by_cases hwaiting : s.waiting = []
  · exact ⟨0, hwaiting, hfault⟩
  · by_cases hcancel : c.isCancelled s
    · have hstep : b.step c entries s = { s with waiting := [] } := by rw [step, if_pos hcancel]
      exact ⟨1, by rw [Function.iterate_one, hstep]; exact ⟨rfl, hfault⟩⟩
    · obtain ⟨i, id, hid, hstep⟩ := b.step_eq_turn entries hcancel hwaiting
      have hlt : i < s.waiting.length := (List.getElem?_eq_some_iff.mp hid).1
      rw [turn, if_pos hfault] at hstep
      have hfewer : (b.step c entries s).waiting.length < s.waiting.length := by
        rw [hstep, List.length_eraseIdx_of_lt hlt]
        omega
      -- the list gets shorter and the fault stays
      obtain ⟨k, hk⟩ := ends_of_fault b c entries (b.step c entries s) (by rw [hstep]; exact hfault)
      exact ⟨k + 1, hk⟩
termination_by s.waiting.length

end Builder

/-- The graph at the end of a build. -/
theorem Builder.finish_spec {b : Builder} {files : List Path} {s : BuildState}
    (h : BuildState.Valid b files s) (unwrap : Bool) (time : String) :
    let g := (b.unwrapping unwrap).finish time s
    g.Sound ∧ (g.root = b.root ∧ g.language = b.language.name ∧ g.entries = b.entriesOf files ∧
      g.nodes = s.graph.nodes) ∧
    ∀ e, e ∈ g.edges ↔ e ∈ (if unwrap then s.reExports.unwrap s.graph else s.graph).edges := by
  let u := if unwrap then s.reExports.unwrap s.graph else s.graph
  -- the graph without the edges followed and the one with them have all but the edges in common
  have hu : u.Sound ∧ u.root = s.graph.root ∧ u.entries = s.graph.entries ∧
      u.nodes = s.graph.nodes := by
    dsimp only [u]
    split
    · exact ⟨h.sound.toIndexed.replaceEdges _, rfl, rfl, rfl⟩
    · exact ⟨h.sound, rfl, rfl, rfl⟩
  obtain ⟨hsound, hroot, hentries, hnodes⟩ := hu
  have hasc : Path.Ascending u.entries := by
    rw [hentries, h.entries_eq]
    exact b.ascending_entriesOf files
  refine ⟨(hsound.describe b.language.name time).finalize, ⟨hroot.trans h.root_eq, rfl, ?_, hnodes⟩,
    fun e => (ModuleGraph.finalize_perm _).mem_iff⟩
  exact (ModuleGraph.entries_finalize hasc).trans (hentries.trans h.entries_eq)

section Cwd

variable {b : Builder} {c : Schedule} {files : List Path} {s : BuildState} {id : Path}
  (hcwd : ∀ n ∈ b.resolver.disk.cwd, IsName n)

include hcwd

namespace BuildState

/-- What a step of a build that goes on can do: a needed file has its turn, and either it is an
entry that cannot be read, or it publishes its report. -/
theorem Valid.step_cases (h : Valid b files s) (hcancel : ¬ c.isCancelled s)
    (hwaiting : s.waiting ≠ []) :
    let t := b.step c (b.entriesOf files) s
    ∃ id, b.Needed files id ∧ t.done = id :: s.done ∧
      ((∃ f, b.read id (id.among (b.entriesOf files)) = .error f ∧ t.fault = some f) ∨
        b.read id (id.among (b.entriesOf files)) = .ok (b.reportOf id) ∧ Valid b files t ∧
          (Tabled b s → Tabled b t)) := by
  intro t
  obtain ⟨i, id, hid, hstep⟩ := b.step_eq_turn (b.entriesOf files) hcancel hwaiting
  -- a valid build has no fault, so that the file is read
  have hfault : ¬ s.fault.isSome := by simp [h.fault_eq]
  rw [Builder.turn, if_neg hfault] at hstep
  refine ⟨id, h.needed id (h.waiting_visited (List.mem_of_getElem? hid)), ?_⟩
  cases hread : b.read id (id.among (b.entriesOf files)) with
  | error f =>
    have ht : t = { s with
        waiting := s.waiting.eraseIdx i, done := id :: s.done, fault := some f } := by
      rw [hread] at hstep
      exact hstep
    rw [ht]
    exact ⟨rfl, .inl ⟨f, rfl, rfl⟩⟩
  | ok r =>
    obtain ⟨hvalid, hdone⟩ := h.publish hcwd hid
    obtain rfl := Builder.eq_reportOf_of_read hread
    have ht : t = BuildState.publish
        { s with waiting := s.waiting.eraseIdx i, done := id :: s.done } (b.reportOf id) := by
      rw [hread] at hstep
      exact hstep
    rw [ht]
    exact ⟨hdone, .inr ⟨rfl, hvalid, fun htable => tabled_publish htable _ hdone⟩⟩

/-- **Every run ends**, under every schedule: called off, with a fault, or with all needed files
done. -/
theorem Valid.run_outcome {s : BuildState} (h : Valid b files s) (htable : Tabled b s) :
    ∃ k, let t := (b.step c (b.entriesOf files))^[k] s
      t.waiting = [] ∧ (c.isCancelled t ∨ t.fault.isSome ∨ (Valid b files t ∧ Tabled b t)) := by
  by_cases hwaiting : s.waiting = []
  · exact ⟨0, hwaiting, .inr (.inr ⟨h, htable⟩)⟩
  · by_cases hcancel : c.isCancelled s
    · have hstep : b.step c (b.entriesOf files) s = { s with waiting := [] } := by
        rw [Builder.step, if_pos hcancel]
      exact ⟨1, by rw [Function.iterate_one, hstep]; exact ⟨rfl, .inl hcancel⟩⟩
    · -- one more turn: it ends the build, or it leads to a valid state with one more file done
      obtain ⟨id, -, hdone, ⟨f, -, hfault⟩ | ⟨-, hvalid, htable'⟩⟩ :=
        h.step_cases hcwd hcancel hwaiting
      · have hsome : (b.step c (b.entriesOf files) s).fault.isSome := by rw [hfault]; rfl
        obtain ⟨k, hnone, hk⟩ := b.ends_of_fault c (b.entriesOf files) _ hsome
        exact ⟨k + 1, hnone, .inr (.inl hk)⟩
      · have hmore : (b.step c (b.entriesOf files) s).done.length = s.done.length + 1 := by
          rw [hdone, List.length_cons]
        have hle := hvalid.done_length_le hcwd
        obtain ⟨k, hk⟩ := hvalid.run_outcome (htable' htable)
        exact ⟨k + 1, hk⟩
termination_by (b.bound files).length - s.done.length

/-! ### The graph at the end -/

/-- The edges at the end are those of the needed files. -/
theorem Valid.mem_edges (h : Valid b files s) (hwaiting : s.waiting = []) {e : Edge} :
    e ∈ s.graph.edges ↔ ∃ p, b.Needed files p ∧ e ∈ Edge.distinct (b.reportOf p).edges := by
  obtain ⟨-, hids, -⟩ := h.nodes_eq hcwd hwaiting
  let g : ModuleGraph :=
    { root := b.root
      edges := (s.graph.nodes.map (·.1)).flatMap fun p => Edge.distinct (b.reportOf p).edges }
  calc e ∈ s.graph.edges ↔ e ∈ s.graph.finalize.edges :=
        (ModuleGraph.finalize_perm s.graph).mem_iff.symm
    _ ↔ e ∈ g.finalize.edges := by rw [h.edges_finalize hcwd hwaiting (g := g) rfl]
    _ ↔ e ∈ g.edges := (ModuleGraph.finalize_perm g).mem_iff
    _ ↔ _ := by simp only [g, List.mem_flatMap, hids]

/-- Both ends of an edge are needed files. -/
theorem Valid.needed_of_mem_edges (h : Valid b files s) (hwaiting : s.waiting = []) {e : Edge}
    (he : e ∈ s.graph.edges) : b.Needed files e.source ∧ b.Needed files e.target := by
  obtain ⟨p, hp, he⟩ := (h.mem_edges hcwd hwaiting).mp he
  have hmem := Edge.mem_of_mem_distinct he
  obtain rfl := Builder.source_eq_of_mem_edges hmem
  exact ⟨hp, hp.imported (Builder.imports_iff.mpr ⟨e, hmem, rfl⟩)⟩

/-- At the end every needed file is a node. -/
theorem Valid.contains_of_needed (h : Valid b files s) (hwaiting : s.waiting = [])
    (hp : b.Needed files p) : s.graph.contains p := by
  obtain ⟨-, hids, -⟩ := h.nodes_eq hcwd hwaiting
  rw [ModuleGraph.contains, Keyed.holds_iff_among]
  exact Path.among_of_mem ((hids p).mpr hp)

/-- The table at the end is that of the nodes, but for the order of its entries. -/
theorem Valid.of?_reExports (h : Valid b files s) (htable : Tabled b s) (hwaiting : s.waiting = [])
    (p : Path) :
    s.reExports.of? p = (b.reExportTable (s.graph.nodes.map (·.1))).of? p := by
  obtain ⟨hasc, hids, hperm, -⟩ := h.nodes_eq hcwd hwaiting
  -- files that are the same path are one file, so each has one entry in the table
  have hapart : ∀ p ∈ s.graph.nodes.map (·.1), ∀ q ∈ s.graph.nodes.map (·.1), p.same q → p = q :=
    fun p hp q hq => ((hids p).mp hp).eq_of_same hcwd ((hids q).mp hq)
  have hperm' := (List.reverse_perm s.done).trans hperm
  rw [htable]
  -- both tables have the same entries, in different orders
  refine (Builder.distinct_reExportTable (hperm'.nodup_iff.mpr hasc.nodup) ?_).of?_congr
    (Builder.distinct_reExportTable hasc.nodup hapart) (fun entry => ?_) p
  · simpa only [hperm'.mem_iff] using hapart
  · rw [Builder.mem_reExportTable, Builder.mem_reExportTable, hperm'.mem_iff]

/-- **Following re-exports.** No edge that takes the place of another is lost. -/
theorem Valid.mem_edges_unwrap (h : Valid b files s) (htable : Tabled b s)
    (hwaiting : s.waiting = []) {f : Edge} :
    f ∈ (s.reExports.unwrap s.graph).edges ↔
      ∃ e ∈ s.graph.edges, (b.reExportTable (s.graph.nodes.map (·.1))).Redirected e f := by
  obtain ⟨-, hids, -⟩ := h.nodes_eq hcwd hwaiting
  have hof := h.of?_reExports hcwd htable hwaiting
  -- all names lead from needed files to needed files, and of these no two are the same
  have hoffers : ∀ entry ∈ s.reExports, ∀ offer ∈ entry.2, b.Needed files offer.target := by
    intro entry hentry offer hoffer
    rw [htable] at hentry
    refine Builder.needed_of_offer (fun p hp => ?_) hentry hoffer
    exact (h.mem_done_iff hcwd hwaiting).mp (List.mem_reverse.mp hp)
  have hends : ∀ e ∈ s.graph.edges, s.reExports.EndsApart e.target e.symbols := by
    intro e he m _ n _ hsame
    have hneeded : ∀ name, b.Needed files (s.reExports.follow e.target name).1 := fun name =>
      (ReExportTable.follows_iff.mpr rfl).end_mem hoffers (h.needed_of_mem_edges hcwd hwaiting he).2
    exact (hneeded m.name).eq_of_same hcwd (hneeded n.name) hsame
  have hflat : ∀ f, f ∈ s.graph.edges.flatMap s.reExports.redirect ↔
      ∃ e ∈ s.graph.edges, s.reExports.Redirected e f := by
    intro f
    rw [List.mem_flatMap]
    exact exists_congr fun e => and_congr_right fun he => ReExportTable.mem_redirect (hends e he)
  have hneeded : ∀ f ∈ s.graph.edges.flatMap s.reExports.redirect,
      b.Needed files f.source ∧ b.Needed files f.target := by
    intro f hf
    obtain ⟨e, he, hef⟩ := (hflat f).mp hf
    obtain ⟨hsource, htarget⟩ := h.needed_of_mem_edges hcwd hwaiting he
    exact ⟨hef.source_eq ▸ hsource, hef.target_mem hoffers htarget⟩
  have hkeep : f ∈ s.graph.keepEdges (s.graph.edges.flatMap s.reExports.redirect) ↔
      f ∈ s.graph.edges.flatMap s.reExports.redirect := by
    refine ModuleGraph.mem_keepEdges (fun f hf => ?_) fun f hf f' hf' hsame => ?_
    · obtain ⟨hsource, htarget⟩ := hneeded f hf
      exact ⟨h.contains_of_needed hcwd hwaiting hsource,
        h.contains_of_needed hcwd hwaiting htarget⟩
    · obtain ⟨hsource, htarget⟩ := Edge.ends_same_of_same hsame
      exact Edge.eq_of_same ((hneeded f hf).1.eq_of_same hcwd (hneeded f' hf').1 hsource)
        ((hneeded f hf).2.eq_of_same hcwd (hneeded f' hf').2 htarget) hsame
  rw [ReExportTable.unwrap, ModuleGraph.replaceEdges]
  refine hkeep.trans ((hflat f).trans ?_)
  simp only [ReExportTable.redirected_congr hof]

end BuildState

namespace Builder

/-! ### Builds with and without -/

omit hcwd in
/-- What a build gives, in terms of the state that it stops in. Whether re-exports are followed is
asked only then. -/
theorem build_unwrapping (b : Builder) {k : Nat}
    (hnone : ((b.step c (b.entriesOf files))^[k] (b.start (b.entriesOf files))).waiting = [])
    (unwrap : Bool) (time : String) :
    (b.unwrapping unwrap).build c time files =
      let s := (b.step c (b.entriesOf files))^[k] (b.start (b.entriesOf files))
      if files.isEmpty then .error (.noEntryFiles .noneGiven)
      else if (b.entriesOf files).isEmpty then .error (.noEntryFiles .allExcluded)
      else if c.isCancelled s then .error .cancelled
      else
        match s.fault with
        | some f => .error f
        | none => .ok ((b.unwrapping unwrap).finish time s) := by
  -- the run does not ask whether re-exports are followed
  have hrun : (b.unwrapping unwrap).run c (b.entriesOf files) (b.start (b.entriesOf files)) =
      (b.step c (b.entriesOf files))^[k] (b.start (b.entriesOf files)) :=
    run_eq_iterate (b := b.unwrapping unwrap) k hnone
  rw [← hrun]
  rfl

/-- A build succeeds that nobody calls off, when the entries can be read. -/
theorem exists_build (hc : c.cancelAfter = none) (hentries : b.entriesOf files ≠ [])
    (hread : ∀ id ∈ b.entriesOf files, b.language.handles id →
      ∃ bytes, b.resolver.disk.read id = .ok bytes) (unwrap : Bool) (time : String) :
    ∃ g, (b.unwrapping unwrap).build c time files = .ok g := by
  obtain ⟨k, hvalid, hnone, -⟩ := (BuildState.Valid.start b files).run hcwd hc hread
  have hfiles : files ≠ [] := fun hnil => hentries (by rw [hnil]; rfl)
  rw [b.build_unwrapping hnone]
  simp [hfiles, hentries, Schedule.isCancelled, hc, hvalid.fault_eq]

/-- What a build that succeeds has at its end. -/
theorem exists_end_of_build {unwrap : Bool} {time : String} {g : ModuleGraph}
    (h : (b.unwrapping unwrap).build c time files = .ok g) :
    ∃ s, BuildState.Valid b files s ∧ BuildState.Tabled b s ∧ s.waiting = [] ∧
      ∀ unwrap', (b.unwrapping unwrap').build c time files =
        .ok ((b.unwrapping unwrap').finish time s) := by
  obtain ⟨k, hnone, houtcome⟩ := (BuildState.Valid.start b files).run_outcome (c := c) hcwd rfl
  have hbuild := b.build_unwrapping hnone
  generalize (b.step c (b.entriesOf files))^[k] (b.start (b.entriesOf files)) = s
    at hnone houtcome hbuild
  -- of all the ways to end, only the last one gives a graph
  rw [hbuild] at h
  dsimp only at h
  split at h
  · cases h
  next hfiles =>
  split at h
  · cases h
  next hentries =>
  split at h
  · cases h
  next hcancel =>
  cases hfault : s.fault with
  | some f =>
    rw [hfault] at h
    cases h
  | none =>
    rw [hfault] at houtcome
    obtain ⟨hvalid, htable⟩ := (houtcome.resolve_left hcancel).resolve_left (by simp)
    refine ⟨s, hvalid, htable, hnone, fun unwrap' => ?_⟩
    simp only [hbuild, if_neg hfiles, if_neg hentries, if_neg hcancel, hfault]

/-- The edges of a graph without are those of the needed files. -/
theorem mem_edges_of_build {time : String} {g : ModuleGraph}
    (h : (b.unwrapping false).build c time files = .ok g) {e : Edge} :
    e ∈ g.edges ↔ ∃ p, b.Needed files p ∧ e ∈ Edge.distinct (b.reportOf p).edges := by
  obtain ⟨s, hvalid, -, hnone, hbuild⟩ := exists_end_of_build hcwd h
  obtain rfl := Except.ok.inj (h.symm.trans (hbuild false))
  rw [(finish_spec hvalid false time).2.2]
  exact hvalid.mem_edges hcwd hnone

/-- **The graph with re-exports followed.** Let a build succeed that does not follow re-exports.
Then it does if it follows them, under whatever schedule it goes on, and the two graphs have the
same entries and nodes. Let `table` have what each of the files passes on, in the order of its
records. The edges are those that take the place of the edges without: all of these are there and no
others, names leading from nodes to nodes only. So the same modules have dependencies. In every
table, with circles or without, the way of a name ends, and ends where `follow` says. -/
theorem build_unwrapped {c₀ : Schedule} {t₀ : String} {g₀ : ModuleGraph}
    (h₀ : (b.unwrapping false).build c₀ t₀ files = .ok g₀) :
    (∃ g₁, (b.unwrapping true).build c₀ t₀ files = .ok g₁) ∧
    (∀ c₁ t₁ g₁, (b.unwrapping true).build c₁ t₁ files = .ok g₁ →
      let ids := g₀.nodes.map (·.1)
      let table := b.reExportTable ids
      (g₁.root = g₀.root ∧ g₁.language = g₀.language ∧ g₁.entries = g₀.entries ∧
        g₁.nodes = g₀.nodes) ∧
      (∀ p, p ∈ ids ↔ b.Needed files p) ∧
      (∀ p ∈ ids, table.of? p = if b.offersOf p = [] then none else some (b.offersOf p)) ∧
      (∀ e ∈ g₀.edges, ∀ name, (table.follow e.target name).1 ∈ ids) ∧
      (∀ f, f ∈ g₁.edges ↔ ∃ e ∈ g₀.edges, table.Redirected e f) ∧
      (g₁.edges.Pairwise fun e f => ¬ e.same f) ∧
      ∀ p, g₁.dependencies p = [] ↔ g₀.dependencies p = []) ∧
    ∀ (table : ReExportTable) (id : Path) (name : String) (r : Path × String),
      table.Follows [] id name r ↔ r = table.follow id name := by
  obtain ⟨s₀, hvalid₀, -, hnone₀, hbuild₀⟩ := exists_end_of_build hcwd h₀
  refine ⟨⟨_, hbuild₀ true⟩, fun c₁ t₁ g₁ h₁ => ?_,
    fun table id name r => ReExportTable.follows_iff⟩
  obtain ⟨s₁, hvalid₁, htable₁, hnone₁, hbuild₁⟩ := exists_end_of_build hcwd h₁
  obtain ⟨hsound₀, ⟨hroot₀, hlanguage₀, hentries₀, hgnodes₀⟩, -⟩ := finish_spec hvalid₀ false t₀
  obtain ⟨hsound₁, ⟨hroot₁, hlanguage₁, hentries₁, hgnodes₁⟩, hedges₁⟩ :=
    finish_spec hvalid₁ true t₁
  rw [← Except.ok.inj (h₀.symm.trans (hbuild₀ false))] at *
  rw [← Except.ok.inj (h₁.symm.trans (hbuild₁ true))] at *
  -- both graphs have the needed files as nodes, and had the same edges at first
  obtain ⟨hasc₀, hids₀, -, hnodes₀⟩ := hvalid₀.nodes_eq hcwd hnone₀
  obtain ⟨hasc₁, hids₁, -, hnodes₁⟩ := hvalid₁.nodes_eq hcwd hnone₁
  have hids := hasc₁.eq_of_mem_iff hasc₀ fun p => by rw [hids₀, hids₁]
  have hnodes : s₁.graph.nodes = s₀.graph.nodes := by rw [hnodes₀, hnodes₁, hids]
  have hbefore : ∀ e, e ∈ s₁.graph.edges ↔ e ∈ g₀.edges := fun e => by
    rw [hvalid₁.mem_edges hcwd hnone₁, mem_edges_of_build hcwd h₀]
  intro ids table
  have hidsEq : ids = s₁.graph.nodes.map (·.1) := by rw [hnodes, ← hgnodes₀]
  have hneeded : ∀ p, p ∈ ids ↔ b.Needed files p := by rw [hidsEq]; exact hids₁
  have hafter : ∀ f, f ∈ g₁.edges ↔ ∃ e ∈ g₀.edges, table.Redirected e f := by
    intro f
    simp only [hedges₁, ← hbefore, table, hidsEq]
    exact hvalid₁.mem_edges_unwrap hcwd htable₁ hnone₁
  have hfollow : ∀ e ∈ g₀.edges, ∀ name, b.Needed files (table.follow e.target name).1 := by
    intro e he name
    have htarget := (hvalid₁.needed_of_mem_edges hcwd hnone₁ ((hbefore e).mpr he)).2
    exact (ReExportTable.follows_iff.mpr rfl).end_mem
      (fun entry hentry offer => needed_of_offer (fun p => (hneeded p).mp) hentry) htarget
  have hapart : ∀ p ∈ ids, ∀ q ∈ ids, p.same q → p = q := fun p hp q hq =>
    ((hneeded p).mp hp).eq_of_same hcwd ((hneeded q).mp hq)
  refine ⟨⟨hroot₁.trans hroot₀.symm, hlanguage₁.trans hlanguage₀.symm,
    hentries₁.trans hentries₀.symm, hgnodes₁.trans (hnodes.trans hgnodes₀.symm)⟩, hneeded,
    fun p hp => ?_, fun e he name => (hneeded _).mpr (hfollow e he name), hafter, hsound₁.distinct,
    fun p => ?_⟩
  · exact of?_reExportTable (by rw [hidsEq]; exact hasc₁.nodup) hapart hp
  · rw [hsound₁.dependencies_eq_nil, hsound₀.dependencies_eq_nil]
    constructor
    · intro hnone e he hsame
      have hends : table.EndsApart e.target e.symbols := fun m _ n _ hsame =>
        (hfollow e he m.name).eq_of_same hcwd (hfollow e he n.name) hsame
      obtain ⟨f, hf⟩ := ReExportTable.exists_redirected hends
      exact hnone f ((hafter f).mpr ⟨e, he, hf⟩) (hf.source_eq ▸ hsame)
    · intro hnone f hf hsame
      obtain ⟨e, he, hef⟩ := (hafter f).mp hf
      exact hnone e he (hef.source_eq ▸ hsame)

end Builder

end Cwd

namespace Builder

/-- Three files: the first takes `x` from the second, which passes on what the third declares as
`y`. -/
theorem build_unwrapped_of_chain :
    let p : Path := ⟨"/p.js"⟩
    let q : Path := ⟨"/q.js"⟩
    let r : Path := ⟨"/r.js"⟩
    let tree : FileTree :=
      .directory [("p.js", .file ("import {x} from './q'".toUTF8)),
        ("q.js", .file ("export {y as x} from './r'".toUTF8)), ("r.js", .file "".toUTF8)]
    let b : Builder :=
      { resolver :=
          { disk := { tree }, language := .javaScript, sourceRoot := ⟨"/"⟩, aliases := [] }
        exclusion := ⟨⟨"/"⟩, []⟩
        root := ⟨"/"⟩
        unwrapReExports := false }
    (∀ n ∈ b.resolver.disk.cwd, IsName n) ∧
    ∃ g₀ g₁, (b.unwrapping false).build {} "0" [p] = .ok g₀ ∧
      (b.unwrapping true).build {} "0" [p] = .ok g₁ ∧
      { source := p, target := q, symbols := [⟨"x", none⟩] } ∈ g₀.edges ∧
      { source := p, target := r, symbols := [⟨"y", none⟩] } ∈ g₁.edges := by
  intro p q r tree b
  have hcwd : ∀ n ∈ b.resolver.disk.cwd, IsName n := fun n hn => absurd hn List.not_mem_nil
  have hentries : b.entriesOf [p] = [p] := by decide
  have hread : ∀ id ∈ b.entriesOf [p], b.language.handles id →
      ∃ bytes, b.resolver.disk.read id = .ok bytes := by
    intro id hid _
    rw [hentries, List.mem_singleton] at hid
    rw [hid]
    have hok : (b.resolver.disk.read p).isOk := by decide +kernel
    cases hread : b.resolver.disk.read p with
    | ok bytes => exact ⟨bytes, rfl⟩
    | error f => rw [hread] at hok; exact absurd hok Bool.false_ne_true
  have hne : b.entriesOf [p] ≠ [] := by rw [hentries]; exact List.cons_ne_nil _ _
  have hbuild := exists_build hcwd (c := {}) rfl hne hread
  obtain ⟨g₀, h₀⟩ := hbuild false "0"
  obtain ⟨g₁, h₁⟩ := hbuild true "0"
  obtain ⟨-, hids, hof, -, hafter, -⟩ := (build_unwrapped hcwd h₀).2.1 {} "0" g₁ h₁
  -- all three files are needed
  have hp : b.Needed [p] p :=
    needed_of_mem_entriesOf (by rw [hentries]; exact List.mem_singleton_self p)
  have hq : b.Needed [p] q := hp.imported (imports_iff.mpr (by decide +kernel))
  have hr : b.Needed [p] r := hq.imported (imports_iff.mpr (by decide +kernel))
  have hofq := hof q ((hids q).mpr hq)
  have hofr := hof r ((hids r).mpr hr)
  have hoffersq : b.offersOf q = [⟨r, [⟨"y", some "x"⟩]⟩] := by decide +kernel
  have hoffersr : b.offersOf r = [] := by decide +kernel
  rw [hoffersq, if_neg (List.cons_ne_nil _ _)] at hofq
  rw [hoffersr, if_pos rfl] at hofr
  have hedge : { source := p, target := q, symbols := [⟨"x", none⟩] } ∈ g₀.edges :=
    (mem_edges_of_build hcwd h₀).mpr ⟨p, hp, by decide +kernel⟩
  have hfollow : (r, "y") = (b.reExportTable (g₀.nodes.map (·.1))).follow q "x" := by
    refine ReExportTable.follows_iff.mp (.hop (by decide) ?_ (.declared (by decide) ?_))
    · rw [ReExportTable.hop?, hofq]
      decide
    · rw [ReExportTable.hop?, hofr]
      rfl
  refine ⟨hcwd, g₀, g₁, h₀, h₁, hedge, (hafter _).mpr ⟨_, hedge, ?_⟩⟩
  rw [ReExportTable.Redirected, if_neg (by simp [hofq])]
  refine ⟨rfl, rfl, ⟨_, List.mem_singleton_self _, by rw [← hfollow]⟩,
    List.pairwise_singleton _ _, fun n => ?_⟩
  simp only [List.mem_singleton, exists_eq_left, ← hfollow]
  cases n
  simp [eq_comm]

end Builder

end ImportAtlas
