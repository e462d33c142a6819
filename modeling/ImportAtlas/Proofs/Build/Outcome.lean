import ImportAtlas.Proofs.Build.Unwrapped

/-!
# How a build ends

Which of the possible ends a build comes to does not depend on the schedule, and neither does a
graph that it ends with (`Builder.build_outcome`): without entries that are not left out there is
nothing to begin with; with an entry that cannot be read, such an entry is the fault; in all other
cases there is a graph. What is wrong with a file that is no unreadable entry is noted on its node
(`Builder.errorsOf`).

The invariant has two sides, of which a step keeps one or the other (`BuildState.Ending.step`):

* `going` — the build is valid, and the entries that are done could be read;
* `stopped` — the fault is an entry that cannot be read.

A build that is called off has taken the same steps until then
(`BuildState.Ending.run_cancelAfter`). So it is `cancelled` if that happens before the files are all
done, and otherwise ends as it would.
-/

namespace ImportAtlas

namespace Builder

variable {b : Builder} {files : List Path} {id p : Path}

/-! ### What is wrong with a file -/

/-- What is wrong with one import of a file: that it leads nowhere. -/
def errorOf? (b : Builder) (id : Path) (record : ImportRecord) : Option NodeError :=
  match b.resolver.resolve record id with
  | .error u => some ⟨.unresolvedImport, u.message⟩
  | .ok _ => none

/-- What is wrong with the content of a file: it is no text, it has a malformed import, or some of
its imports lead nowhere, each of which is an error, in their order. -/
def errorsIn (b : Builder) (id : Path) (bytes : ByteArray) : List NodeError :=
  match String.fromUTF8? bytes with
  | none => [⟨.extraction, ExtractionError.notUtf8.message⟩]
  | some text =>
    match b.language.extract text with
    | .error e => [⟨.extraction, e.message⟩]
    | .ok records => records.filterMap (b.errorOf? id)

/-- What is wrong with a file: it cannot be read, or something is wrong with its content. Files of
other languages are not looked at. -/
def errorsOf (b : Builder) (id : Path) : List NodeError :=
  if b.language.handles id then
    match b.resolver.disk.read id with
    | .error f => [⟨.read, f.message⟩]
    | .ok bytes => b.errorsIn id bytes
  else []

/-- An import adds at most one error, behind those that are there. -/
theorem errors_addRecord (b : Builder) (r : FileReport) (record : ImportRecord) :
    (b.addRecord r record).errors = r.errors ++ (b.errorOf? r.id record).toList := by
  unfold addRecord errorOf?
  cases b.resolver.resolve record r.id with
  | error u => rfl
  | ok target =>
    cases target with
    | none => exact (List.append_nil _).symm
    | some target =>
      dsimp only
      split <;> exact (List.append_nil _).symm

/-- The errors of the imports come in the order of the imports. -/
theorem errors_foldl_addRecord (b : Builder) (r : FileReport) (records : List ImportRecord) :
    (records.foldl b.addRecord r).errors = r.errors ++ records.filterMap (b.errorOf? r.id) := by
  induction records generalizing r with
  | nil => exact (List.append_nil _).symm
  | cons record records ih =>
    rw [List.foldl_cons, ih, errors_addRecord, (b.addRecord_spec r record).1, List.filterMap_cons,
      List.append_assoc]
    cases b.errorOf? r.id record <;> rfl

/-- The three ways in which a content can be wrong are the three in which reading it ends. -/
theorem errors_readContent (b : Builder) (id : Path) (bytes : ByteArray) :
    (b.readContent id bytes).errors = b.errorsIn id bytes := by
  unfold readContent errorsIn
  cases String.fromUTF8? bytes with
  | none => rfl
  | some text =>
    dsimp only
    cases b.language.extract text with
    | error e => rfl
    | ok records => exact b.errors_foldl_addRecord _ records

/-- The errors of a node are what is wrong with its file. -/
theorem errors_nodeOf (b : Builder) (id : Path) : (b.nodeOf id).errors = b.errorsOf id := by
  change (b.reportOf id).errors = _
  unfold reportOf read errorsOf
  by_cases hhandles : b.language.handles id
  · rw [if_pos hhandles, if_pos hhandles]
    cases b.resolver.disk.read id with
    | error f => rfl
    | ok bytes => exact b.errors_readContent id bytes
  · rw [if_neg hhandles, if_neg hhandles]

/-! ### Entries -/

/-- An entry that is not left out cannot be read. -/
def UnreadableEntry (b : Builder) (files : List Path) (id : Path) (f : ReadFault) : Prop :=
  (∃ file ∈ files, b.resolver.disk.canonical file = id) ∧ ¬ b.exclusion.excludes id ∧
    b.language.handles id ∧ b.resolver.disk.read id = .error f

/-- Reading fails only for an entry, which is the fault. -/
theorem read_eq_error {isEntry : Bool} {fault : Fault} (h : b.read id isEntry = .error fault) :
    isEntry ∧ b.language.handles id ∧
      ∃ f, b.resolver.disk.read id = .error f ∧ fault = .entryRead id f := by
  unfold read at h
  split at h
  · next hhandles =>
    cases hread : b.resolver.disk.read id with
    | ok bytes => rw [hread] at h; cases h
    | error f =>
      rw [hread] at h
      -- a file that is no entry keeps the fault as an error of its own
      cases isEntry with
      | true => exact ⟨rfl, hhandles, f, rfl, (Except.error.inj h).symm⟩
      | false => cases h
  · cases h

/-- A build has nothing to begin with exactly if all its entry files are left out. -/
theorem entriesOf_eq_nil :
    b.entriesOf files = [] ↔
      ∀ file ∈ files, b.exclusion.excludes (b.resolver.disk.canonical file) := by
  simp [entriesOf, Path.distinct_eq_nil, List.filter_eq_nil_iff]

section Cwd

variable (hcwd : ∀ n ∈ b.resolver.disk.cwd, IsName n)

include hcwd

/-- The entries, by the files that they are given as. -/
theorem mem_entriesOf_iff :
    id ∈ b.entriesOf files ↔
      (∃ file ∈ files, b.resolver.disk.canonical file = id) ∧ ¬ b.exclusion.excludes id := by
  constructor
  · intro h
    obtain ⟨hmap, hex⟩ := List.mem_filter.mp (Path.mem_of_mem_distinct h)
    exact ⟨List.mem_map.mp hmap, by simpa using hex⟩
  · rintro ⟨⟨file, hfile, rfl⟩, hex⟩
    exact mem_entriesOf hcwd hfile hex

/-- The entry that cannot be read, by the list that a build goes through. -/
theorem unreadableEntry_iff {f : ReadFault} :
    b.UnreadableEntry files id f ↔
      id ∈ b.entriesOf files ∧ b.language.handles id ∧ b.resolver.disk.read id = .error f := by
  rw [mem_entriesOf_iff hcwd, UnreadableEntry, and_assoc]

end Cwd

end Builder

namespace BuildState

variable {b : Builder} {c : Schedule} {files : List Path} {s : BuildState}

/-- How a build goes on that nobody calls off: it is valid and has read the entries that are done,
or an entry cannot be read. -/
inductive Ending (b : Builder) (files : List Path) (s : BuildState) : Prop where
  | going (hvalid : Valid b files s)
    (hread : ∀ id ∈ s.done, ∀ f, ¬ b.UnreadableEntry files id f)
  | stopped {id : Path} {f : ReadFault} (hentry : b.UnreadableEntry files id f)
    (hfault : s.fault = some (.entryRead id f))

/-- A build begins without a fault, with no entry read. -/
theorem Ending.start (b : Builder) (files : List Path) :
    Ending b files (b.start (b.entriesOf files)) :=
  .going (Valid.start b files) fun _ hid => absurd hid List.not_mem_nil

section Cwd

variable (hcwd : ∀ n ∈ b.resolver.disk.cwd, IsName n)

include hcwd

/-- **Step.** One more file is done, and the build goes on or is stopped by an entry that cannot be
read. -/
theorem Ending.step (h : Ending b files s) (hcancel : ¬ c.isCancelled s)
    (hwaiting : s.waiting ≠ []) :
    Ending b files (b.step c (b.entriesOf files) s) ∧
      (b.step c (b.entriesOf files) s).done.length = s.done.length + 1 := by
  cases h with
  | going hvalid hread =>
    obtain ⟨id, hneeded, hdone, ⟨fault, hfail, hfault⟩ | ⟨hok, hvalid', -⟩⟩ :=
      hvalid.step_cases hcwd hcancel hwaiting
    · refine ⟨?_, by rw [hdone, List.length_cons]⟩
      obtain ⟨hamong, hhandles, f, hdisk, rfl⟩ := Builder.read_eq_error hfail
      -- a needed file that is the same as an entry is that entry
      obtain ⟨p, hp, hsame⟩ := Path.among_iff.mp hamong
      obtain rfl := (Builder.needed_of_mem_entriesOf hp).eq_of_same hcwd hneeded hsame
      exact .stopped ((Builder.unreadableEntry_iff hcwd).mpr ⟨hp, hhandles, hdisk⟩) hfault
    · refine ⟨.going hvalid' fun p hp f hunreadable => ?_, by rw [hdone, List.length_cons]⟩
      rw [hdone] at hp
      rcases List.mem_cons.mp hp with rfl | hp
      · -- had it been unreadable, its turn would have failed
        obtain ⟨hmem, hhandles, hdisk⟩ := (Builder.unreadableEntry_iff hcwd).mp hunreadable
        rw [Path.among_of_mem hmem, Builder.read, if_pos hhandles, hdisk] at hok
        cases hok
      · exact hread p hp f hunreadable
  | stopped hentry hfault =>
    obtain ⟨i, id, -, hstep⟩ := b.step_eq_turn (b.entriesOf files) hcancel hwaiting
    have hsome : s.fault.isSome := by rw [hfault]; rfl
    rw [Builder.turn, if_pos hsome] at hstep
    rw [hstep]
    exact ⟨.stopped hentry hfault, rfl⟩

/-- **Run.** However many steps are taken, the build goes on or is stopped by an entry that cannot
be read. -/
theorem Ending.iterate (hc : c.cancelAfter = none) (h : Ending b files s) (k : Nat) :
    Ending b files ((b.step c (b.entriesOf files))^[k] s) := by
  induction k generalizing s with
  | zero => exact h
  | succ k ih =>
    rw [Function.iterate_succ_apply]
    apply ih
    by_cases hwaiting : s.waiting = []
    · rw [Builder.step_of_waiting_nil hwaiting]
      exact h
    · exact (h.step hcwd (by simp [Schedule.isCancelled, hc]) hwaiting).1

/-- A run that is called off after `n` turns, beside the same run that is not: it ends there if it
comes so far, and else it is the same run. -/
theorem Ending.run_cancelAfter (hc : c.cancelAfter = none) (n k : Nat) (h : Ending b files s)
    (hnone : ((b.step c (b.entriesOf files))^[k] s).waiting = []) :
    let t := b.run c (b.entriesOf files) s
    let t' := b.run { c with cancelAfter := some n } (b.entriesOf files) s
    s.done.length ≤ t.done.length ∧ (n ≤ t.done.length → n ≤ t'.done.length) ∧
      (t.done.length < n → t' = t) := by
  dsimp only
  induction k generalizing s with
  | zero =>
    rw [Function.iterate_zero_apply] at hnone
    rw [Builder.run_of_waiting_nil hnone, Builder.run_of_waiting_nil hnone]
    exact ⟨Nat.le_refl _, fun hn => hn, fun _ => rfl⟩
  | succ k ih =>
    rw [Function.iterate_succ_apply] at hnone
    by_cases hwaiting : s.waiting = []
    · rw [Builder.step_of_waiting_nil hwaiting] at hnone
      exact ih h hnone
    · have hcancel : ¬ c.isCancelled s := by simp [Schedule.isCancelled, hc]
      obtain ⟨hstep, hmore⟩ := h.step hcwd hcancel hwaiting
      obtain ⟨hle, hlate, hearly⟩ := ih hstep hnone
      rw [Builder.run_of_waiting hwaiting, Builder.run_of_waiting hwaiting]
      by_cases hn : n ≤ s.done.length
      · -- called off here: the files that wait are let go
        have hstop : b.step { c with cancelAfter := some n } (b.entriesOf files) s =
            { s with waiting := [] } := by
          rw [Builder.step, if_pos]
          simpa [Schedule.isCancelled] using hn
        rw [hstop, Builder.run_of_waiting_nil (s := { s with waiting := [] }) rfl]
        exact ⟨by omega, fun _ => hn, fun hlt => by omega⟩
      · -- not yet: both take the same step
        have hsame : b.step { c with cancelAfter := some n } (b.entriesOf files) s =
            b.step c (b.entriesOf files) s := by
          simp [Builder.step, Schedule.isCancelled, hc, hn]
        rw [hsame]
        exact ⟨by omega, hlate, hearly⟩

end Cwd

end BuildState

namespace Builder

variable {b : Builder} {c : Schedule} {files : List Path} {time : String}

/-- A build with entries, by the state that its run stops in. -/
theorem build_of_entries (hentries : b.entriesOf files ≠ []) :
    b.build c time files =
      let s := b.run c (b.entriesOf files) (b.start (b.entriesOf files))
      if c.isCancelled s then .error .cancelled
      else
        match s.fault with
        | some f => .error f
        | none => .ok (b.finish time s) := by
  have hfiles : files ≠ [] := fun hnil => hentries (by rw [hnil]; rfl)
  unfold build
  rw [if_neg (mt List.isEmpty_iff.mp hfiles)]
  exact if_neg (mt List.isEmpty_iff.mp hentries)

section Cwd

variable (hcwd : ∀ n ∈ b.resolver.disk.cwd, IsName n)

include hcwd

/-- The run of a build that nobody calls off. -/
theorem exists_ending (files : List Path) (hc : c.cancelAfter = none) :
    ∃ k, let s := (b.step c (b.entriesOf files))^[k] (b.start (b.entriesOf files))
      s.waiting = [] ∧ b.run c (b.entriesOf files) (b.start (b.entriesOf files)) = s ∧
        BuildState.Ending b files s := by
  obtain ⟨k, hnone, -⟩ := (BuildState.Valid.start b files).run_outcome (c := c) hcwd rfl
  exact ⟨k, hnone, run_eq_iterate k hnone, (BuildState.Ending.start b files).iterate hcwd hc k⟩

/-- A build with entries that nobody calls off: one of them cannot be read, or there is a graph. -/
theorem build_cases (time : String) (hc : c.cancelAfter = none)
    (hentries : b.entriesOf files ≠ []) :
    (∃ id f, b.UnreadableEntry files id f ∧ b.build c time files = .error (.entryRead id f)) ∨
    (∀ id f, ¬ b.UnreadableEntry files id f) ∧
      ∃ s, BuildState.Valid b files s ∧ s.waiting = [] ∧
        b.build c time files = .ok (b.finish time s) := by
  obtain ⟨k, hnone, hrun, hending⟩ := exists_ending hcwd files hc
  generalize (b.step c (b.entriesOf files))^[k] (b.start (b.entriesOf files)) = s
    at hnone hrun hending
  have hcancel : ¬ c.isCancelled s := by simp [Schedule.isCancelled, hc]
  rw [build_of_entries hentries, hrun]
  dsimp only
  rw [if_neg hcancel]
  cases hending with
  | stopped hentry hfault =>
    rw [hfault]
    exact .inl ⟨_, _, hentry, rfl⟩
  | going hvalid hread =>
    refine .inr ⟨fun id f hunreadable => ?_, s, hvalid, hnone, by rw [hvalid.fault_eq]⟩
    -- all entries are done at the end
    have hmem := ((unreadableEntry_iff hcwd).mp hunreadable).1
    have hdone := (hvalid.mem_done_iff hcwd hnone).mpr (needed_of_mem_entriesOf hmem)
    exact hread id hdone f hunreadable

/-- A build with entries that is called off after `n` turns, beside one that is not. -/
theorem build_cancelAfter (hc : c.cancelAfter = none) (hentries : b.entriesOf files ≠ [])
    (n : Nat) :
    b.build { c with cancelAfter := some n } time files =
      if n ≤ (b.run c (b.entriesOf files) (b.start (b.entriesOf files))).done.length then
        .error .cancelled
      else b.build c time files := by
  obtain ⟨k, hnone, -⟩ := exists_ending hcwd files hc
  obtain ⟨-, hlate, hearly⟩ :=
    (BuildState.Ending.start b files).run_cancelAfter hcwd hc n k hnone
  rw [build_of_entries hentries, build_of_entries hentries]
  dsimp only
  -- the turn at which it is called off comes before the end, or the build is over by then
  by_cases hn : n ≤ (b.run c (b.entriesOf files) (b.start (b.entriesOf files))).done.length
  · rw [if_pos hn, if_pos]
    simpa [Schedule.isCancelled] using hlate hn
  · rw [if_neg hn, hearly (by omega), if_neg, if_neg]
    · simp [Schedule.isCancelled, hc]
    · simpa [Schedule.isCancelled] using hn

/-- The nodes of a graph that a build ends with: the needed files, with what is wrong with them. -/
theorem nodes_finish {s : BuildState} (h : BuildState.Valid b files s) (hnone : s.waiting = []) :
    let g := b.finish time s
    (∀ p, g.contains p ↔ ∃ q, b.Needed files q ∧ q.same p) ∧
      ∀ p, b.Needed files p → ∃ node, g.node? p = some node ∧ node.errors = b.errorsOf p := by
  intro g
  have hnodes : g.nodes = s.graph.nodes := (finish_spec h b.unwrapReExports time).2.1.2.2.2
  obtain ⟨-, hids, -⟩ := h.nodes_eq hcwd hnone
  refine ⟨fun p => ?_, fun p hp => ⟨b.nodeOf p, ?_, b.errors_nodeOf p⟩⟩
  · rw [ModuleGraph.contains, Keyed.holds_iff_among, Path.among_iff, hnodes]
    simp only [hids]
  · rw [ModuleGraph.node?, hnodes]
    exact h.node_eq p ((h.mem_done_iff hcwd hnone).mpr hp)

end Cwd

/-- **How every build ends.** Let nobody call the build off, whatever the schedule. There is nothing
to begin with exactly if all the files are left out. An entry is the fault exactly if some entry
that is not left out cannot be read, and it is such an entry. In all other cases there is a graph.
Its nodes are the needed files, and each has what is wrong with its file. A build with entries that
is called off when the last file is done or before is cancelled; called off later, or without
entries, it ends as it would. -/
theorem build_outcome (b : Builder) (files : List Path)
    (hcwd : ∀ n ∈ b.resolver.disk.cwd, IsName n) (c : Schedule) (hc : c.cancelAfter = none)
    (time : String) :
    let result := b.build c time files
    let allExcluded := ∀ file ∈ files, b.exclusion.excludes (b.resolver.disk.canonical file)
    let turns := (b.run c (b.entriesOf files) (b.start (b.entriesOf files))).done.length
    ((∃ reason, result = .error (.noEntryFiles reason)) ↔ allExcluded) ∧
    ((∃ id f, result = .error (.entryRead id f)) ↔ ∃ id f, b.UnreadableEntry files id f) ∧
    (∀ id f, result = .error (.entryRead id f) → b.UnreadableEntry files id f) ∧
    ((∃ g, result = .ok g) ↔ ¬ allExcluded ∧ ∀ id f, ¬ b.UnreadableEntry files id f) ∧
    (∀ g, result = .ok g →
      (∀ p, g.contains p ↔ ∃ q, b.Needed files q ∧ q.same p) ∧
      ∀ p, b.Needed files p → ∃ node, g.node? p = some node ∧ node.errors = b.errorsOf p) ∧
    (allExcluded → ∀ c', b.build c' time files = result) ∧
    (¬ allExcluded → ∀ n, b.build { c with cancelAfter := some n } time files =
      if n ≤ turns then .error .cancelled else result) := by
  intro result allExcluded turns
  have hnil : b.entriesOf files = [] ↔ allExcluded := entriesOf_eq_nil
  by_cases hall : allExcluded
  · -- nothing to begin with
    obtain ⟨reason, hbuild⟩ := build_of_no_entries (hnil.mpr hall)
    have hresult : result = .error (.noEntryFiles reason) := hbuild c time
    have hreadable : ∀ id f, ¬ b.UnreadableEntry files id f := by
      rintro id f ⟨⟨file, hfile, rfl⟩, hex, -⟩
      exact hex (hall file hfile)
    simp [hresult, hall, hreadable, hbuild]
  · have hentries : b.entriesOf files ≠ [] := mt hnil.mp hall
    have hcancel : ∀ n, b.build { c with cancelAfter := some n } time files =
        if n ≤ turns then .error .cancelled else result := build_cancelAfter hcwd hc hentries
    rcases build_cases hcwd time hc hentries with
      ⟨id, f, hentry, hbuild⟩ | ⟨hreadable, s, hvalid, hnone, hbuild⟩
    · -- stopped by an entry
      have hresult : result = .error (.entryRead id f) := hbuild
      refine ⟨?_, ?_, ?_, ?_, ?_, fun h => absurd h hall, fun _ => hcancel⟩
      · simp [hresult, hall]
      · exact ⟨fun _ => ⟨id, f, hentry⟩, fun _ => ⟨id, f, hresult⟩⟩
      · rintro id' f' heq
        rw [hresult] at heq
        cases heq
        exact hentry
      · refine ⟨fun ⟨g, hg⟩ => ?_, fun ⟨_, hreadable⟩ => absurd hentry (hreadable id f)⟩
        rw [hresult] at hg
        cases hg
      · intro g hg
        rw [hresult] at hg
        cases hg
    · -- a graph
      have hresult : result = .ok (b.finish time s) := hbuild
      refine ⟨?_, ?_, ?_, ?_, ?_, fun h => absurd h hall, fun _ => hcancel⟩
      · simp [hresult, hall]
      · simp [hresult, hreadable]
      · simp [hresult]
      · simp [hresult, hall, hreadable]
      · intro g hg
        rw [hresult] at hg
        cases hg
        exact nodes_finish hcwd hvalid hnone

/-- A file that imports one that may not be read, one that is no text and one that does not exist:
each error is on its own node. As an entry, the first of these is the fault. -/
theorem build_outcome_of_three_errors :
    let p : Path := ⟨"/p.py"⟩
    let q : Path := ⟨"/q.py"⟩
    let r : Path := ⟨"/r.py"⟩
    let tree : FileTree :=
      .directory [("p.py", .file ("import q\nimport r\nfrom . import s".toUTF8)), ("q.py", .sealed),
        ("r.py", .file ⟨#[255]⟩)]
    let b : Builder :=
      { resolver :=
          { disk := { tree }, language := .python false, sourceRoot := ⟨"/"⟩, aliases := [] }
        exclusion := ⟨⟨"/"⟩, []⟩
        root := ⟨"/"⟩
        unwrapReExports := false }
    (∀ n ∈ b.resolver.disk.cwd, IsName n) ∧ ({} : Schedule).cancelAfter = none ∧
    (∃ g, b.build {} "0" [p] = .ok g ∧
      (∃ node, g.node? p = some node ∧
        node.errors = [⟨.unresolvedImport, "could not resolve import \".\" from /p.py"⟩]) ∧
      (∃ node, g.node? q = some node ∧
        node.errors = [⟨.read, "Permission denied (os error 13)"⟩]) ∧
      ∃ node, g.node? r = some node ∧
        node.errors = [⟨.extraction, "file is not valid UTF-8"⟩]) ∧
    b.build { cancelAfter := some 0 } "0" [p] = .error .cancelled ∧
    ∃ id f, b.build {} "0" [p, q] = .error (.entryRead id f) := by
  intro p q r tree b
  have hcwd : ∀ n ∈ b.resolver.disk.cwd, IsName n := fun n hn => absurd hn List.not_mem_nil
  have hexcluded : ¬ ∀ file ∈ [p], b.exclusion.excludes (b.resolver.disk.canonical file) := by
    decide
  have hreadable : ∀ id f, ¬ b.UnreadableEntry [p] id f := by
    rintro id f ⟨⟨file, hfile, rfl⟩, -, -, hread⟩
    rw [List.mem_singleton.mp hfile] at hread
    have hok : (b.resolver.disk.read (b.resolver.disk.canonical p)).isOk := by decide +kernel
    rw [hread] at hok
    exact Bool.false_ne_true hok
  obtain ⟨-, -, -, hgraph, hnodes, -, hcancel⟩ := build_outcome b [p] hcwd {} rfl "0"
  obtain ⟨g, hg⟩ := hgraph.mpr ⟨hexcluded, hreadable⟩
  have hp : b.Needed [p] p := needed_of_mem_entriesOf (by decide)
  have hq : b.Needed [p] q := hp.imported (imports_iff.mpr (by decide +kernel))
  have hr : b.Needed [p] r := hp.imported (imports_iff.mpr (by decide +kernel))
  have hsealed : b.UnreadableEntry [p, q] q .permissionDenied :=
    ⟨⟨q, by decide, by decide⟩, by decide, by decide, by decide +kernel⟩
  -- what is wrong with each of the files
  have hnode : ∀ id errors, b.Needed [p] id → b.errorsOf id = errors →
      ∃ node, g.node? id = some node ∧ node.errors = errors := by
    rintro id _ hid rfl
    exact (hnodes g hg).2 id hid
  refine ⟨hcwd, rfl, ⟨g, hg, hnode p _ hp ?_, hnode q _ hq ?_, hnode r _ hr ?_⟩, ?_, ?_⟩
  · decide +kernel
  · decide +kernel
  · decide +kernel
  · exact (hcancel hexcluded 0).trans (if_pos (Nat.zero_le _))
  · exact (build_outcome b [p, q] hcwd {} rfl "0").2.1.mpr ⟨q, _, hsealed⟩

end Builder

end ImportAtlas
