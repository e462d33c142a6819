import ImportAtlas.Build.Basic
import ImportAtlas.Proofs.Files.Disk
import ImportAtlas.Proofs.Path.Order

/-!
# What a file contributes, and which files are needed

A file is read without a look at the graph, so what it contributes is a function of its path
(`Builder.reportOf`), and which files a build needs is settled before it begins: the least set that
has the entries and what its members import (`Builder.Needed`).

* `Builder.read_eq` — a file that is no unreadable entry gives its report;
* `Builder.reportOf_edges` — the edges of a report are those of its imports, in their order;
* `Builder.Needed.normal` — needed files have normal paths, so paths that are the same are equal;
* `Builder.Needed.mem_bound` — there are finitely many.

The last is why a build ends. A file has imports only if it can be read, and then it is one of the
places of the tree; so what is needed is an entry or the target of an edge of such a place.
-/

namespace ImportAtlas

namespace Builder

/-! ### Reports -/

/-- The edge that an import of a file stands for, if its module is one of the project and is not
left out. -/
def edgeOf? (b : Builder) (id : Path) (record : ImportRecord) : Option Edge :=
  match b.resolver.resolve record id with
  | .ok (some target) =>
    if b.exclusion.excludes target then none
    else some { source := id, target, symbols := record.names, wildcard := record.wildcard }
  | _ => none

/-- What an import of a file offers to others: the symbols that its edge takes, if the file passes
them on. -/
def offerOf? (b : Builder) (id : Path) (record : ImportRecord) : Option ReExport :=
  if record.reExport then (b.edgeOf? id record).map fun e => ⟨e.target, e.symbols⟩ else none

/-- The report on a file, for which nothing depends on its being readable. -/
def reportOf (b : Builder) (id : Path) : FileReport :=
  match b.read id false with
  | .ok r => r
  | .error _ => { id }

/-- The node that a report makes. -/
def nodeOf (b : Builder) (id : Path) : ModuleNode :=
  let r := b.reportOf id
  { id, language := r.language, imports := r.imports, errors := r.errors }

variable {b : Builder} {id p q : Path} {files : List Path}

/-- Reading a file gives its report, unless it is an entry that cannot be read. -/
theorem read_eq {isEntry : Bool}
    (h : isEntry → b.language.handles id → ∃ bytes, b.resolver.disk.read id = .ok bytes) :
    b.read id isEntry = .ok (b.reportOf id) := by
  by_cases hhandles : b.language.handles id
  · cases hread : b.resolver.disk.read id with
    | ok bytes => simp only [reportOf, read, hhandles, hread, if_true]
    | error f =>
      cases isEntry with
      | false => simp [reportOf, read, hhandles, hread]
      | true =>
        -- an entry is readable by assumption
        obtain ⟨bytes, hbytes⟩ := h rfl hhandles
        rw [hread] at hbytes
        cases hbytes
  · simp [reportOf, read, hhandles]

/-- What one import adds to a report: at most one edge and at most one offer, behind those that are
there. The file and its list of imports stay. -/
theorem addRecord_spec (b : Builder) (r : FileReport) (record : ImportRecord) :
    (b.addRecord r record).id = r.id ∧ (b.addRecord r record).imports = r.imports ∧
      (b.addRecord r record).edges = r.edges ++ (b.edgeOf? r.id record).toList ∧
      (b.addRecord r record).reExports = r.reExports ++ (b.offerOf? r.id record).toList := by
  unfold addRecord offerOf? edgeOf?
  rcases b.resolver.resolve record r.id with u | _ | target
  · simp [FileReport.addError]
  · simp
  · dsimp only
    split
    · simp
    · by_cases h : record.reExport <;> simp [FileReport.addImport, h]

/-- The imports of a file add their edges and offers in their order. -/
theorem foldl_addRecord (b : Builder) (r : FileReport) (records : List ImportRecord) :
    (records.foldl b.addRecord r).id = r.id ∧ (records.foldl b.addRecord r).imports = r.imports ∧
      (records.foldl b.addRecord r).edges = r.edges ++ records.filterMap (b.edgeOf? r.id) ∧
      (records.foldl b.addRecord r).reExports =
        r.reExports ++ records.filterMap (b.offerOf? r.id) := by
  induction records generalizing r with
  | nil => simp
  | cons record records ih =>
    obtain ⟨hid, himports, hedges, hoffers⟩ := b.addRecord_spec r record
    obtain ⟨hid', himports', hedges', hoffers'⟩ := ih (b.addRecord r record)
    -- what the first record adds comes before what the others add
    refine ⟨hid'.trans hid, himports'.trans himports, ?_, ?_⟩
    · rw [List.foldl_cons, hedges', hedges, hid, List.filterMap_cons, List.append_assoc]
      cases b.edgeOf? r.id record <;> rfl
    · rw [List.foldl_cons, hoffers', hoffers, hid, List.filterMap_cons, List.append_assoc]
      cases b.offerOf? r.id record <;> rfl

/-- A report on a file that could be read. That it is said of the report's own imports makes it true
of a file without any, be it no text or malformed, as well. -/
theorem readContent_spec (b : Builder) (id : Path) (bytes : ByteArray) :
    (b.readContent id bytes).id = id ∧
      (b.readContent id bytes).edges =
        (b.readContent id bytes).imports.filterMap (b.edgeOf? id) ∧
      (b.readContent id bytes).reExports =
        (b.readContent id bytes).imports.filterMap (b.offerOf? id) := by
  unfold readContent
  dsimp only
  split
  · exact ⟨rfl, rfl, rfl⟩
  · next records _ =>
    -- the fold begins with a report that has the imports and nothing else
    obtain ⟨hid, himports, hedges, hoffers⟩ :=
      b.foldl_addRecord { id, language := b.language.name, imports := records } records
    exact ⟨hid, by rw [hedges, himports]; rfl, by rw [hoffers, himports]; rfl⟩

/-- The edges of a report are those of its imports, in their order, and so are its re-exports. -/
theorem reportOf_spec (b : Builder) (id : Path) :
    (b.reportOf id).id = id ∧
      (b.reportOf id).edges = (b.reportOf id).imports.filterMap (b.edgeOf? id) ∧
      (b.reportOf id).reExports = (b.reportOf id).imports.filterMap (b.offerOf? id) := by
  unfold reportOf read
  by_cases hhandles : b.language.handles id
  · rw [if_pos hhandles]
    cases hread : b.resolver.disk.read id with
    | ok bytes => exact b.readContent_spec id bytes
    | error f => exact ⟨rfl, rfl, rfl⟩
  · rw [if_neg hhandles]
    exact ⟨rfl, rfl, rfl⟩

/-- A report is on the file that it is asked for. -/
theorem reportOf_id (b : Builder) (id : Path) : (b.reportOf id).id = id :=
  (b.reportOf_spec id).1

/-- The edges of a report, as a function of its imports alone. -/
theorem reportOf_edges (b : Builder) (id : Path) :
    (b.reportOf id).edges = (b.reportOf id).imports.filterMap (b.edgeOf? id) :=
  (b.reportOf_spec id).2.1

/-- A file has imports only if it can be read. -/
theorem exists_read_of_imports (h : (b.reportOf id).imports ≠ []) :
    ∃ bytes, b.resolver.disk.read id = .ok bytes := by
  cases hread : b.resolver.disk.read id with
  | ok bytes => exact ⟨bytes, rfl⟩
  | error f =>
    refine absurd ?_ h
    unfold reportOf read
    by_cases hhandles : b.language.handles id
    · simp [hhandles, hread, FileReport.addError]
    · simp [hhandles]

/-! ### Imports -/

/-- A file imports another: one of its records is resolved to that, and it is not left out. -/
def Imports (b : Builder) (p q : Path) : Prop :=
  ∃ record ∈ (b.reportOf p).imports, b.resolver.resolve record p = .ok (some q) ∧
    ¬ b.exclusion.excludes q

/-- When an import makes an edge, and which one: all of it but the target is the record's. -/
theorem edgeOf?_eq_some {record : ImportRecord} {e : Edge} :
    b.edgeOf? id record = some e ↔
      b.resolver.resolve record id = .ok (some e.target) ∧ ¬ b.exclusion.excludes e.target ∧
        e = { source := id, target := e.target, symbols := record.names,
              wildcard := record.wildcard } := by
  unfold edgeOf?
  split
  · next target htarget =>
    rw [htarget]
    constructor
    · intro he
      split at he
      · cases he
      · next hex =>
        cases he
        exact ⟨rfl, hex, rfl⟩
    · rintro ⟨heq, hex, he⟩
      obtain rfl : target = e.target := by simpa using heq
      -- the edge is determined by its target, so it is the one that is made
      rw [if_neg hex, ← he]
  · next hnone =>
    constructor
    · intro he
      cases he
    · rintro ⟨heq, -⟩
      exact absurd heq (hnone _)

/-- The edges of a report lead from its file to what that imports. -/
theorem source_eq_of_mem_edges {e : Edge} (he : e ∈ (b.reportOf p).edges) : e.source = p := by
  rw [reportOf_edges] at he
  obtain ⟨record, -, hedge⟩ := List.mem_filterMap.mp he
  rw [(edgeOf?_eq_some.mp hedge).2.2]

/-- A file imports what its edges lead to. One way takes the edge of the record, the other the
record of the edge. -/
theorem imports_iff : b.Imports p q ↔ ∃ e ∈ (b.reportOf p).edges, e.target = q := by
  rw [reportOf_edges]
  constructor
  · rintro ⟨record, hrecord, hresolve, hex⟩
    refine ⟨{ source := p, target := q, symbols := record.names, wildcard := record.wildcard }, ?_,
      rfl⟩
    exact List.mem_filterMap.mpr ⟨record, hrecord, edgeOf?_eq_some.mpr ⟨hresolve, hex, rfl⟩⟩
  · rintro ⟨e, he, rfl⟩
    obtain ⟨record, hrecord, hedge⟩ := List.mem_filterMap.mp he
    obtain ⟨hresolve, hex, -⟩ := edgeOf?_eq_some.mp hedge
    exact ⟨record, hrecord, hresolve, hex⟩

end Builder

/-- What a search below a directory finds is made canonical. -/
theorem Resolver.exists_canonical_of_find? {r : Resolver} {base source target : Path}
    {segments : List String} {elsewhere : Except Unresolved (Option Path)}
    (helsewhere : elsewhere ≠ .ok (some target))
    (h : (match r.find? base segments with
      | none => elsewhere
      | some (file, k) =>
        if k < segments.length ∧ (r.disk.canonical file).same source then .ok none
        else .ok (some (r.disk.canonical file))) = .ok (some target)) :
    ∃ p, target = r.disk.canonical p := by
  split at h
  · exact absurd h helsewhere
  · split at h
    · -- the search ends with no module, or with a file that it makes canonical
      cases h
    · cases h
      exact ⟨_, rfl⟩

/-- What an import is resolved to is the path that some module is known by. -/
theorem Resolver.exists_canonical {r : Resolver} {record : ImportRecord} {source target : Path}
    (h : r.resolve record source = .ok (some target)) : ∃ p, target = r.disk.canonical p := by
  have helsewhere : (if record.depth = 0 ∧ r.language.isExternal record then .ok none
      else .error ⟨record.specifier, source⟩ : Except Unresolved (Option Path)) ≠
        .ok (some target) := by
    split <;> exact nofun
  -- three ways to a result: nothing, a search below a directory, an alias before such a search
  unfold resolve at h
  dsimp only at h
  split at h
  · exact absurd h helsewhere
  · exact exists_canonical_of_find? helsewhere h
  · split at h
    · cases h
      exact ⟨_, rfl⟩
    · exact exists_canonical_of_find? helsewhere h

namespace Builder

variable {b : Builder} {id p q : Path} {files : List Path}

/-! ### Needed files -/

/-- The least set that has the entries that are not left out, and with a file what that imports. -/
inductive Needed (b : Builder) (files : List Path) : Path → Prop where
  | entry {file : Path} (hfile : file ∈ files)
    (hex : ¬ b.exclusion.excludes (b.resolver.disk.canonical file)) :
    Needed b files (b.resolver.disk.canonical file)
  | imported {p q : Path} (hp : Needed b files p) (h : b.Imports p q) : Needed b files q

/-- A needed file is known by a canonical path, as an entry or as the target of an import. -/
theorem Needed.exists_canonical (h : b.Needed files p) :
    ∃ q, p = b.resolver.disk.canonical q := by
  cases h with
  | entry _ _ => exact ⟨_, rfl⟩
  | imported _ himports =>
    obtain ⟨record, -, hresolve, -⟩ := himports
    exact Resolver.exists_canonical hresolve

/-- No needed file is left out: entries and targets are both asked for. -/
theorem Needed.not_excluded (h : b.Needed files p) : ¬ b.exclusion.excludes p := by
  cases h with
  | entry _ hex => exact hex
  | imported _ himports =>
    obtain ⟨record, -, -, hex⟩ := himports
    exact hex

/-- The paths of needed files are normal, so that they are equal once they are the same. -/
theorem Needed.normal (hcwd : ∀ n ∈ b.resolver.disk.cwd, IsName n) (h : b.Needed files p) :
    Path.Normal p := by
  obtain ⟨q, rfl⟩ := h.exists_canonical
  exact Disk.normal_canonical hcwd q

/-- Needed files whose paths are the same are one. -/
theorem Needed.eq_of_same (hcwd : ∀ n ∈ b.resolver.disk.cwd, IsName n) (hp : b.Needed files p)
    (hq : b.Needed files q) (h : p.same q) : p = q :=
  (hp.normal hcwd).eq_of_same (hq.normal hcwd) h

/-- The entries of a build are needed, though several entry files may be one module. -/
theorem needed_of_mem_entriesOf (h : p ∈ b.entriesOf files) : b.Needed files p := by
  have hmem := Path.mem_of_mem_distinct h
  obtain ⟨hmap, hex⟩ := List.mem_filter.mp hmem
  obtain ⟨file, hfile, rfl⟩ := List.mem_map.mp hmap
  exact .entry hfile (by simpa using hex)

/-- The entries of a build are the entry files that are not left out. -/
theorem mem_entriesOf (hcwd : ∀ n ∈ b.resolver.disk.cwd, IsName n) {file : Path}
    (hfile : file ∈ files) (hex : ¬ b.exclusion.excludes (b.resolver.disk.canonical file)) :
    b.resolver.disk.canonical file ∈ b.entriesOf files := by
  have hmem : b.resolver.disk.canonical file ∈
      (files.map b.resolver.disk.canonical).filter (!b.exclusion.excludes ·) :=
    List.mem_filter.mpr ⟨List.mem_map_of_mem hfile, by simpa using hex⟩
  have hamong : (b.resolver.disk.canonical file).among (b.entriesOf files) := by
    rw [entriesOf, Path.among_distinct]
    exact Path.among_of_mem hmem
  -- of paths that are the same one is kept, and that is this one, both being normal
  obtain ⟨p, hp, hsame⟩ := Path.among_iff.mp hamong
  have heq := (needed_of_mem_entriesOf hp).eq_of_same hcwd (.entry hfile hex) hsame
  rwa [← heq]

/-- The entries are sorted, each once. -/
theorem ascending_entriesOf (b : Builder) (files : List Path) :
    Path.Ascending (b.entriesOf files) :=
  Path.ascending_distinct _

/-- The entries, and the targets of all edges that files of the tree have. -/
def bound (b : Builder) (files : List Path) : List Path :=
  b.entriesOf files ++
    b.resolver.disk.places.flatMap fun p => (b.reportOf p).edges.map (·.target)

/-- **Finitely many files are needed.** -/
theorem Needed.mem_bound (hcwd : ∀ n ∈ b.resolver.disk.cwd, IsName n) (h : b.Needed files p) :
    p ∈ b.bound files := by
  rw [bound, List.mem_append]
  cases h with
  | entry hfile hex => exact .inl (mem_entriesOf hcwd hfile hex)
  | @imported p q hp himports =>
    right
    obtain ⟨e, he, htarget⟩ := imports_iff.mp himports
    -- the importing file has an import, so it can be read and is a place of the tree
    have himp : (b.reportOf p).imports ≠ [] := by
      rintro hnil
      rw [reportOf_edges, hnil] at he
      exact List.not_mem_nil he
    obtain ⟨bytes, hbytes⟩ := exists_read_of_imports himp
    obtain ⟨p', rfl⟩ := hp.exists_canonical
    exact List.mem_flatMap.mpr ⟨_, Disk.canonical_mem_places hcwd hbytes,
      List.mem_map.mpr ⟨e, he, htarget⟩⟩

end Builder

end ImportAtlas
