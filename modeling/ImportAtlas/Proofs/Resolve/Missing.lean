import ImportAtlas.Proofs.Files.Place
import ImportAtlas.Proofs.Path.Order
import ImportAtlas.Proofs.Resolve

/-!
# Declared modules without a file

In Rust, `mod x;` asks for a file of the directory that the importing module has for its own ones,
and so does the item `x` in `self::x`. Where there is no such file the import is taken for the item,
and the path without it is tried: the directory itself, which may stand for the importing file.

* `childFiles`, `ownFiles` — the files that a module of a directory may have, and those that the
  directory may stand for;
* `RustFile.mem_ownFiles` — a file of the disk is one of those that its own directory may stand for;
* `resolve_missing` — without a file of the first kind, the import is an error if there is none of
  the second, and an item of the importing file if that is the first one of them.
-/

namespace ImportAtlas.Resolver

open Disk

/-- The files that a module of a directory may have. -/
def childFiles (dir : Path) (x : String) : List Path :=
  [dir.join x, dir.join (x ++ ".rs"), (dir.join x).join "mod.rs", (dir.join x).join "lib.rs",
    (dir.join x).join "main.rs"]

/-- The files that a directory for modules may stand for, best first. -/
def ownFiles (d : Disk) (dir : Path) : List Path :=
  [dir, ⟨dir.text ++ ".rs"⟩] ++
    if d.isDirectory dir then [dir.join "mod.rs", dir.join "lib.rs", dir.join "main.rs"] else []

/-- A Rust file of a disk. -/
structure RustFile (d : Disk) where
  dir : List String
  stem : String
  content : FileTree
  isName : ∀ n ∈ dir ++ [stem ++ ".rs"], IsName n
  stem_ne : stem ≠ ""
  found : d.tree.at? (dir ++ [stem ++ ".rs"]) = some content
  isFile : content.isFile

/-- The path of the file. -/
def RustFile.path {d : Disk} (f : RustFile d) : Path :=
  pathOf (f.dir ++ [f.stem ++ ".rs"])

variable {r : Resolver} {record : ImportRecord} {source dir : Path} {x : String}

theorem append_rs (s : String) : s ++ "." ++ "rs" = s ++ ".rs" :=
  String.append_assoc

/-- A Rust module has two forms, a file of its own and one in a directory of its name. -/
theorem forms_rust (hrust : r.language = .rust) (p : Path) : r.forms p = ownFiles r.disk p := by
  rw [forms, hrust, ownFiles]
  simp only [Language.extensions, Language.indexFiles, List.map_singleton, append_rs]
  rfl

/-- The files that the path of a module may mean are among those of the module. -/
theorem mem_childFiles {d : Disk} {p : Path} (h : p ∈ ownFiles d (dir.join x)) :
    p ∈ childFiles dir x := by
  rw [ownFiles, ← Path.join_append dir x (by decide)] at h
  rw [childFiles]
  rcases List.mem_append.mp h with h | h
  · exact List.mem_append_left _ h
  · split at h
    · exact List.mem_append_right [_, _] h
    · exact absurd h List.not_mem_nil

/-- Without a file for the module, the search is the one for its directory. -/
theorem find?_missing (hrust : r.language = .rust)
    (hmissing : ∀ p ∈ childFiles dir x, r.disk.isFile p = false) :
    r.find? dir [x] = ((ownFiles r.disk dir).find? r.disk.isFile).map (·, 0) := by
  have hchild : r.lookup? (dir.join x) = none := by
    rw [lookup?_eq, forms_rust hrust, List.find?_eq_none]
    exact fun p hp => by simp [hmissing p (mem_childFiles hp)]
  have hlengths : r.lengths [x] = [1, 0] := by
    rw [lengths, hrust]
    rfl
  rw [find?, hlengths, ← forms_rust hrust, ← lookup?_eq]
  -- one step for the path with the module's name, one for the path without it
  simp only [List.findSome?_cons, List.findSome?_nil, pathBelow, List.take_succ_cons,
    List.take_zero, List.foldl_cons, List.foldl_nil, hchild, Option.map_none]
  cases r.lookup? dir <;> rfl

/-! ### The files of a disk -/

namespace RustFile

variable {d : Disk} (f : RustFile d)

include f

theorem isName_dir : ∀ n ∈ f.dir, IsName n := fun n hn =>
  f.isName n (List.mem_append_left _ hn)

theorem isFile_path : d.isFile f.path :=
  isFile_pathOf f.isName (by simp) f.found f.isFile

/-- The file is known by its path. -/
theorem canonical_path : d.canonical f.path = f.path := by
  refine canonical_pathOf f.isName f.found (by simp) fun target hlink => ?_
  have hfile := f.isFile
  rw [hlink] at hfile
  exact Bool.noConfusion hfile

/-- It lies in a directory. -/
theorem isDirectory_dir : d.isDirectory (pathOf f.dir) := by
  obtain ⟨es, hdir⟩ := exists_directory_above f.found
  rw [Disk.isDirectory, node?_pathOf f.isName_dir hdir (fun _ => rfl) (by simp)]
  rfl

/-- A file is one of those that its directory for modules may stand for. -/
theorem mem_ownFiles : f.path ∈ ownFiles d (Language.rust.moduleDir f.path) := by
  have hparent : f.path.parent? = some (pathOf f.dir) := parent?_pathOf f.isName
  have hstem : f.path.stem? = some f.stem := by
    rw [path, ← append_rs]
    exact stem?_pathOf f.stem_ne (by decide) (by simpa only [append_rs] using f.isName)
  have hjoin : f.path = (pathOf f.dir).join (f.stem ++ ".rs") :=
    pathOf_append f.isName_dir (f.isName _ (by simp))
  rw [Language.moduleDir, hparent, hstem]
  simp only [Option.getD_some]
  split
  · next hindex =>
    -- an index file stands for the directory that it is in
    rw [ownFiles, if_pos f.isDirectory_dir, hjoin]
    have hcases : f.stem = "mod" ∨ f.stem = "lib" ∨ f.stem = "main" := by
      simpa [Language.indexFiles] using hindex
    rcases hcases with h | h | h <;> simp [h]
  · -- the directory of any other has its name without the extension
    rw [hjoin, Path.join_append _ _ (by decide)]
    simp [ownFiles]

end RustFile

/-! ### The answer -/

/-- Without a file for the module, the answer is made of the first file for the directory. -/
theorem resolve_eq_of_missing (hrust : r.language = .rust) (hpath : record.path = [x])
    (hdepth : record.depth = 1)
    (hmissing : ∀ p ∈ childFiles (r.language.moduleDir source) x, r.disk.isFile p = false) :
    r.resolve record source =
      match (ownFiles r.disk (r.language.moduleDir source)).find? r.disk.isFile with
      | none => .error { specifier := record.specifier, source }
      | some file =>
        if (r.disk.canonical file).same source then .ok none
        else .ok (some (r.disk.canonical file)) := by
  -- at depth one the search begins in the directory of the file itself
  have hstart : r.start record source = .below (r.language.moduleDir source) [x] := by
    rw [start, hdepth, ← hpath]
    rfl
  rw [resolve, hstart]
  simp only [find?_missing hrust hmissing, hdepth]
  cases (ownFiles r.disk (r.language.moduleDir source)).find? r.disk.isFile <;> simp

/-- The first file of a list is the one before which there is none. -/
theorem find?_eq_some_of_takeWhile {f : Path} {files : List Path} {isFile : Path → Bool}
    (hmem : f ∈ files) (hf : isFile f)
    (hbefore : ∀ p ∈ files.takeWhile (· != f), isFile p = false) : files.find? isFile = some f := by
  induction files with
  | nil => exact absurd hmem List.not_mem_nil
  | cons p ps ih =>
    -- the file comes first, or what comes first is no file and is left out
    by_cases hp : p = f
    · rw [hp, List.find?_cons_of_pos hf]
    · have htake : (p :: ps).takeWhile (· != f) = p :: ps.takeWhile (· != f) :=
        List.takeWhile_cons_of_pos (by simpa using hp)
      rw [htake, List.forall_mem_cons] at hbefore
      rw [List.find?_cons_of_neg (by simp [hbefore.1])]
      exact ih (List.mem_of_ne_of_mem (Ne.symm hp) hmem) hbefore.2

/-- **A declared module without a file** is taken for an item of what its directory stands for. It
is an error when the directory stands for no file, and an item of the importing file when that is
the first one it stands for. A file of the disk is among those that its directory may stand for, so
there it is enough that none of them comes before. -/
theorem resolve_missing (hrust : r.language = .rust) (hpath : record.path = [x])
    (hdepth : record.depth = 1)
    (hmissing : ∀ p ∈ childFiles (r.language.moduleDir source) x, r.disk.isFile p = false) :
    let own := ownFiles r.disk (r.language.moduleDir source)
    ((∀ p ∈ own, r.disk.isFile p = false) →
        r.resolve record source = .error { specifier := record.specifier, source }) ∧
      (∀ file, own.find? r.disk.isFile = some file → (r.disk.canonical file).same source →
        r.resolve record source = .ok none) ∧
      ∀ f : RustFile r.disk, source = f.path →
        (∀ p ∈ own.takeWhile (· != f.path), r.disk.isFile p = false) →
        r.resolve record source = .ok none := by
  intro own
  have hresolve := resolve_eq_of_missing hrust hpath hdepth hmissing
  -- the one attempt left is the module of the record itself, which does not import itself
  have hself : ∀ file, own.find? r.disk.isFile = some file →
      (r.disk.canonical file).same source → r.resolve record source = .ok none := by
    intro file hfile hsame
    rw [hresolve, hfile]
    exact if_pos hsame
  refine ⟨fun hnone => ?_, hself, fun f hsource hbefore => ?_⟩
  · have hfind : own.find? r.disk.isFile = none :=
      List.find?_eq_none.mpr fun p hp => by simp [hnone p hp]
    rw [hresolve, hfind]
  · -- a file that is tried for its own module, with none before it, is the one that is found
    have hown : f.path ∈ own := by
      simp only [own, hrust, hsource]
      exact f.mem_ownFiles
    refine hself f.path (find?_eq_some_of_takeWhile hown f.isFile_path hbefore) ?_
    rw [hsource, f.canonical_path]
    exact Path.same_refl _

/-- The disk of a library with one module. -/
def smallLibrary : Disk :=
  { tree := .directory
      [("src", .directory [("lib.rs", .file .empty), ("graph.rs", .file .empty)])] }

/-- Its root module. -/
def rootFile : RustFile smallLibrary where
  dir := ["src"]
  stem := "lib"
  content := .file .empty
  isName := by decide
  stem_ne := by decide
  found := rfl
  isFile := rfl

/-- A missing module of the library is an item of it, since its directory stands for no file before
it. One of a file that is not there itself is an error. -/
theorem resolve_missing_of_library :
    let r : Resolver :=
      { disk := smallLibrary, language := .rust, sourceRoot := ⟨"/src"⟩, aliases := [] }
    let record : ImportRecord := { path := ["missing"], depth := 1 }
    (∀ source ∈ [⟨"/src/lib.rs"⟩, ⟨"/src/gone.rs"⟩],
        ∀ p ∈ childFiles (r.language.moduleDir source) "missing", r.disk.isFile p = false) ∧
      rootFile.path = ⟨"/src/lib.rs"⟩ ∧ r.resolve record ⟨"/src/lib.rs"⟩ = .ok none ∧
      r.resolve record ⟨"/src/gone.rs"⟩ = .error ⟨"./missing", ⟨"/src/gone.rs"⟩⟩ := by
  intro r record
  have hmissing : ∀ source ∈ [⟨"/src/lib.rs"⟩, ⟨"/src/gone.rs"⟩],
      ∀ p ∈ childFiles (r.language.moduleDir source) "missing", r.disk.isFile p = false := by
    decide +kernel
  have hbefore : ∀ p ∈ (ownFiles r.disk (r.language.moduleDir ⟨"/src/lib.rs"⟩)).takeWhile
      (· != rootFile.path), r.disk.isFile p = false := by
    decide +kernel
  have hnone : ∀ p ∈ ownFiles r.disk (r.language.moduleDir ⟨"/src/gone.rs"⟩),
      r.disk.isFile p = false := by
    decide +kernel
  refine ⟨hmissing, rfl, ?_, ?_⟩
  · exact (resolve_missing rfl rfl rfl (hmissing _ (by simp))).2.2 rootFile rfl hbefore
  · exact (resolve_missing rfl rfl rfl (hmissing _ (by simp))).1 hnone

/-- No file of the disk is one for a module `missing` of `graph.rs`, and yet it is no error. -/
theorem resolve_missing_of_graph :
    let r : Resolver :=
      { disk := smallLibrary, language := .rust, sourceRoot := ⟨"/src"⟩, aliases := [] }
    let record : ImportRecord := { path := ["missing"], depth := 1 }
    (∀ p ∈ childFiles (r.language.moduleDir ⟨"/src/graph.rs"⟩) "missing",
        r.disk.isFile p = false) ∧
      r.resolve record ⟨"/src/graph.rs"⟩ = .ok none ∧
      r.resolve record ⟨"/src/graph.rs"⟩ ≠ .error ⟨record.specifier, ⟨"/src/graph.rs"⟩⟩ := by
  decide +kernel

end ImportAtlas.Resolver
