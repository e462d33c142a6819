import ImportAtlas.Proofs.Files.Disk

/-!
# The path of a place

Names that lead to something in a tree make a path. It is cut into these names again, and there are
no links on its way, so looking it up gives what the names lead to.

* `Disk.segments_pathOf`, `Disk.parent?_pathOf`, `Disk.stem?_pathOf` — the parts of such a path;
  `Disk.relativeTo?_pathOf` — what is left of it below another;
* `Disk.node?_pathOf` — what is found there; `Disk.canonical_pathOf` — a module there is known by
  that path; `Disk.exists_directory_above` — above it there is a directory.
-/

namespace ImportAtlas

open ImportAtlas.Path

namespace Disk

variable {names : List String} {n : String}

/-! ### Its parts -/

/-- Names between slashes, as a list of characters. -/
theorem toList_intercalate (names : List String) :
    ("/".intercalate names).toList = Text.join ['/'] (names.map String.toList) := by
  rw [String.toList_intercalate]
  induction names with
  | nil => rfl
  | cons n names ih =>
    cases names with
    | nil => simp [Text.join]
    | cons m names =>
      rw [List.map_cons, List.map_cons, List.intercalate_cons_cons, Text.join_cons_cons,
        ← List.map_cons, ih]
      rfl

theorem isAbsolute_pathOf (names : List String) : (pathOf names).isAbsolute := by
  simp [isAbsolute, pathOf]

/-- Names that are joined by slashes are cut apart again. -/
theorem cutAt_intercalate (hnames : ∀ n ∈ names, IsName n) (hne : names ≠ []) :
    Text.cutAt (· == '/') ("/".intercalate names).toList = names.map String.toList := by
  rw [toList_intercalate, Text.cutAt_join (by simpa using hne)]
  intro s hs hslash
  obtain ⟨n, hn, rfl⟩ := List.mem_map.mp hs
  exact (hnames n hn).isPiece '/' hslash rfl

/-- In front of the first slash there is nothing, and then the names stand between the slashes. -/
theorem segments_pathOf (hnames : ∀ n ∈ names, IsName n) (hne : names ≠ []) :
    (pathOf names).segments = [] :: names.map String.toList := by
  rw [segments, pathOf, String.toList_append, ← cutAt_intercalate hnames hne]
  rfl

/-- A name is not one of the segments that are dropped. -/
theorem isIdle_toList (h : IsName n) : isIdle n.toList = false := by
  simp only [isIdle, Bool.or_eq_false_iff, beq_eq_false_iff_ne]
  exact ⟨h.toList_ne_nil, h.toList_ne_here⟩

/-- No name is dropped at the end. -/
theorem dropIdleEnd_names (hnames : ∀ n ∈ names, IsName n) :
    dropIdleEnd (names.map String.toList) = names.map String.toList := by
  rcases List.eq_nil_or_concat' names with rfl | ⟨init, n, rfl⟩
  · rfl
  · have hidle := isIdle_toList (hnames n (by simp))
    simp [dropIdleEnd, hidle]

/-- A path of names begins at the root and goes on with the names. -/
theorem start_pathOf (hnames : ∀ n ∈ names, IsName n) (hne : names ≠ []) :
    (pathOf names).start = ("/", names.map String.toList) := by
  rw [start, segments_pathOf hnames hne]
  simp only [isAbsolute_pathOf, if_true]

/-- Putting the names together again spells them. -/
theorem ofSegments_names (names : List String) :
    ofSegments (names.map String.toList) = "/".intercalate names := by
  rw [ofSegments, ← toList_intercalate, String.ofList_toList]

/-- Above the path of names is the path of those before the last one. -/
theorem parent?_pathOf (hnames : ∀ m ∈ names ++ [n], IsName m) :
    (pathOf (names ++ [n])).parent? = some (pathOf names) := by
  have hbefore : ∀ m ∈ names, IsName m := fun m hm => hnames m (List.mem_append_left _ hm)
  have hstart := start_pathOf hnames (by simp)
  -- no name is idle, so the last segment is the last name
  have hreverse : (dropIdleEnd ((names ++ [n]).map String.toList)).reverse =
      n.toList :: (names.map String.toList).reverse := by
    rw [dropIdleEnd_names hnames, List.map_append, List.reverse_append]
    rfl
  rw [parent?, hstart]
  simp only [hreverse, List.reverse_reverse, dropIdleEnd_names hbefore, ofSegments_names]
  rfl

/-- Without its beginning a list of components is the rest. -/
theorem dropSteps?_append (base steps : List Component) :
    dropSteps? base (base ++ steps) = some steps := by
  induction base with
  | nil => rfl
  | cons b base ih => rw [List.cons_append, dropSteps?, if_pos rfl, ih]

/-- Without its beginning a list of segments is the rest. An empty rest makes no difference. -/
theorem dropSegments_names {way : List String} (hnames : ∀ n ∈ names ++ way, IsName n) :
    dropSegments names.length ((names ++ way).map String.toList) = way.map String.toList := by
  induction names with
  | nil =>
    cases way with
    | nil => rfl
    | cons n way => simp [dropSegments, isIdle_toList (hnames n (by simp))]
  | cons n names ih =>
    rw [List.cons_append, List.forall_mem_cons] at hnames
    rw [List.cons_append, List.map_cons, List.length_cons, dropSegments, isIdle_toList hnames.1]
    exact ih hnames.2

/-- Names further down are the path from one place to the other. -/
theorem relativeTo?_pathOf {way : List String} (hnames : ∀ n ∈ names ++ way, IsName n) :
    (pathOf (names ++ way)).relativeTo? (pathOf names) = some ⟨"/".intercalate way⟩ := by
  have hbase : ∀ n ∈ names, IsName n := fun n hn => hnames n (List.mem_append_left _ hn)
  have hway : ∀ n ∈ way, IsName n := fun n hn => hnames n (List.mem_append_right _ hn)
  have hsteps : dropSteps? (pathOf names).components (pathOf (names ++ way)).components =
      some (way.map .name) := by
    rw [components_pathOf hbase, components_pathOf hnames, List.map_append, ← List.cons_append,
      dropSteps?_append]
  by_cases hne : names ++ way = []
  · -- the root from itself
    obtain ⟨rfl, rfl⟩ := List.append_eq_nil_iff.mp hne
    decide
  · have hfront : ("/" : String) ≠ "" := by decide
    rw [relativeTo?, hsteps, Option.map_some, start_pathOf hnames hne, components_pathOf hbase]
    simp only [if_neg hfront, if_neg (List.cons_ne_nil _ _), List.length_cons, List.length_map,
      Nat.add_sub_cancel, dropSegments_names hnames, dropIdleEnd_names hway, ofSegments_names]

/-- The steps of a path tell which place it is that of. -/
theorem eq_of_components_pathOf {more : List String} (hnames : ∀ n ∈ names, IsName n)
    (hmore : ∀ n ∈ more, IsName n) (h : (pathOf names).components = (pathOf more).components) :
    names = more := by
  rw [components_pathOf hnames, components_pathOf hmore] at h
  have hinjective : Function.Injective Component.name := fun _ _ heq => Component.name.inj heq
  exact hinjective.list_map (List.cons.inj h).2

/-- The stem of a file name with an extension. -/
theorem splitName_append {stem extension : String} (hstem : stem ≠ "")
    (hextension : '.' ∉ extension.toList) :
    splitName (stem ++ "." ++ extension) = (stem, some extension) := by
  have hreverse : (stem ++ "." ++ extension).toList.reverse =
      extension.toList.reverse ++ '.' :: stem.toList.reverse := by
    simp
  -- read from its end, the name goes on to the last dot
  have hpass : ∀ c ∈ extension.toList.reverse, c != '.' := fun c hc =>
    bne_iff_ne.mpr fun heq => hextension (heq ▸ List.mem_reverse.mp hc)
  have hspan : (stem ++ "." ++ extension).toList.reverse.span (· != '.') =
      (extension.toList.reverse, '.' :: stem.toList.reverse) := by
    rw [List.span_eq_takeWhile_dropWhile, hreverse, List.takeWhile_append_of_pos hpass,
      List.dropWhile_append_of_pos hpass]
    simp
  have hne : stem.toList.reverse.isEmpty = false := by simpa using hstem
  rw [splitName, hspan]
  simp [hne]

theorem stem?_pathOf {stem extension : String} (hstem : stem ≠ "")
    (hextension : '.' ∉ extension.toList)
    (hnames : ∀ n ∈ names ++ [stem ++ "." ++ extension], IsName n) :
    (pathOf (names ++ [stem ++ "." ++ extension])).stem? = some stem := by
  -- the last name is the one with the extension
  have hname : (pathOf (names ++ [stem ++ "." ++ extension])).fileName? =
      some (stem ++ "." ++ extension) := by
    rw [fileName?, components_pathOf hnames, List.map_append, ← List.cons_append,
      List.map_singleton, List.getLast?_concat]
  rw [stem?, hname, Option.map_some, splitName_append hstem hextension]

/-! ### What is found there -/

/-- A link leads nowhere by itself. -/
theorem ne_link_of_at? {t u : FileTree} (h : u.at? names = some t)
    (hlink : ∀ target, t ≠ .link target) (target : String) : u ≠ .link target := by
  rintro rfl
  cases names with
  | nil => exact hlink target (Option.some.inj h).symm
  | cons n names => cases h

/-- Names are followed from directory to directory, as none of them is a link. -/
theorem followWith_names {tree t : FileTree}
    {again : List String → List String → Except ReadFault (List String)} {done : List String}
    (hnames : ∀ n ∈ names, IsName n) (h : tree.at? (done ++ names) = some t)
    (hlink : ∀ target, t ≠ .link target) :
    followWith tree again done names = .ok (done ++ names) := by
  induction names generalizing done with
  | nil => rw [followWith, List.append_nil]
  | cons n names ih =>
    obtain ⟨hn, hrest⟩ := List.forall_mem_cons.mp hnames
    -- below the first name by induction; the rest finds that name in a directory
    have hnext : followWith tree again (done ++ [n]) names = .ok (done ++ n :: names) := by
      have happend : done ++ n :: names = done ++ [n] ++ names := by simp
      rw [happend] at h ⊢
      exact ih hrest h
    rw [at?_append] at h
    obtain ⟨dir, hdir, hbelow⟩ := Option.bind_eq_some_iff.mp h
    obtain ⟨u, hchild, hu⟩ := Option.bind_eq_some_iff.mp hbelow
    cases dir with
    | file _ => cases hchild
    | sealed => cases hchild
    | link _ => cases hchild
    | directory es =>
      have hlookup : es.lookup n = some u := hchild
      rw [followWith, hdir]
      simp only [hn.ne_here, hn.ne_up, if_false, hlookup]
      cases u with
      | link target => exact absurd rfl (ne_link_of_at? hu hlink target)
      | file _ => exact hnext
      | sealed => exact hnext
      | directory _ => exact hnext

/-- A path of names is located name by name. -/
theorem steps_pathOf (hnames : ∀ n ∈ names, IsName n) (hne : names ≠ []) :
    steps (pathOf names).text = names := by
  have hcut : Text.cutAt (· == '/') (pathOf names).text.toList = [] :: names.map String.toList :=
    segments_pathOf hnames hne
  -- a path of names does not end with a slash
  have hlast : ([] :: names.map String.toList).getLast? ≠ some [] := by
    obtain ⟨init, n, rfl⟩ := (List.eq_nil_or_concat' names).resolve_left hne
    rw [List.map_append, ← List.cons_append, List.map_singleton, List.getLast?_concat]
    exact fun heq => (hnames n (by simp)).toList_ne_nil (Option.some.inj heq)
  have hfilter : ([] :: names.map String.toList).filter (· ≠ []) = names.map String.toList := by
    rw [List.filter_cons_of_neg (by simp)]
    refine List.filter_eq_self.mpr fun t ht => ?_
    obtain ⟨n, hn, rfl⟩ := List.mem_map.mp ht
    exact decide_eq_true (hnames n hn).toList_ne_nil
  rw [steps, hcut]
  simp only [if_neg hlast, hfilter, List.append_nil]
  simp

/-- The names are found again from the root. -/
theorem locate_pathOf {d : Disk} {t : FileTree} (hnames : ∀ n ∈ names, IsName n)
    (h : d.tree.at? names = some t) (hroot : names = [] → t.isDirectory)
    (hlink : ∀ target, t ≠ .link target) : d.locate (pathOf names) = .ok names := by
  have hempty : (pathOf names).text.isEmpty = false := by simp [pathOf]
  rw [locate, hempty, isAbsolute_pathOf]
  simp only [Bool.false_eq_true, if_false, if_true, maxLinks, follow]
  by_cases hne : names = []
  · -- the root is written as a slash alone, which asks for a directory
    subst hne
    obtain rfl := Option.some.inj h
    have hsteps : steps (pathOf []).text = ["."] := by decide
    cases hdir : d.tree with
    | directory es => simp [hsteps, followWith, FileTree.at?]
    | file _ => simp [hdir, FileTree.isDirectory] at hroot
    | sealed => simp [hdir, FileTree.isDirectory] at hroot
    | link _ => simp [hdir, FileTree.isDirectory] at hroot
  · rw [steps_pathOf hnames hne]
    exact followWith_names hnames h hlink

/-- **Places.** The path of names stands for what they lead to, unless that is a link. -/
theorem node?_pathOf {d : Disk} {t : FileTree} (hnames : ∀ n ∈ names, IsName n)
    (h : d.tree.at? names = some t) (hroot : names = [] → t.isDirectory)
    (hlink : ∀ target, t ≠ .link target) : d.node? (pathOf names) = some t := by
  rw [node?, locate_pathOf hnames h hroot hlink]
  exact h

/-- A file that names lead to is found at their path. -/
theorem isFile_pathOf {d : Disk} {t : FileTree} (hnames : ∀ n ∈ names, IsName n) (hne : names ≠ [])
    (h : d.tree.at? names = some t) (ht : t.isFile) : d.isFile (pathOf names) := by
  have hlink : ∀ target, t ≠ .link target := by
    rintro target rfl
    exact absurd ht (by simp [FileTree.isFile])
  rw [Disk.isFile, node?_pathOf hnames h (absurd · hne) hlink]
  exact ht

/-- There is nothing to drop from names and nothing to take back. -/
theorem cleanSteps_names (done : List Component) (names : List String) :
    cleanSteps done (names.map .name) = done.reverse ++ names.map .name := by
  induction names generalizing done with
  | nil => rw [List.map_nil, cleanSteps, List.append_nil]
  | cons n names ih =>
    rw [List.map_cons, cleanSteps, ih, List.reverse_cons, List.append_assoc, List.singleton_append]
    · exact Component.noConfusion
    · exact Component.noConfusion

/-- There is nothing in a path of names that cleaning takes away. -/
theorem clean_pathOf (hnames : ∀ n ∈ names, IsName n) : (pathOf names).clean = pathOf names := by
  have hsteps : cleanSteps [] (.root :: names.map .name) = .root :: names.map .name := by
    rw [cleanSteps, cleanSteps_names]
    · rfl
    · exact Component.noConfusion
    · exact Component.noConfusion
  rw [clean, components_pathOf hnames, hsteps]
  exact (pathOf_eq hnames).symm

/-- Something without links on the way is known by the path of its names. -/
theorem canonical_pathOf {d : Disk} {t : FileTree} (hnames : ∀ n ∈ names, IsName n)
    (h : d.tree.at? names = some t) (hroot : names = [] → t.isDirectory)
    (hlink : ∀ target, t ≠ .link target) : d.canonical (pathOf names) = pathOf names := by
  rw [canonical, clean_pathOf hnames, locate_pathOf hnames h hroot hlink]

/-- Above something in a tree is a directory. -/
theorem exists_directory_above {tree t : FileTree} (h : tree.at? (names ++ [n]) = some t) :
    ∃ es, tree.at? names = some (.directory es) := by
  rw [at?_append] at h
  obtain ⟨u, hu, hchild⟩ := Option.bind_eq_some_iff.mp h
  cases u with
  | directory es => exact ⟨es, hu⟩
  | file _ => cases hchild
  | sealed => cases hchild
  | link _ => cases hchild

end Disk

end ImportAtlas
