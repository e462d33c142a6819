import ImportAtlas.Discovery
import ImportAtlas.Proofs.Files.Walk
import ImportAtlas.Proofs.Glob.Depth
import ImportAtlas.Proofs.Path.Order

/-!
# The packages of a workspace

The manifest of a root lists patterns, and the directories that match one of them and hold a
manifest of their own are the packages. They are looked for only as deep as the pattern with the
most components goes.

* `Discovery.OpenRoot` — a root below which nothing is hidden or ignored;
* `Discovery.IsPackage` — a directory with a manifest that a glob matches, given by the way there;
* `Discovery.workspaceRoots_openRoot` — which packages are found, and that none is missed as long as
  no glob goes deeper than its pattern (`Glob.areShallow`);
* `Discovery.workspaceRoots_deep` — a package that `**` matches and that is missed.
-/

namespace ImportAtlas

namespace Discovery

open Disk (pathOf)

/-! ### The patterns of a root -/

/-- The patterns in the manifest of a directory, without what does not count at their ends. -/
def patternsIn? (d : Disk) (root : Path) : Option (List (List Char)) :=
  (((d.readText (root.join "package.json")).toOption.bind (Json.parse? ·.toList)).bind
    workspacePatterns?).map (·.map trimPattern)

/-- The patterns of a manifest, from what its text is parsed to. -/
theorem patternsIn?_eq_some {d : Disk} {root : Path} {text : String} {written : List String}
    (htext : (d.readText (root.join "package.json")).toOption = some text)
    (hparse : (Json.parse? text.toList).bind workspacePatterns? = some written) :
    patternsIn? d root = some (written.map trimPattern) := by
  rw [patternsIn?, htext, Option.bind_some, hparse, Option.map_some]

/-- The globs that some patterns spell. A pattern that spells none is passed over. -/
def globsOf (patterns : List (List Char)) : List Glob :=
  patterns.filterMap fun p => (Glob.parse true (String.ofList p)).toOption

/-- A fold by the maximum is at least where it starts and at least each count on the way. -/
theorem le_foldl_max (patterns : List (List Char)) (n : Nat) :
    n ≤ patterns.foldl (fun n p => max n (Text.cutAt (· == '/') p).length) n ∧
      ∀ p ∈ patterns, (Text.cutAt (· == '/') p).length ≤
        patterns.foldl (fun n p => max n (Text.cutAt (· == '/') p).length) n := by
  induction patterns generalizing n with
  | nil => simp
  | cons p patterns ih =>
    obtain ⟨hstart, hrest⟩ := ih (max n (Text.cutAt (· == '/') p).length)
    rw [List.foldl_cons]
    refine ⟨(Nat.le_max_left _ _).trans hstart, List.forall_mem_cons.mpr ⟨?_, hrest⟩⟩
    exact (Nat.le_max_right _ _).trans hstart

/-- The depth of some patterns is at least that of each, which has one component more than
slashes. -/
theorem count_lt_patternDepth {patterns : List (List Char)} {p : List Char} (hp : p ∈ patterns) :
    p.count '/' < patternDepth patterns := by
  have hle := (le_foldl_max patterns 1).2 p hp
  rw [Text.length_cutAt] at hle
  exact hle

/-! ### Packages -/

/-- A directory of a disk below which no directory is hidden, on a disk without ignore files. -/
structure OpenRoot (d : Disk) where
  names : List String
  entries : List (String × FileTree)
  found : d.tree.at? names = some (.directory entries)
  proper : d.tree.Proper
  unignored : d.Unignored
  visible : ∀ x ∈ FileTree.descendantsOf entries, x.2.isDirectory → ∀ n ∈ x.1, ¬ Walk.isHidden n

/-- The path of the root, as its names spell it. -/
def OpenRoot.path {d : Disk} (root : OpenRoot d) : Path :=
  pathOf root.names

/-- The way from the directory with the names `root` leads to a directory that holds a manifest, and
one of the globs matches it. -/
structure IsPackage (d : Disk) (root : List String) (globs : List Glob) (way : List String) :
    Prop where
  directory : ∃ es, d.tree.at? (root ++ way) = some (.directory es)
  manifest : d.isFile ((pathOf (root ++ way)).join "package.json")
  isMatch : Glob.anyMatches globs (Glob.bytesOf ("/".intercalate way).toList)

variable {d : Disk} {patterns : List (List Char)}

/-- A directory has entries. -/
theorem exists_directory_of_isDirectory {t : FileTree} (h : t.isDirectory) :
    ∃ es, t = .directory es := by
  cases t with
  | directory es => exact ⟨es, rfl⟩
  | file _ => cases h
  | sealed => cases h
  | link _ => cases h

namespace OpenRoot

variable (root : OpenRoot d)

/-- What stands below the root is what the names from there lead to. -/
theorem at?_of_mem {x : List String × FileTree} (hx : x ∈ FileTree.descendantsOf root.entries) :
    d.tree.at? (root.names ++ x.1) = some x.2 := by
  rw [Disk.at?_append, root.found]
  exact ((root.proper.of_at? root.found).mem_descendants_iff.mp hx).2

/-- The directories that a walk finds are those that are not too deep. -/
theorem mem_walk (depth : Nat) {f : Walk.Found} :
    f ∈ d.walk .repository (some depth) root.path ∧ f.node.isDirectory ↔
      ∃ way es, f = ⟨pathOf (root.names ++ way), .directory es⟩ ∧ way.length ≤ depth ∧
        d.tree.at? (root.names ++ way) = some (.directory es) := by
  rw [path, Disk.walk_eq root.proper root.unignored .repository (some depth) root.found]
  constructor
  · rintro ⟨hf, hdirectory⟩
    rcases List.mem_cons.mp hf with rfl | hf
    · exact ⟨[], root.entries, rfl, Nat.zero_le _, by rw [List.append_nil, root.found]⟩
    · obtain ⟨⟨way, t⟩, hx, rfl⟩ := List.mem_map.mp hf
      obtain ⟨hmem, hwithin⟩ := List.mem_filter.mp hx
      obtain ⟨es, rfl⟩ := exists_directory_of_isDirectory hdirectory
      exact ⟨way, es, rfl, (of_decide_eq_true hwithin).1 depth rfl, root.at?_of_mem hmem⟩
  · rintro ⟨way, es, rfl, hlength, hat⟩
    refine ⟨?_, rfl⟩
    rw [Disk.at?_append, root.found] at hat
    rcases Disk.mem_descendants hat with rfl | hmem
    · -- the root itself
      cases hat
      exact List.mem_cons_self
    · have hwithin : Walk.Within (some depth) way :=
        ⟨by simpa using hlength, root.visible _ hmem rfl⟩
      refine List.mem_cons_of_mem _ (List.mem_map.mpr ⟨(way, .directory es), ?_, rfl⟩)
      exact List.mem_filter.mpr ⟨hmem, decide_eq_true hwithin⟩

/-- Different ways below the root lead to different modules: proper names are the components of a
path. -/
theorem not_same_of_ne {way more : List String} {t u : FileTree}
    (hway : d.tree.at? (root.names ++ way) = some t)
    (hmore : d.tree.at? (root.names ++ more) = some u) (hne : way ≠ more) :
    ¬ (pathOf (root.names ++ way)).same (pathOf (root.names ++ more)) := by
  intro hsame
  have heq := Disk.eq_of_components_pathOf (root.proper.isName_of_at? hway)
    (root.proper.isName_of_at? hmore) (Path.same_iff.mp hsame)
  exact hne (List.append_cancel_left heq)

/-- A walk finds no path twice. -/
theorem distinct_walk (depth : Nat) :
    (d.walk .repository (some depth) root.path).Pairwise fun f g => ¬ f.path.same g.path := by
  have hways : (FileTree.descendantsOf root.entries).Pairwise fun x y => x.1 ≠ y.1 :=
    List.pairwise_map.mp (root.proper.of_at? root.found).nodup
  rw [path, Disk.walk_eq root.proper root.unignored .repository (some depth) root.found,
    List.pairwise_cons, List.pairwise_map]
  constructor
  · -- no way below the root is that to the root itself
    intro f hf
    obtain ⟨x, hx, rfl⟩ := List.mem_map.mp hf
    have hmem := List.mem_of_mem_filter hx
    have hroot : d.tree.at? (root.names ++ []) = some (.directory root.entries) := by
      rw [List.append_nil, root.found]
    have hne : x.1 ≠ [] :=
      FileTree.ne_nil_of_mem_descendants (t := .directory root.entries) hmem
    exact root.not_same_of_ne hroot (root.at?_of_mem hmem) hne.symm
  · refine (hways.filter _).imp_of_mem fun {x y} hx hy hne => ?_
    exact root.not_same_of_ne (root.at?_of_mem (List.mem_of_mem_filter hx))
      (root.at?_of_mem (List.mem_of_mem_filter hy)) hne

end OpenRoot

/-! ### What is found -/

/-- Whether what a walk finds is a package. -/
def isPackageAt (d : Disk) (root : Path) (globs : List Glob) (f : Walk.Found) : Bool :=
  f.node.isDirectory &&
    ((f.path.relativeTo? root).any fun rel =>
      Glob.anyMatches globs (Glob.bytesOf rel.text.toList)) &&
    d.isFile (f.path.join "package.json")

/-- With the patterns known, the packages are what the walk finds, filtered and sorted. -/
theorem workspaceRoots_eq {root : Path} (h : patternsIn? d root = some patterns) :
    workspaceRoots d root =
      (((d.walk .repository (some (patternDepth patterns)) root).filter
        (isPackageAt d root (globsOf patterns))).map (·.path)).mergeSort
          fun p q => (p.order q).isLE := by
  obtain ⟨written, hwritten, rfl⟩ := Option.map_eq_some_iff.mp h
  rw [workspaceRoots]
  dsimp only
  rw [hwritten]
  rfl

/-- The test that the walk's finds are put to, for a directory at a known way below the root. A path
relative to the root is that way again. -/
theorem isPackageAt_iff (root : OpenRoot d) (globs : List Glob) {way : List String}
    {es : List (String × FileTree)} (hat : d.tree.at? (root.names ++ way) = some (.directory es)) :
    isPackageAt d root.path globs ⟨pathOf (root.names ++ way), .directory es⟩ ↔
      IsPackage d root.names globs way := by
  have hnames := root.proper.isName_of_at? hat
  rw [isPackageAt, OpenRoot.path, Disk.relativeTo?_pathOf hnames]
  simp only [FileTree.isDirectory, Bool.true_and, Option.any_some, Bool.and_eq_true]
  constructor
  · rintro ⟨hmatch, hmanifest⟩
    exact ⟨⟨es, hat⟩, hmanifest, hmatch⟩
  · exact fun h => ⟨h.isMatch, h.manifest⟩

/-- The walk is what bounds the depth; whatever it finds is judged by itself. -/
theorem mem_workspaceRoots (root : OpenRoot d) (h : patternsIn? d root.path = some patterns)
    {p : Path} :
    p ∈ workspaceRoots d root.path ↔
      ∃ way, p = pathOf (root.names ++ way) ∧ way.length ≤ patternDepth patterns ∧
        IsPackage d root.names (globsOf patterns) way := by
  rw [workspaceRoots_eq h, List.mem_mergeSort, List.mem_map]
  constructor
  · -- a find that passes the test is a directory, which the walk has reached within its depth
    rintro ⟨f, hf, rfl⟩
    obtain ⟨hwalk, hpackage⟩ := List.mem_filter.mp hf
    have hdirectory : f.node.isDirectory := by
      rw [isPackageAt, Bool.and_eq_true, Bool.and_eq_true] at hpackage
      exact hpackage.1.1
    obtain ⟨way, es, rfl, hlength, hat⟩ := (root.mem_walk _).mp ⟨hwalk, hdirectory⟩
    exact ⟨way, rfl, hlength, (isPackageAt_iff root _ hat).mp hpackage⟩
  · rintro ⟨way, rfl, hlength, hpackage⟩
    obtain ⟨es, hat⟩ := hpackage.directory
    -- the walk reaches it, and it passes the test
    refine ⟨⟨pathOf (root.names ++ way), .directory es⟩, List.mem_filter.mpr ⟨?_, ?_⟩, rfl⟩
    · exact ((root.mem_walk _).mpr ⟨way, es, rfl, hlength, hat⟩).1
    · exact (isPackageAt_iff root _ hat).mpr hpackage

/-- Sorted, and without two that are the same, as the walk finds none. -/
theorem ascending_workspaceRoots (root : OpenRoot d)
    (h : patternsIn? d root.path = some patterns) :
    Path.Ascending (workspaceRoots d root.path) := by
  -- sorting keeps apart what the walk has found apart
  have hdistinct : (workspaceRoots d root.path).Pairwise fun p q => ¬ p.same q := by
    have hsymm : ∀ {p q : Path}, ¬ p.same q → ¬ q.same p := fun hne hsame =>
      hne (Path.same_symm hsame)
    rw [workspaceRoots_eq h, (List.mergeSort_perm _ _).pairwise_iff hsymm, List.pairwise_map]
    exact (root.distinct_walk _).filter _
  have hsorted : (workspaceRoots d root.path).Pairwise fun p q => (p.order q).isLE := by
    rw [workspaceRoots_eq h]
    exact pairwise_mergeSort_isLE Path.order _
  -- sorted, and no two the same, is ascending
  refine (hsorted.and hdistinct).imp fun {p q} ⟨hle, hne⟩ => ?_
  cases horder : p.order q with
  | lt => rfl
  | eq => exact absurd (Path.order_eq_iff.mp horder) hne
  | gt =>
    rw [horder] at hle
    cases hle

/-- What some patterns match is matched by the glob that one of them spells. -/
theorem exists_of_anyMatches {t : Glob.Bytes} (h : Glob.anyMatches (globsOf patterns) t) :
    ∃ p ∈ patterns, ∃ g ∈ globsOf patterns,
      Glob.parse true (String.ofList p) = .ok g ∧ g.matches t := by
  obtain ⟨g, hg, hmatch⟩ := List.any_eq_true.mp h
  obtain ⟨p, hp, hparse⟩ := List.mem_filterMap.mp hg
  rw [Glob.matchesInSet, Bool.and_eq_true] at hmatch
  refine ⟨p, hp, g, hg, ?_, hmatch.2⟩
  -- the pattern spells that glob and no other one
  cases hparsed : Glob.parse true (String.ofList p) with
  | ok g' =>
    rw [hparsed] at hparse
    rw [Option.some.inj hparse]
  | error _ =>
    rw [hparsed] at hparse
    cases hparse

/-- A glob that goes no deeper than its pattern matches nothing below the depth of the patterns. -/
theorem length_le_patternDepth {way : List String} (hway : ∀ n ∈ way, IsName n)
    (hshallow : ∀ g ∈ globsOf patterns, Glob.areShallow g.tokens)
    (h : Glob.anyMatches (globsOf patterns) (Glob.bytesOf ("/".intercalate way).toList)) :
    way.length ≤ patternDepth patterns := by
  by_cases hne : way = []
  · rw [hne]
    exact Nat.zero_le _
  · obtain ⟨p, hp, g, hg, hparse, hmatch⟩ := exists_of_anyMatches h
    have hlength := congrArg List.length (Disk.cutAt_intercalate hway hne)
    rw [Text.length_cutAt, List.length_map, ← List.count] at hlength
    have hslashes := Glob.count_slash_of_matches hparse (hshallow g hg) hmatch
    rw [Glob.count_slash_bytesOf, String.toList_ofList] at hslashes
    -- one name more than slashes, and no more slashes than in the pattern
    calc way.length = ("/".intercalate way).toList.count '/' + 1 := hlength.symm
      _ ≤ p.count '/' + 1 := Nat.succ_le_succ hslashes
      _ ≤ patternDepth patterns := count_lt_patternDepth hp

/-- **Workspaces.** Below an open root, the packages that are found stand in order, each once. They
are the directories that hold a manifest and that one of the globs matches, as deep as the pattern
with the most components goes. If no glob goes deeper than its pattern, these are all such
directories. -/
theorem workspaceRoots_openRoot (root : OpenRoot d) (h : patternsIn? d root.path = some patterns) :
    Path.Ascending (workspaceRoots d root.path) ∧
    (∀ p, p ∈ workspaceRoots d root.path ↔
      ∃ way, p = pathOf (root.names ++ way) ∧ way.length ≤ patternDepth patterns ∧
        IsPackage d root.names (globsOf patterns) way) ∧
    ((∀ g ∈ globsOf patterns, Glob.areShallow g.tokens) →
      ∀ p, p ∈ workspaceRoots d root.path ↔
        ∃ way, p = pathOf (root.names ++ way) ∧ IsPackage d root.names (globsOf patterns) way) := by
  refine ⟨ascending_workspaceRoots root h, fun p => mem_workspaceRoots root h,
    fun hshallow p => ?_⟩
  rw [mem_workspaceRoots root h]
  constructor
  · rintro ⟨way, hp, -, hpackage⟩
    exact ⟨way, hp, hpackage⟩
  · -- a shallow pattern has a part for each step, so the bound of the walk leaves nothing out
    rintro ⟨way, hp, hpackage⟩
    obtain ⟨es, hat⟩ := hpackage.directory
    have hway : ∀ n ∈ way, IsName n := fun n hn =>
      root.proper.isName_of_at? hat n (List.mem_append_right _ hn)
    exact ⟨way, hp, length_le_patternDepth hway hshallow hpackage.isMatch, hpackage⟩

/-- A root with one pattern, and beside its manifest some other entries. -/
def diskOf (pattern : String) (entries : List (String × FileTree)) : Disk :=
  let manifest := "\x7b\"workspaces\":[\"" ++ pattern ++ "\"]\x7d"
  { tree := .directory (("package.json", .file manifest.toUTF8) :: entries) }

/-- A directory that is a package. -/
def packageTree : FileTree :=
  .directory [("package.json", .file "\x7b\x7d".toUTF8)]

/-- Two directories below `packages`, one of them a package. -/
def flatDisk : Disk :=
  diskOf "packages/*" [("packages", .directory [("ui", packageTree), ("empty", .directory [])])]

/-- The root of that disk. -/
def flatRoot : OpenRoot flatDisk where
  names := []
  entries := _
  found := rfl
  proper := by decide
  unignored := by decide +kernel
  visible := by decide

/-- Of the two directories below `packages` one has a package file. Its pattern has no `**`, so that
the walk is deep enough for it. -/
theorem workspaceRoots_openRoot_of_ui :
    patternsIn? flatDisk flatRoot.path = some ["packages/*".toList] ∧
      pathOf ["packages", "ui"] ∈ workspaceRoots flatDisk flatRoot.path := by
  have hparse : (Json.parse? "\x7b\"workspaces\":[\"packages/*\"]\x7d".toList).bind
      workspacePatterns? = some ["packages/*"] := by
    decide +kernel
  have h : patternsIn? flatDisk flatRoot.path = some ["packages/*".toList] :=
    patternsIn?_eq_some rfl hparse
  have hpackage : IsPackage flatDisk flatRoot.names (globsOf ["packages/*".toList])
      ["packages", "ui"] := ⟨⟨_, rfl⟩, by decide +kernel, by decide +kernel⟩
  have hshallow : ∀ g ∈ globsOf ["packages/*".toList], Glob.areShallow g.tokens := by
    decide +kernel
  exact ⟨h, ((workspaceRoots_openRoot flatRoot h).2.2 hshallow _).mpr
    ⟨["packages", "ui"], rfl, hpackage⟩⟩

/-- With the pattern `tools/**/z` a walk goes three directories deep. -/
def deepDisk : Disk :=
  diskOf "tools/**/z" [("tools", .directory [("x", .directory [("y", .directory
    [("z", packageTree)])])])]

/-- The root of the disk with the deep pattern. -/
def deepRoot : OpenRoot deepDisk where
  names := []
  entries := _
  found := rfl
  proper := by decide
  unignored := by decide +kernel
  visible := by decide

/-- A package that the pattern matches lies one directory deeper than the walk goes. -/
theorem workspaceRoots_deep :
    patternsIn? deepDisk deepRoot.path = some ["tools/**/z".toList] ∧
      IsPackage deepDisk deepRoot.names (globsOf ["tools/**/z".toList]) ["tools", "x", "y", "z"] ∧
      workspaceRoots deepDisk deepRoot.path = [] := by
  have hparse : (Json.parse? "\x7b\"workspaces\":[\"tools/**/z\"]\x7d".toList).bind
      workspacePatterns? = some ["tools/**/z"] := by
    decide +kernel
  have h : patternsIn? deepDisk deepRoot.path = some ["tools/**/z".toList] :=
    patternsIn?_eq_some rfl hparse
  -- the pattern has three parts and the package is four steps down
  have hnone : ∀ f ∈ deepDisk.walk .repository (some (patternDepth ["tools/**/z".toList]))
      deepRoot.path, ¬ isPackageAt deepDisk deepRoot.path (globsOf ["tools/**/z".toList]) f := by
    decide +kernel
  refine ⟨h, ⟨⟨_, rfl⟩, by decide +kernel, by decide +kernel⟩, ?_⟩
  rw [workspaceRoots_eq h, List.filter_eq_nil_iff.mpr hnone, List.map_nil, List.mergeSort_nil]

end Discovery

end ImportAtlas
