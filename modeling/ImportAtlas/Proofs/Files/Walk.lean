import ImportAtlas.Files.Walk
import ImportAtlas.Proofs.Files.Place
import Mathlib.Data.List.Nodup

/-!
# Walks without ignore files

Where no file says what is to be left out, a walk passes by hidden names only. What it finds below a
directory is what stands there in the tree, as deep as it goes.

* `FileTree.Proper` — the names of a tree can be names of files, and no two entries of a directory
  have the same one; `FileTree.Proper.mem_descendants_iff` — what names lead to in such a tree;
* `Disk.Unignored` — there are no ignore files;
* `Disk.walk_eq` — what a walk finds.
-/

namespace ImportAtlas

/-! ### Proper trees -/

namespace FileTree

/-- Every name of the tree can be the name of a file, and leads to one thing only. -/
structure Proper (t : FileTree) : Prop where
  isName : ∀ x ∈ t.descendants, ∀ n ∈ x.1, IsName n
  nodup : (t.descendants.map Prod.fst).Nodup

instance (t : FileTree) : Decidable t.Proper :=
  decidable_of_iff ((∀ x ∈ t.descendants, ∀ n ∈ x.1, IsName n) ∧
    (t.descendants.map Prod.fst).Nodup)
    ⟨fun ⟨hname, hnodup⟩ => ⟨hname, hnodup⟩, fun h => ⟨h.isName, h.nodup⟩⟩

variable {es : List (String × FileTree)} {t u : FileTree} {n : String} {way : List String}
  {x : List String × FileTree}

/-- What stands below some entries: the entries themselves, and what stands below them. -/
theorem mem_descendantsOf_iff :
    x ∈ descendantsOf es ↔
      ∃ e ∈ es, x = ([e.1], e.2) ∨ ∃ y ∈ e.2.descendants, x = (e.1 :: y.1, y.2) := by
  induction es with
  | nil => simp [descendantsOf]
  | cons e es ih =>
    rw [descendantsOf, List.mem_append, ih]
    simp [eq_comm]

/-- Nothing is a descendant of itself. -/
theorem ne_nil_of_mem_descendants (h : x ∈ t.descendants) : x.1 ≠ [] := by
  cases t with
  | directory es =>
    obtain ⟨e, -, rfl | ⟨y, -, rfl⟩⟩ := mem_descendantsOf_iff.mp h
    · exact List.cons_ne_nil e.1 []
    · exact List.cons_ne_nil e.1 y.1
  | file _ => cases h
  | sealed => cases h
  | link _ => cases h

/-- Of entries with distinct ways, the first of a name is the only one, and the ways below it are
distinct too. -/
theorem lookup_of_nodup (hnodup : ((descendantsOf es).map Prod.fst).Nodup) (h : (n, t) ∈ es) :
    es.lookup n = some t ∧ (t.descendants.map Prod.fst).Nodup := by
  induction es with
  | nil => cases h
  | cons e es ih =>
    obtain ⟨m, u⟩ := e
    rw [descendantsOf, List.map_append, List.nodup_append, List.map_cons, List.map_map,
      List.nodup_cons] at hnodup
    obtain ⟨⟨-, hbelow⟩, hrest, hdisjoint⟩ := hnodup
    rcases List.mem_cons.mp h with heq | h
    · cases heq
      refine ⟨List.lookup_cons_self, ?_⟩
      have hcons : (Prod.fst ∘ fun x : List String × FileTree => (n :: x.1, x.2)) =
          (n :: ·) ∘ Prod.fst := rfl
      rw [hcons, ← List.map_map] at hbelow
      exact List.Nodup.of_map _ hbelow
    · -- its way stands among the others, so this is no other entry of that name
      have hmem : [n] ∈ (descendantsOf es).map Prod.fst :=
        List.mem_map.mpr ⟨([n], t), mem_descendantsOf_iff.mpr ⟨(n, t), h, .inl rfl⟩, rfl⟩
      have hne : n ≠ m := fun heq =>
        hdisjoint [m] List.mem_cons_self [n] hmem (by rw [heq])
      rw [List.lookup_cons, beq_false_of_ne hne]
      exact ih hrest h

theorem at?_of_mem_descendants (hnodup : (t.descendants.map Prod.fst).Nodup)
    (h : (way, u) ∈ t.descendants) : t.at? way = some u := by
  induction way generalizing t with
  | nil => exact absurd rfl (ne_nil_of_mem_descendants h)
  | cons n way ih =>
    cases t with
    | directory es =>
      obtain ⟨⟨m, v⟩, he, heq⟩ := mem_descendantsOf_iff.mp h
      -- the names of descendants differ, so that the entry is the one that its name finds
      obtain ⟨hlookup, hbelow⟩ := lookup_of_nodup hnodup he
      rcases heq with heq | ⟨⟨rest, w⟩, hy, heq⟩
      · cases heq
        rw [at?, child?, hlookup]
        rfl
      · cases heq
        rw [at?, child?, hlookup]
        exact ih hbelow hy
    | file _ => cases h
    | sealed => cases h
    | link _ => cases h

/-- What stands below in a tree is what names lead to. -/
theorem Proper.mem_descendants_iff (h : t.Proper) :
    (way, u) ∈ t.descendants ↔ way ≠ [] ∧ t.at? way = some u :=
  ⟨fun hmem => ⟨ne_nil_of_mem_descendants hmem, at?_of_mem_descendants h.nodup hmem⟩,
    fun ⟨hne, hat⟩ => (Disk.mem_descendants hat).resolve_left hne⟩

/-- A name finds an entry of the list. -/
theorem mem_of_lookup (h : es.lookup n = some t) : (n, t) ∈ es := by
  obtain ⟨before, after, rfl, -⟩ := List.lookup_eq_some_iff.mp h
  simp

/-- Entries of a proper directory are proper. -/
theorem Proper.child (h : (directory es).Proper) (he : (n, t) ∈ es) : t.Proper := by
  refine ⟨fun x hx m hm => ?_, (lookup_of_nodup h.nodup he).2⟩
  have hbelow : (n :: x.1, x.2) ∈ (directory es).descendants :=
    mem_descendantsOf_iff.mpr ⟨(n, t), he, .inr ⟨x, hx, rfl⟩⟩
  exact h.isName _ hbelow m (List.mem_cons_of_mem n hm)

/-- What stands in a proper tree is one. -/
theorem Proper.of_at? (h : t.Proper) (hat : t.at? way = some u) : u.Proper := by
  induction way generalizing t with
  | nil => rwa [← Option.some.inj hat]
  | cons n way ih =>
    rw [at?] at hat
    obtain ⟨v, hchild, hv⟩ := Option.bind_eq_some_iff.mp hat
    cases t with
    | directory es => exact ih (h.child (mem_of_lookup hchild)) hv
    | file _ => cases hchild
    | sealed => cases hchild
    | link _ => cases hchild

/-- Below a proper directory all names are names of files. -/
theorem Proper.isName_of_at? (h : t.Proper) (hat : t.at? way = some u) : ∀ n ∈ way, IsName n := by
  rcases Disk.mem_descendants hat with rfl | hmem
  · simp
  · exact h.isName _ hmem

end FileTree

/-! ### Nothing to leave out -/

namespace Walk

/-- Rules that say nothing. -/
structure Rules.Silent (r : Rules) : Prop where
  ignore : r.ignore = []
  gitIgnore : r.gitIgnore = []
  gitExclude : r.gitExclude = []

/-- Names that begin with a dot are hidden. -/
def isHidden (name : String) : Bool :=
  name.toList.head? == some '.'

variable {policy : IgnorePolicy} {stations : List Station} {d : Disk}

/-- Without rules of a kind nobody gives a verdict. -/
theorem verdictAmong?_eq_none {kind : Rules → List IgnoreRule}
    (h : ∀ s ∈ stations, kind s.rules = []) (name : String) (isDirectory : Bool) :
    verdictAmong? kind stations name isDirectory = none := by
  rw [verdictAmong?, List.findSome?_eq_none_iff]
  intro s hs
  rw [h s hs]
  rfl

theorem gitStations_subset : gitStations policy stations ⊆ stations := by
  intro s hs
  cases policy with
  | none => exact hs
  | everywhere => exact hs
  | repository =>
    rw [gitStations, List.span_eq_takeWhile_dropWhile] at hs
    -- the stations up to the root of a repository, and that root
    have hcut :=
      @List.takeWhile_append_dropWhile _ (fun s : Station => !s.rules.isRepository) stations
    dsimp only at hs
    cases habove : stations.dropWhile (fun s => !s.rules.isRepository) with
    | nil =>
      rw [habove] at hs
      cases hs
    | cons root above =>
      rw [habove] at hs hcut
      rw [← hcut]
      rcases List.mem_append.mp hs with hs | hs
      · exact List.mem_append_left _ hs
      · rw [List.mem_singleton.mp hs]
        exact List.mem_append_right _ List.mem_cons_self

/-- Without rules it is the name alone that counts. -/
theorem skips_eq (h : ∀ s ∈ stations, s.rules.Silent) (name : String) (isDirectory : Bool) :
    skips policy stations name isDirectory = isHidden name := by
  have hgit : ∀ s ∈ gitStations policy stations, s.rules.Silent := fun s hs =>
    h s (gitStations_subset hs)
  have hnone : verdict? policy stations name isDirectory = none := by
    rw [verdict?, verdictAmong?_eq_none fun s hs => (h s hs).ignore,
      verdictAmong?_eq_none fun s hs => (hgit s hs).gitIgnore,
      verdictAmong?_eq_none fun s hs => (hgit s hs).gitExclude]
    rfl
  rw [skips, hnone]
  rfl

end Walk

namespace Disk

variable {d : Disk}

theorem isFile_of_read {p : Path} {bytes : ByteArray} (h : d.read p = .ok bytes) : d.isFile p := by
  rw [read] at h
  rw [isFile, node?]
  cases hlocate : d.locate p with
  | error _ =>
    rw [hlocate] at h
    cases h
  | ok names =>
    simp only [hlocate, bind, Except.bind] at h
    dsimp only
    -- something can be read only from a file, be it sealed or not
    cases hat : d.tree.at? names with
    | none => simp [hat, throw, throwThe, MonadExceptOf.throw] at h
    | some t =>
      rw [hat] at h
      cases t with
      | file _ => rfl
      | sealed => rfl
      | link _ => cases h
      | directory _ => cases h

/-- No file of a disk says what a walk is to leave out. -/
structure Unignored (d : Disk) : Prop where
  noIgnore : ∀ dir ∈ d.places, ¬ d.isFile (dir.join ".ignore")
  noGitIgnore : ∀ dir ∈ d.places, ¬ d.isFile (dir.join ".gitignore")
  noExclude : ∀ dir ∈ d.places, ∀ common ∈ Walk.commonDirectory? d dir,
    ¬ d.isFile (common.join "info/exclude")

instance (d : Disk) : Decidable d.Unignored :=
  decidable_of_iff ((∀ dir ∈ d.places, ¬ d.isFile (dir.join ".ignore")) ∧
    (∀ dir ∈ d.places, ¬ d.isFile (dir.join ".gitignore")) ∧
    ∀ dir ∈ d.places, ∀ common ∈ Walk.commonDirectory? d dir,
      ¬ d.isFile (common.join "info/exclude"))
    ⟨fun ⟨hignore, hgit, hexclude⟩ => ⟨hignore, hgit, hexclude⟩,
      fun h => ⟨h.noIgnore, h.noGitIgnore, h.noExclude⟩⟩

/-- An ignore file that is not there has no rules. -/
theorem ofFile_eq_nil {file : Path} (h : ¬ d.isFile file) : Walk.Rules.ofFile d file = [] := by
  rw [Walk.Rules.ofFile]
  cases hread : d.read file with
  | ok bytes => exact absurd (isFile_of_read hread) h
  | error _ => rfl

theorem Unignored.silent (h : d.Unignored) {policy : IgnorePolicy} {dir : Path}
    (hdir : dir ∈ d.places) : (Walk.Rules.ofDirectory d policy dir).Silent := by
  have hignore := ofFile_eq_nil (h.noIgnore dir hdir)
  have hgit := ofFile_eq_nil (h.noGitIgnore dir hdir)
  cases policy with
  | none => exact ⟨rfl, rfl, rfl⟩
  | everywhere => exact ⟨hignore, hgit, rfl⟩
  | repository =>
    -- in a repository the exclude file counts as well
    refine ⟨hignore, hgit, ?_⟩
    rw [Walk.Rules.ofDirectory]
    dsimp only
    cases hcommon : Walk.commonDirectory? d dir with
    | none => rfl
    | some common => exact ofFile_eq_nil (h.noExclude dir hdir common hcommon)

end Disk

/-! ### What is found -/

namespace Walk

/-- A way that a walk goes: not too far, and through no hidden name. -/
def Within (depth : Option Nat) (way : List String) : Prop :=
  (∀ k ∈ depth, way.length ≤ k) ∧ ∀ n ∈ way, ¬ isHidden n

instance (depth : Option Nat) (way : List String) : Decidable (Within depth way) :=
  inferInstanceAs (Decidable (_ ∧ _))

/-- A way that is one step longer stays within a depth when the first step is not hidden and the
rest is within one less. -/
theorem within_cons {depth : Option Nat} (hdepth : depth ≠ some 0) {n : String}
    {way : List String} :
    Within depth (n :: way) ↔ ¬ isHidden n ∧ Within (depth.map (· - 1)) way := by
  cases depth with
  | none => simp [Within]
  | some k =>
    have hk : k ≠ 0 := fun heq => hdepth (by rw [heq])
    -- one step of the way takes one from the depth
    have hlength : (n :: way).length ≤ k ↔ way.length ≤ k - 1 := by
      rw [List.length_cons]
      omega
    simp [Within, ← hlength]
    tauto

/-- A place from which a walk goes on. -/
structure Ground (d : Disk) (policy : IgnorePolicy) (names : List String) : Prop where
  isName : ∀ n ∈ names, IsName n
  silent : (Rules.ofDirectory d policy (Disk.pathOf names)).Silent

/-- What stands below a place, as a walk finds it. -/
def foundAt (names : List String) (x : List String × FileTree) : Found :=
  { path := Disk.pathOf (names ++ x.1), node := x.2 }

/-- Of an entry and what stands below it nothing is found if its name is hidden. Otherwise the name
stands in front of every way, which takes one step of the depth. -/
theorem map_filter_entry {depth : Option Nat} (hdepth : depth ≠ some 0) (names : List String)
    (n : String) (t : FileTree) :
    ((([n], t) :: t.descendants.map fun x => (n :: x.1, x.2)).filter (Within depth ·.1)).map
        (foundAt names) =
      if isHidden n then []
      else foundAt names ([n], t) ::
        (t.descendants.filter (Within (depth.map (· - 1)) ·.1)).map (foundAt (names ++ [n])) := by
  by_cases hhidden : isHidden n
  · -- the hidden name begins every way
    rw [if_pos hhidden, List.map_eq_nil_iff, List.filter_eq_nil_iff]
    intro x hx
    have hfirst : ∃ way, x.1 = n :: way := by
      rcases List.mem_cons.mp hx with rfl | hx
      · exact ⟨[], rfl⟩
      · obtain ⟨y, -, rfl⟩ := List.mem_map.mp hx
        exact ⟨y.1, rfl⟩
    obtain ⟨way, hway⟩ := hfirst
    rw [hway, decide_eq_true_eq, within_cons hdepth]
    exact fun hwithin => hwithin.1 hhidden
  · have hself : Within depth [n] := (within_cons hdepth).mpr ⟨hhidden, by simp [Within]⟩
    have hfound : foundAt names ∘ (fun x : List String × FileTree => (n :: x.1, x.2)) =
        foundAt (names ++ [n]) := by
      funext x
      rw [Function.comp_apply, foundAt, foundAt, List.append_assoc]
      rfl
    have hfilter : (fun x : List String × FileTree => decide (Within depth x.1)) ∘
        (fun x : List String × FileTree => (n :: x.1, x.2)) =
          fun x => decide (Within (depth.map (· - 1)) x.1) := by
      funext x
      simp [within_cons hdepth, hhidden]
    rw [if_neg hhidden, List.filter_cons, if_pos (decide_eq_true hself), List.map_cons,
      List.filter_map, hfilter, List.map_map, hfound]

variable {d : Disk} {policy : IgnorePolicy}

/-- There is nothing below a file. -/
theorem below_of_not_isDirectory {stations : List Station} {dir : Path} {depth : Option Nat}
    {t : FileTree} (h : ¬ t.isDirectory) : below d policy stations dir depth t = [] := by
  unfold below
  split
  · rfl
  · exact absurd rfl h
  · rfl

/-! The recursion is that of the walk: on the tree, and within a directory on its entries. What the
rules of the stations say is the same at every step, which is nothing. -/

mutual

/-- Where nothing is ignored, a walk finds the descendants that are not hidden and not too deep, in
the order of the tree. -/
theorem below_eq (t : FileTree) {names : List String} {stations : List Station}
    (depth : Option Nat) (hstations : ∀ s ∈ stations, s.rules.Silent)
    (hground : Ground d policy names)
    (hbelow : ∀ x ∈ t.descendants, Ground d policy (names ++ x.1)) :
    below d policy stations (Disk.pathOf names) depth t =
      (t.descendants.filter (Within depth ·.1)).map (foundAt names) := by
  by_cases hdepth : depth = some 0
  · -- whatever stands below is too far
    have hfar : t.descendants.filter (Within depth ·.1) = [] := by
      rw [List.filter_eq_nil_iff]
      intro x hx hwithin
      have hlength := (of_decide_eq_true hwithin).1 0 hdepth
      exact FileTree.ne_nil_of_mem_descendants hx (List.eq_nil_of_length_eq_zero (by omega))
    rw [hfar, hdepth, below]
    rfl
  · match t with
    | .directory es =>
      rw [below]
      · refine among_eq es hdepth ?_ hground hbelow
        intro s hs
        rcases List.mem_cons.mp hs with rfl | hs
        · exact hground.silent
        · exact hstations s hs
      · exact hdepth
    | .file _ => exact below_of_not_isDirectory Bool.false_ne_true
    | .sealed => exact below_of_not_isDirectory Bool.false_ne_true
    | .link _ => exact below_of_not_isDirectory Bool.false_ne_true

/-- A walk over the entries of a directory finds what stands below each of them within the depth. -/
theorem among_eq (es : List (String × FileTree)) {names : List String} {stations : List Station}
    {depth : Option Nat} (hdepth : depth ≠ some 0) (hstations : ∀ s ∈ stations, s.rules.Silent)
    (hground : Ground d policy names)
    (hbelow : ∀ x ∈ FileTree.descendantsOf es, Ground d policy (names ++ x.1)) :
    among d policy stations (Disk.pathOf names) (depth.map (· - 1)) es =
      ((FileTree.descendantsOf es).filter (Within depth ·.1)).map (foundAt names) := by
  match es with
  | [] => rfl
  | (n, t) :: es =>
    rw [FileTree.descendantsOf] at hbelow ⊢
    have hrest := among_eq es hdepth hstations hground fun x hx =>
      hbelow x (List.mem_append_right _ hx)
    have hn : Ground d policy (names ++ [n]) := hbelow ([n], t) (by simp)
    have hinner : ∀ x ∈ t.descendants, Ground d policy (names ++ [n] ++ x.1) := by
      intro x hx
      rw [List.append_assoc]
      refine hbelow (n :: x.1, x.2) (List.mem_append_left _ (List.mem_cons_of_mem _ ?_))
      exact List.mem_map.mpr ⟨x, hx, rfl⟩
    have hpath : (Disk.pathOf names).join n = Disk.pathOf (names ++ [n]) :=
      (Disk.pathOf_append hground.isName (hn.isName n (by simp))).symm
    rw [among, skips_eq hstations, List.filter_append, List.map_append, ← hrest,
      map_filter_entry hdepth, hpath]
    dsimp only
    -- on the way the stations keep their rules, and only the names from them get more
    rw [below_eq t _ (by simpa using hstations) hn hinner]
    split
    · rfl
    · rfl

end

end Walk

namespace Disk

variable {d : Disk} {names : List String} {es : List (String × FileTree)} {t : FileTree}

/-- A directory that names lead to is found at their path as what it is. -/
theorem entry?_pathOf (hnames : ∀ n ∈ names, IsName n)
    (hat : d.tree.at? names = some (.directory es)) :
    d.entry? (pathOf names) = some (.directory es) := by
  have hlink : ∀ target, FileTree.directory es ≠ .link target := fun _ => FileTree.noConfusion
  rcases List.eq_nil_or_concat' names with rfl | ⟨init, n, rfl⟩
  · -- the root has nothing above it
    unfold entry?
    have hparent : (pathOf []).parent? = none := by decide
    rw [hparent]
    exact node?_pathOf hnames hat (fun _ => rfl) hlink
  · -- elsewhere it is the child of the directory above
    have hn : IsName n := hnames n (by simp)
    have hinit : ∀ m ∈ init, IsName m := fun m hm => hnames m (List.mem_append_left _ hm)
    obtain ⟨above, habove⟩ := exists_directory_above hat
    have hnode := node?_pathOf hinit habove (fun _ => rfl) fun _ => FileTree.noConfusion
    have hlast : (steps (pathOf (init ++ [n])).text).getLast? = some n := by
      rw [steps_pathOf hnames (by simp), List.getLast?_concat]
    have hempty : (pathOf init).text.isEmpty = false := by simp [pathOf]
    have hchild : (FileTree.directory above).child? n = some (.directory es) := by
      rw [at?_append, habove, Option.bind_some, FileTree.at?] at hat
      obtain ⟨u, hchild, hu⟩ := Option.bind_eq_some_iff.mp hat
      rw [hchild]
      exact hu
    unfold entry?
    rw [hlast, parent?_pathOf hnames]
    simp only [hn.ne_here, hn.ne_up, or_self, if_false, hempty, Bool.false_eq_true, hnode,
      Option.bind_some, hchild]

/-- The directories above have no rules either. -/
theorem silent_of_mem_stationsAbove (h : d.Unignored) {policy : IgnorePolicy}
    (hat : (d.tree.at? names).isSome) :
    ∀ s ∈ Walk.stationsAbove d policy names, s.rules.Silent := by
  intro s hs
  obtain ⟨k, -, rfl⟩ := List.mem_map.mp hs
  refine h.silent (?_ : pathOf (names.take k) ∈ d.places)
  rw [← List.take_append_drop k names, at?_append] at hat
  cases habove : d.tree.at? (names.take k) with
  | none => simp [habove] at hat
  | some t => exact pathOf_mem_places habove

/-- **Walks.** Without ignore files a walk finds the directory where it starts, and what stands
below it in the tree: all that is not too deep and has no hidden name on the way. -/
theorem walk_eq (hproper : d.tree.Proper) (h : d.Unignored) (policy : IgnorePolicy)
    (depth : Option Nat) (hat : d.tree.at? names = some (.directory es)) :
    d.walk policy depth (pathOf names) =
      Walk.foundAt names ([], .directory es) ::
        ((FileTree.descendantsOf es).filter (Walk.Within depth ·.1)).map (Walk.foundAt names) := by
  have hnames := hproper.isName_of_at? hat
  -- the path leads to the directory, without links on the way
  have hlocate : d.locate (pathOf names) = .ok names :=
    locate_pathOf hnames hat (fun _ => rfl) fun _ => FileTree.noConfusion
  have hground : Walk.Ground d policy names := ⟨hnames, h.silent (pathOf_mem_places hat)⟩
  -- what stands below is a place, where no rules are
  have hbelow : ∀ x ∈ FileTree.descendantsOf es, Walk.Ground d policy (names ++ x.1) := by
    intro x hx
    have hsome : d.tree.at? (names ++ x.1) = some x.2 := by
      rw [at?_append, hat]
      exact ((hproper.of_at? hat).mem_descendants_iff.mp hx).2
    exact ⟨hproper.isName_of_at? hsome, h.silent (pathOf_mem_places hsome)⟩
  have hstations : ∀ s ∈ Walk.stationsAbove d policy names, s.rules.Silent :=
    silent_of_mem_stationsAbove h (by rw [hat]; rfl)
  rw [walk, hlocate]
  dsimp only
  rw [hat, entry?_pathOf hnames hat]
  dsimp only
  rw [Walk.below_eq (.directory es) depth hstations hground hbelow]
  simp only [Walk.foundAt, List.append_nil, FileTree.descendants]

end Disk

end ImportAtlas
