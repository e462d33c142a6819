import ImportAtlas.Files.Disk
import ImportAtlas.Proofs.Path.Normal
import Mathlib.Data.List.Induction

/-!
# The paths of modules

A module is known by one path only, and a tree has finitely many files.

* `Disk.normal_canonical` — the path that a module is known by is normal, so two modules whose paths
  are the same are one (`Path.Normal.eq_of_same`);
* `Disk.canonical_mem_places` — if there is a file to read at such a path, it is one of the places
  of the tree.

Both rest on what looking up a path gives: names that can stand between two slashes, and that lead
to something in the tree (`Located`). Every link on the way starts the search anew, so the statement
is proved for a search that may be begun at any directory, and then by the number of links.
-/

namespace ImportAtlas

open ImportAtlas.Path

/-! ### Names -/

/-- A text that can be the name of a file. -/
structure IsName (s : String) : Prop where
  isPiece : IsPiece s
  ne_empty : s ≠ ""
  ne_here : s ≠ "."
  ne_up : s ≠ ".."

instance (s : String) : Decidable (IsName s) :=
  have : Decidable (IsPiece s) := inferInstanceAs (Decidable (∀ c ∈ s.toList, ¬ (c == '/') = true))
  decidable_of_iff (IsPiece s ∧ s ≠ "" ∧ s ≠ "." ∧ s ≠ "..")
    ⟨fun ⟨hpiece, hempty, hhere, hup⟩ => ⟨hpiece, hempty, hhere, hup⟩,
      fun h => ⟨h.isPiece, h.ne_empty, h.ne_here, h.ne_up⟩⟩

theorem IsName.toList_ne_nil {s : String} (h : IsName s) : s.toList ≠ [] :=
  fun heq => h.ne_empty (String.toList_eq_nil_iff.mp heq)

theorem IsName.toList_ne_here {s : String} (h : IsName s) : s.toList ≠ ['.'] :=
  fun heq => h.ne_here (String.toList_inj.mp heq)

/-- A name is a component behind the root: it is neither empty nor one of the two dots. -/
theorem IsName.inner {s : String} (h : IsName s) : Inner (.name s) := by
  refine ⟨h.isPiece, ?_⟩
  have hup : s.toList ≠ ['.', '.'] := fun heq => h.ne_up (String.toList_inj.mp heq)
  simp only [Component.text, Component.ofSegment?, h.toList_ne_nil, h.toList_ne_here, hup,
    or_self, if_false, String.ofList_toList]

namespace Disk

/-- One name more is put behind a slash. -/
theorem intercalate_concat {names : List String} (hne : names ≠ []) (n : String) :
    "/".intercalate (names ++ [n]) = "/".intercalate names ++ "/" ++ n := by
  rw [String.intercalate_append_of_ne_nil hne (List.cons_ne_nil n []),
    String.intercalate_singleton]

/-- The path of a name and those before it ends with that name. -/
theorem exists_pathOf_eq (init : List String) (m : String) :
    ∃ front, (pathOf (init ++ [m])).text = front ++ m := by
  by_cases hinit : init = []
  · refine ⟨"/", ?_⟩
    rw [hinit, List.nil_append, pathOf, String.intercalate_singleton]
  · refine ⟨"/" ++ ("/".intercalate init ++ "/"), ?_⟩
    simp only [pathOf, intercalate_concat hinit, String.append_assoc]

/-- A text that ends with a name does not end with a slash. -/
theorem getLast?_append_name (front : String) {s : String} (h : IsName s) :
    (front ++ s).toList.getLast? ≠ some '/' := by
  intro hlast
  rw [String.toList_append, List.getLast?_append_of_ne_nil _ h.toList_ne_nil] at hlast
  exact h.isPiece '/' (List.mem_of_getLast? hlast) rfl

/-- A name more is a step more. -/
theorem pathOf_append {names : List String} (hnames : ∀ n ∈ names, IsName n) {n : String}
    (hn : IsName n) : pathOf (names ++ [n]) = (pathOf names).join n := by
  have hempty : (pathOf names).text.isEmpty = false := by simp [pathOf]
  rw [join, if_neg hn.isPiece.head?_ne, hempty, Bool.false_or]
  rcases List.eq_nil_or_concat' names with rfl | ⟨init, m, rfl⟩
  · simp [pathOf]
  · -- behind the last name there is no slash yet, so joining writes one
    obtain ⟨front, hfront⟩ := exists_pathOf_eq init m
    have hslash : (pathOf (init ++ [m])).text.toList.getLast? ≠ some '/' := by
      rw [hfront]
      exact getLast?_append_name front (hnames m (by simp))
    rw [if_neg (by simpa using hslash)]
    simp only [pathOf, intercalate_concat (List.append_ne_nil_of_right_ne_nil init
      (List.cons_ne_nil m [])), String.append_assoc]

/-- The path of names is written as its steps spell it. -/
theorem pathOf_eq {names : List String} (hnames : ∀ n ∈ names, IsName n) :
    pathOf names = ofComponents (.root :: names.map .name) := by
  induction names using List.reverseRecOn with
  | nil => decide
  | append_singleton names n ih =>
    have hinit : ∀ m ∈ names, IsName m := fun m hm => hnames m (List.mem_append_left _ hm)
    have hn : IsName n := hnames n (by simp)
    rw [pathOf_append hinit hn, ih hinit, List.map_append, ← List.cons_append]
    simp only [ofComponents, List.foldl_append, List.map_cons, List.map_nil, List.foldl_cons,
      List.foldl_nil, Component.text]

/-- The root and some names are the components of a path. -/
theorem lawful_names {names : List String} (hnames : ∀ n ∈ names, IsName n) :
    Lawful (.root :: names.map .name) := by
  refine .cons (.inl rfl) ?_
  intro c hc
  obtain ⟨n, hn, rfl⟩ := List.mem_map.mp hc
  exact (hnames n hn).inner

/-- They are those of the path that is spelled by the names. -/
theorem components_pathOf {names : List String} (hnames : ∀ n ∈ names, IsName n) :
    (pathOf names).components = .root :: names.map .name := by
  rw [pathOf_eq hnames, components_ofComponents (lawful_names hnames)]

/-- Such a path is normal. -/
theorem normal_pathOf {names : List String} (hnames : ∀ n ∈ names, IsName n) :
    Normal (pathOf names) := by
  rw [pathOf_eq hnames]
  exact normal_ofComponents (lawful_names hnames)

/-! ### Looking up -/

/-- A text that can be followed as a step: a name, `.` or `..`. -/
structure IsStep (s : String) : Prop where
  isPiece : IsPiece s
  ne_empty : s ≠ ""

/-- A path is located by steps that are names or dots. -/
theorem isStep_of_mem_steps {text s : String} (hs : s ∈ steps text) : IsStep s := by
  rw [steps] at hs
  rcases List.mem_append.mp hs with hs | hs
  · obtain ⟨t, ht, rfl⟩ := List.mem_map.mp hs
    obtain ⟨htmem, hne⟩ := List.mem_filter.mp ht
    have hpiece := Text.not_sep_of_mem_cutAt t htmem
    refine ⟨by simpa [IsPiece] using hpiece, fun heq => ?_⟩
    have hnil : t = [] := by simpa using congrArg String.toList heq
    simp [hnil] at hne
  · -- the `.` behind a slash at the end
    split at hs
    · rw [List.mem_singleton.mp hs]
      exact ⟨by simp [IsPiece], by decide⟩
    · exact absurd hs List.not_mem_nil

/-- A text is always at least one step: what ends with a slash has `.` as its last. -/
theorem steps_ne_nil (text : String) : steps text ≠ [] := by
  intro hnil
  rw [steps, List.append_eq_nil_iff, List.map_eq_nil_iff, List.filter_eq_nil_iff] at hnil
  -- if no segment counts the last one is empty, but then there is a `.`
  obtain ⟨hnone, hlast⟩ := hnil
  have hne : Text.cutAt (· == '/') text.toList ≠ [] := Text.cutAt_ne_nil _
  have hmem := List.getLast_mem hne
  have hempty : (Text.cutAt (· == '/') text.toList).getLast hne = [] := by
    simpa using hnone _ hmem
  rw [List.getLast?_eq_some_getLast hne, hempty, if_pos rfl] at hlast
  exact absurd hlast (by simp)

/-- Names that lead to something in a tree. -/
structure Located (tree : FileTree) (names : List String) : Prop where
  isName : ∀ n ∈ names, IsName n
  found : (tree.at? names).isSome

/-- What some names lead to below what others lead to. -/
theorem at?_append (tree : FileTree) (names more : List String) :
    tree.at? (names ++ more) = (tree.at? names).bind (·.at? more) := by
  induction names generalizing tree with
  | nil => rfl
  | cons n names ih =>
    rw [List.cons_append, FileTree.at?, FileTree.at?]
    cases tree.child? n with
    | none => rfl
    | some t => exact ih t

/-- What lies above something in a tree lies there too. -/
theorem Located.dropLast {tree : FileTree} {names : List String} (h : Located tree names) :
    Located tree names.dropLast := by
  refine ⟨fun n hn => h.isName n (List.dropLast_subset _ hn), ?_⟩
  rcases List.eq_nil_or_concat' names with rfl | ⟨init, n, rfl⟩
  · exact h.found
  · have hfound := h.found
    rw [at?_append] at hfound
    rw [List.dropLast_concat]
    cases htree : tree.at? init with
    | none => simp [htree] at hfound
    | some t => rfl

/-- Following steps leads to something in the tree, if links do. Before the first step it is enough
that there is one, since then it is looked whether the directory is there. -/
theorem located_followWith {tree : FileTree}
    {again : List String → List String → Except ReadFault (List String)}
    (hagain : ∀ done steps names, (∀ n ∈ done, IsName n) → (∀ s ∈ steps, IsStep s) → steps ≠ [] →
      again done steps = .ok names → Located tree names)
    {done steps names : List String} (hdone : ∀ n ∈ done, IsName n)
    (hsteps : ∀ s ∈ steps, IsStep s) (hfound : (tree.at? done).isSome ∨ steps ≠ [])
    (h : followWith tree again done steps = .ok names) : Located tree names := by
  induction steps generalizing done with
  | nil =>
    rw [followWith] at h
    cases h
    exact ⟨hdone, hfound.resolve_right fun hne => hne rfl⟩
  | cons s rest ih =>
    obtain ⟨hs, hrest⟩ := List.forall_mem_cons.mp hsteps
    rw [followWith] at h
    split at h
    · next es hdir =>
      have hhere : Located tree done := ⟨hdone, by rw [hdir]; rfl⟩
      split at h
      · -- a `.` stays where it is
        exact ih hdone hrest (.inl hhere.found) h
      · next hdot =>
        split at h
        · -- a `..` leads to the directory above
          exact ih hhere.dropLast.isName hrest (.inl hhere.dropLast.found) h
        · next hdots =>
          split at h
          · cases h
          · -- a link: the search starts anew, with all that is still to go
            next target hlink =>
            refine hagain _ _ _ ?_ ?_ ?_ h
            · split
              · simp
              · exact hdone
            · intro t ht
              rcases List.mem_append.mp ht with ht | ht
              · exact isStep_of_mem_steps ht
              · exact hrest t ht
            · exact List.append_ne_nil_of_left_ne_nil (steps_ne_nil target) rest
          · next entry hentry hlookup =>
            -- a name of the directory: it is a name since it is none of the other steps
            have hname : IsName s := ⟨hs.isPiece, hs.ne_empty, hdot, hdots⟩
            refine ih ?_ hrest (.inl ?_) h
            · intro n hn
              rcases List.mem_append.mp hn with hn | hn
              · exact hdone n hn
              · rwa [List.mem_singleton.mp hn]
            · simp [at?_append, hdir, FileTree.at?, FileTree.child?, hlookup]
    · cases h

/-- **Looking up.** The induction is on the number of links that may be followed. -/
theorem located_follow {tree : FileTree} {k : Nat} {done steps names : List String}
    (hdone : ∀ n ∈ done, IsName n) (hsteps : ∀ s ∈ steps, IsStep s) (hne : steps ≠ [])
    (h : follow tree k done steps = .ok names) : Located tree names := by
  induction k generalizing done steps names with
  | zero =>
    refine located_followWith ?_ hdone hsteps (.inr hne) h
    intro _ _ _ _ _ _ hnever
    cases hnever
  | succ k ih =>
    refine located_followWith ?_ hdone hsteps (.inr hne) h
    intro _ _ _ hdone hsteps hne hok
    exact ih hdone hsteps hne hok

variable {d : Disk}

/-- What a path is located at is a place of the tree, with names that lead there. -/
theorem located_locate (hcwd : ∀ n ∈ d.cwd, IsName n) {p : Path} {names : List String}
    (h : d.locate p = .ok names) : Located d.tree names := by
  unfold locate at h
  split at h
  · cases h
  · refine located_follow ?_ (fun s => isStep_of_mem_steps) (steps_ne_nil _) h
    split
    · simp
    · exact hcwd

/-! ### The path of a module -/

/-- Canonical paths are normal, whether the file exists or the path is only cleaned. -/
theorem normal_canonical (hcwd : ∀ n ∈ d.cwd, IsName n) (p : Path) : Normal (d.canonical p) := by
  unfold canonical
  split
  · next names hnames => exact normal_pathOf (located_locate hcwd hnames).isName
  · exact normal_clean p

/-- What stands below an entry stands below its directory. -/
theorem mem_descendantsOf {es : List (String × FileTree)} {n : String} {t : FileTree}
    (h : es.lookup n = some t) :
    ([n], t) ∈ FileTree.descendantsOf es ∧
      ∀ x ∈ t.descendants, (n :: x.1, x.2) ∈ FileTree.descendantsOf es := by
  induction es with
  | nil => cases h
  | cons e es ih =>
    obtain ⟨m, u⟩ := e
    rw [FileTree.descendantsOf]
    rw [List.lookup_cons] at h
    split at h
    · next hm =>
      -- the first entry of that name, with all that is below it
      obtain rfl : n = m := by simpa using hm
      cases h
      exact ⟨by simp, fun x hx => List.mem_append_left _ (List.mem_cons_of_mem _
        (List.mem_map_of_mem (f := fun d => (n :: d.1, d.2)) hx))⟩
    · obtain ⟨hself, hbelow⟩ := ih h
      exact ⟨List.mem_append_right _ hself, fun x hx => List.mem_append_right _ (hbelow x hx)⟩

/-- What names lead to in a tree is the tree itself or stands below it. -/
theorem mem_descendants {tree t : FileTree} {names : List String} (h : tree.at? names = some t) :
    names = [] ∨ (names, t) ∈ tree.descendants := by
  induction names generalizing tree with
  | nil => exact .inl rfl
  | cons n names ih =>
    right
    match tree with
    | .file _ => cases h
    | .sealed => cases h
    | .link _ => cases h
    | .directory es =>
      rw [FileTree.at?, FileTree.child?] at h
      match hlookup : es.lookup n with
      | none => simp [hlookup] at h
      | some u =>
        rw [hlookup, Option.bind_some] at h
        -- the first name leads to an entry, and the others on from there
        obtain ⟨hself, hbelow⟩ := mem_descendantsOf hlookup
        rw [FileTree.descendants]
        rcases ih h with rfl | hmem
        · rw [FileTree.at?, Option.some.injEq] at h
          rwa [h] at hself
        · exact hbelow _ hmem

/-- The paths of all that a tree holds, itself included. -/
def places (d : Disk) : List Path :=
  pathOf [] :: d.tree.descendants.map fun x => pathOf x.1

/-- Whatever names lead to is one of the places of the disk. -/
theorem pathOf_mem_places {names : List String} {t : FileTree} (h : d.tree.at? names = some t) :
    pathOf names ∈ d.places := by
  rw [places]
  rcases mem_descendants h with rfl | hmem
  · exact List.mem_cons_self
  · exact List.mem_cons_of_mem _ (List.mem_map_of_mem (f := fun x => pathOf x.1) hmem)

/-- The path of a module that can be read is one of the places of the tree. -/
theorem canonical_mem_places (hcwd : ∀ n ∈ d.cwd, IsName n) {p : Path} {bytes : ByteArray}
    (h : d.read (d.canonical p) = .ok bytes) : d.canonical p ∈ d.places := by
  unfold canonical at h ⊢
  split at h
  · next names hnames =>
    obtain ⟨t, ht⟩ := Option.isSome_iff_exists.mp (located_locate hcwd hnames).found
    exact pathOf_mem_places ht
  · next fault hfault =>
    -- what is not found is not read either
    rw [read, hfault] at h
    cases h

end Disk

end ImportAtlas
