import ImportAtlas.Proofs.Files.Place
import ImportAtlas.Proofs.Resolve
import ImportAtlas.Proofs.Source.JavaScript.Specifier

/-!
# Relative imports between two files

In JavaScript a file can import every other file by the path that leads there from its own
directory: `./` and the names down to the file, or a `../` for each step up and then the names. Such
an import names that file and no other, whatever aliases and packages the project has.

* `wayTo`, `relativeSpecifier` — the steps up from a directory and the names down to a file, and how
  they are written;
* `specifierRecord_relative` — the depth of the specifier is one more than its steps up, and its
  segments are the names;
* `resolve_relative` — what it names is the file.
-/

namespace ImportAtlas

/-- The number of steps up from a directory and the names down from there that lead to a file. -/
def wayTo : (dir file : List String) → Nat × List String
  | d :: dir, n :: file => if d = n then wayTo dir file else (dir.length + 1, n :: file)
  | dir, file => (dir.length, file)

/-- How steps up are written, the directory of the importing file being none. -/
def upText : Nat → String
  | 0 => "./"
  | k + 1 => "../" ++ String.join (List.replicate k "../")

/-- The specifier by which a file is imported from a directory. -/
def relativeSpecifier (dir file : List String) : String :=
  upText (wayTo dir file).1 ++ "/".intercalate (wayTo dir file).2

/-- A file of a disk. -/
structure DiskFile (d : Disk) where
  dir : List String
  name : String
  content : FileTree
  isName : ∀ n ∈ dir ++ [name], IsName n
  found : d.tree.at? (dir ++ [name]) = some content
  isFile : content.isFile

namespace DiskFile

variable {d : Disk}

/-- The names that lead from the root to the file. -/
def names (f : DiskFile d) : List String :=
  f.dir ++ [f.name]

/-- The path of the file. -/
def path (f : DiskFile d) : Path :=
  Disk.pathOf f.names

theorem names_ne_nil (f : DiskFile d) : f.names ≠ [] :=
  List.append_ne_nil_of_right_ne_nil _ (List.cons_ne_nil _ _)

/-- A file that is no link is known by its path. -/
theorem canonical_path (f : DiskFile d) : d.canonical f.path = f.path := by
  refine Disk.canonical_pathOf f.isName f.found (absurd · f.names_ne_nil) ?_
  rintro target hlink
  have hfile := f.isFile
  rw [hlink] at hfile
  cases hfile

end DiskFile

open Disk

variable {names dir file : List String}

/-! ### The way -/

/-- Directory and file have a directory in common, from which the steps and the names are
counted. -/
theorem exists_common (dir file : List String) :
    ∃ common below, dir = common ++ below ∧ file = common ++ (wayTo dir file).2 ∧
      below.length = (wayTo dir file).1 := by
  fun_induction wayTo dir file with
  | case1 dir n file ih =>
    obtain ⟨common, below, hdir, hfile, hlength⟩ := ih
    exact ⟨n :: common, below, congrArg (n :: ·) hdir, congrArg (n :: ·) hfile, hlength⟩
  | case2 d dir n file => exact ⟨[], d :: dir, rfl, rfl, rfl⟩
  | case3 dir file => exact ⟨[], dir, rfl, rfl, rfl⟩

/-- A file has nothing below it, so it does not lie on the way to another one. -/
theorem not_prefix_of_isFile {tree t u : FileTree} {more : List String}
    (ht : tree.at? names = some t) (hfile : t.isFile)
    (hu : tree.at? (names ++ more) = some u) : more = [] := by
  cases more with
  | nil => rfl
  | cons m more =>
    rw [at?_append, ht] at hu
    cases t <;> first | cases hu | cases hfile

/-! ### Reading the specifier -/

/-- A path ends with its last name. -/
theorem exists_intercalate_eq (init : List String) (n : String) :
    ∃ front, "/".intercalate (init ++ [n]) = front ++ n := by
  by_cases hinit : init = []
  · exact ⟨"", by rw [hinit, List.nil_append, String.intercalate_singleton, String.empty_append]⟩
  · exact ⟨_, intercalate_concat hinit n⟩

namespace Source.JavaScript

/-- Names do not begin with a step up. -/
theorem stepsUp_names (hnames : ∀ n ∈ names, IsName n) (hne : names ≠ []) (depth : Nat) :
    stepsUp depth ("/".intercalate names).toList = (depth, ("/".intercalate names).toList) := by
  obtain ⟨n, rest, rfl⟩ := List.exists_cons_of_ne_nil hne
  exact stepsUp_of_cut (cutAt_intercalate hnames hne)
    (fun heq => (hnames n List.mem_cons_self).ne_up (String.toList_inj.mp heq)) depth

/-- The depth of a specifier counts the directory of the importing file and the steps up. -/
theorem specifierRecord_upText (k : Nat) {t : List Char}
    (htrim : Text.trimEnd ((upText k).toList ++ t) = (upText k).toList ++ t) :
    specifierRecord ((upText k).toList ++ t) = recordOf (stepsUp (k + 1) t) := by
  cases k with
  | zero => exact specifierRecord_here htrim
  | succ k =>
    have hups : upText (k + 1) = String.join (List.replicate (k + 1) "../") := by
      rw [upText, List.replicate_succ, String.join_cons]
    -- the text begins with a dot, so there is nothing to drop in front of it
    have htext : Text.trim ((upText (k + 1)).toList ++ t) =
        Text.trimEnd ((upText (k + 1)).toList ++ t) := by
      rw [upText, String.toList_append]
      rfl
    rw [← htext] at htrim
    rw [hups] at htrim ⊢
    exact specifierRecord_ups htrim

/-- **The specifier** of a file is read as the steps up and the names down to it. -/
theorem specifierRecord_relative {init : List String} {n : String}
    (hway : (wayTo dir file).2 = init ++ [n]) (hnames : ∀ m ∈ init ++ [n], IsName m)
    (hlast : Text.trimEnd n.toList = n.toList) :
    specifierRecord (relativeSpecifier dir file).toList =
      { path := init ++ [n], depth := (wayTo dir file).1 + 1 } := by
  have hne : init ++ [n] ≠ [] := by simp
  -- the specifier ends with a name, so there are no blanks to drop
  have htrim : ∀ k, Text.trimEnd ((upText k).toList ++ ("/".intercalate (init ++ [n])).toList) =
      (upText k).toList ++ ("/".intercalate (init ++ [n])).toList := by
    intro k
    obtain ⟨front, hfront⟩ := exists_intercalate_eq init n
    have hsome : Text.trimEnd n.toList ≠ [] := by
      rw [hlast]
      exact (hnames n (by simp)).toList_ne_nil
    rw [hfront, String.toList_append, ← List.append_assoc,
      Text.trimEnd_append_of_ne_nil hsome, hlast]
  rw [relativeSpecifier, hway, String.toList_append, specifierRecord_upText _ (htrim _),
    stepsUp_names hnames hne]
  exact recordOf_of_cut (cutAt_intercalate hnames hne)
    (fun m hm => ⟨(hnames m hm).ne_empty, (hnames m hm).ne_here⟩) _

end Source.JavaScript

/-! ### Following it -/

namespace Resolver

/-- Steps up from a directory lead to the one that has so many names fewer. -/
theorem up?_pathOf (common below : List String) (hnames : ∀ n ∈ common ++ below, IsName n) :
    up? below.length (pathOf (common ++ below)) = some (pathOf common) := by
  induction below using List.reverseRecOn with
  | nil => rw [List.append_nil, List.length_nil, up?]
  | append_singleton below m ih =>
    rw [← List.append_assoc] at hnames ⊢
    rw [List.length_append, List.length_singleton, up?, parent?_pathOf hnames, Option.bind_some]
    exact ih fun n hn => hnames n (List.mem_append_left _ hn)

/-- Names below a directory make the path of both. -/
theorem pathBelow_pathOf (common names : List String) (hnames : ∀ n ∈ common ++ names, IsName n) :
    pathBelow (pathOf common) names = pathOf (common ++ names) := by
  induction names using List.reverseRecOn with
  | nil => rw [List.append_nil]; rfl
  | append_singleton names m ih =>
    rw [← List.append_assoc] at hnames ⊢
    have hinit : ∀ n ∈ common ++ names, IsName n := fun n hn => hnames n (List.mem_append_left _ hn)
    rw [pathOf_append hinit (hnames m (by simp)), ← ih hinit, pathBelow, List.foldl_append]
    rfl

/-- A file itself comes before all other files that its path may stand for. -/
theorem lookup?_of_isFile {r : Resolver} {p : Path} (h : r.disk.isFile p) :
    r.lookup? p = some p := by
  rw [lookup?, candidates, List.cons_append, List.find?_cons_of_pos h]

/-- The way from the directory of a file to another file ends with the name of that file. -/
theorem exists_wayTo_eq {d : Disk} (a b : DiskFile d) :
    ∃ init, (wayTo a.dir b.names).2 = init ++ [b.name] := by
  obtain ⟨common, below, hdir, hfile, -⟩ := exists_common a.dir b.names
  rcases List.eq_nil_or_concat' (wayTo a.dir b.names).2 with hnil | ⟨init, last, hconcat⟩
  · -- otherwise the file would be a directory on the way down to the other one
    rw [hnil, List.append_nil] at hfile
    obtain ⟨es, hes⟩ := exists_directory_above a.found
    have hbfound : d.tree.at? common = some b.content := hfile ▸ b.found
    rw [hdir] at hes
    obtain rfl := not_prefix_of_isFile hbfound b.isFile hes
    rw [List.append_nil, hbfound] at hes
    have hcontent := b.isFile
    rw [Option.some.inj hes] at hcontent
    cases hcontent
  · rw [hconcat, ← List.append_assoc] at hfile
    have hlast : b.name = last := (List.append_inj' hfile rfl).2 |> List.singleton_injective
    exact ⟨init, by rw [hconcat, hlast]⟩

/-- What a file is named by from a directory that is on its way. -/
theorem find?_below {r : Resolver} (hjs : r.language = .javaScript) (b : DiskFile r.disk)
    {common names : List String} (hnames : b.names = common ++ names) :
    r.find? (pathOf common) names = some (b.path, names.length) := by
  -- a specifier names a file, so only its whole length is tried
  have hlengths : r.lengths names = [names.length] := by
    rw [lengths, hjs]
    rfl
  have hpath : pathBelow (pathOf common) names = b.path := by
    rw [pathBelow_pathOf common names (hnames ▸ b.isName), ← hnames]
    rfl
  have hfile : r.disk.isFile b.path := isFile_pathOf b.isName b.names_ne_nil b.found b.isFile
  rw [find?, hlengths, List.findSome?_cons, List.take_length, hpath, lookup?_of_isFile hfile]
  rfl

/-- **Relative imports.** The specifier that leads from the directory of one file to another one
names that file, whatever the settings of the project. -/
theorem resolve_relative (d : Disk) (p : Project) (a b : DiskFile d)
    (hblank : Text.trimEnd b.name.toList = b.name.toList) :
    (ofProject d .javaScript p).resolve
        (Source.JavaScript.specifierRecord (relativeSpecifier a.dir b.names).toList) a.path =
      .ok (some b.path) := by
  obtain ⟨common, below, hdir, hfile, hups⟩ := exists_common a.dir b.names
  obtain ⟨init, hway⟩ := exists_wayTo_eq a b
  rw [hway] at hfile
  have hnames : ∀ n ∈ init ++ [b.name], IsName n := fun n hn =>
    b.isName n (by rw [← DiskFile.names, hfile]; exact List.mem_append_right common hn)
  have hdirNames : ∀ n ∈ common ++ below, IsName n := fun n hn =>
    a.isName n (List.mem_append_left _ (hdir ▸ hn))
  -- the search begins in the directory that both have in common, and the file lies below it
  have hup : up? (wayTo a.dir b.names).1 (Language.javaScript.moduleDir a.path) =
      some (pathOf common) := by
    have hparent : a.path.parent? = some (pathOf a.dir) := parent?_pathOf a.isName
    change up? _ (a.path.parent?.getD ⟨""⟩) = _
    rw [hparent, Option.getD_some, ← hups, hdir, up?_pathOf common below hdirNames]
  have hstart : (ofProject d .javaScript p).start
      { path := init ++ [b.name], depth := (wayTo a.dir b.names).1 + 1 } a.path =
        .below (pathOf common) (init ++ [b.name]) := by
    have hlanguage : (ofProject d .javaScript p).language = .javaScript := rfl
    rw [start]
    dsimp only
    rw [hlanguage, hup]
  rw [Source.JavaScript.specifierRecord_relative hway hnames hblank, resolve, hstart]
  simp only [find?_below (r := ofProject d .javaScript p) rfl b hfile, lt_irrefl, false_and,
    if_false]
  exact congrArg (Except.ok ∘ some) b.canonical_path

/-- Two files of the same name in two directories, and a file that imports one of them. -/
def twoDirectories : Disk :=
  { tree := .directory [("src", .directory
      [("app", .directory
          [("main.ts", .file "import \"../lib/util.ts\";".toUTF8), ("util.ts", .sealed)]),
        ("lib", .directory [("util.ts", .file "export default 1;".toUTF8)])])] }

/-- The importing file. -/
def mainFile : DiskFile twoDirectories where
  dir := ["src", "app"]
  name := "main.ts"
  content := .file "import \"../lib/util.ts\";".toUTF8
  isName := by decide
  found := rfl
  isFile := rfl

/-- The file that it imports. -/
def libraryFile : DiskFile twoDirectories where
  dir := ["src", "lib"]
  name := "util.ts"
  content := .file "export default 1;".toUTF8
  isName := by decide
  found := rfl
  isFile := rfl

/-- A step up leads past the file of the same name, and past an alias for `..`. -/
theorem resolve_relative_of_two :
    let p : Project :=
      { root := ⟨"/"⟩, aliases := [("..", ⟨"src/app"⟩)], followAliases := true }
    Text.trimEnd libraryFile.name.toList = libraryFile.name.toList ∧
      relativeSpecifier mainFile.dir libraryFile.names = "../lib/util.ts" ∧
      (ofProject twoDirectories .javaScript p).resolve
        (Source.JavaScript.specifierRecord "../lib/util.ts".toList) ⟨"/src/app/main.ts"⟩ =
      .ok (some ⟨"/src/lib/util.ts"⟩) := by
  intro p
  have hblank : Text.trimEnd libraryFile.name.toList = libraryFile.name.toList := by decide
  have hspecifier : relativeSpecifier mainFile.dir libraryFile.names = "../lib/util.ts" := by
    decide +kernel
  refine ⟨hblank, hspecifier, ?_⟩
  have hresolve := resolve_relative twoDirectories p mainFile libraryFile hblank
  rw [hspecifier] at hresolve
  exact hresolve

end Resolver

end ImportAtlas
