import ImportAtlas.Session
import ImportAtlas.Proofs.Build.Excluded
import ImportAtlas.Proofs.Exclude

/-!
# What a session leaves out

The patterns of the command line are joined to the working directory before they are read. A `./` in
front of one stands in the middle of the text by then.

* `Session.start_eq_ok`, `Session.start_insert` — a session starts when there are settings and all
  its patterns can be read;
* `Session.start_here` — a pattern with a `./` in front starts a session whenever the one without
  does, and leaves out nothing;
* `Session.left_out_without_here` — a file that only one of the two spellings leaves out.
-/

namespace ImportAtlas

open CommandLine (GlobalOptions)
open Exclusion (IsFront IsRelative)

namespace CommandLine.GlobalOptions

/-- The options with other patterns of files to leave out. -/
def excluding (o : GlobalOptions) (patterns : List String) : GlobalOptions :=
  { o with exclude := patterns }

/-- The settings that the options change: those of the file that is given or found. -/
def settings (o : GlobalOptions) (d : Disk) (root : Path) : Except Fault Config :=
  match o.config with
  | some file => Config.load d (d.cwdPath.join file)
  | none => (Config.loadNear d root).map (·.getD {})

/-- The options come on top of the settings that are found. -/
theorem configIn_eq (o : GlobalOptions) (d : Disk) (root : Path) :
    o.configIn d root = (o.settings d root).map (o.apply d.cwdPath) := by
  rw [configIn, settings]
  cases o.config with
  | none => cases Config.loadNear d root <;> rfl
  | some file => cases Config.load d (d.cwdPath.join file) <;> rfl

/-- The text of a directory, with a slash behind it. -/
def front (cwd : Path) : String :=
  (cwd.join "").text

/-- A relative pattern is read behind the working directory. -/
theorem excludePattern_eq {cwd : Path} {pattern : String}
    (habsolute : pattern.toList.head? ≠ some '/') (hdeep : ¬ ['*', '*'] <+: pattern.toList) :
    excludePattern cwd pattern = front cwd ++ pattern := by
  have hprefix : ¬ "**".isPrefixOf pattern := fun h => hdeep (String.startsWith_string_iff.mp h)
  rw [excludePattern, if_neg hprefix, front, ← String.empty_append (s := pattern),
    Path.join_append cwd "" habsolute, String.empty_append]

theorem isFront_cwd {d : Disk} (h : ∃ g, Glob.parse true (front d.cwdPath) = .ok g) :
    IsFront (front d.cwdPath) where
  not_dot := by
    rw [front, Path.join]
    simp only [String.toList_empty, List.head?_nil, reduceCtorEq, if_false]
    -- there is a slash at the end already, or one is put there
    split <;> simp [Disk.cwdPath, Disk.pathOf]
  slash := by
    have hempty : d.cwdPath.text.isEmpty = false := by simp [Disk.cwdPath, Disk.pathOf]
    rw [front, Path.join, hempty, Bool.false_or]
    simp only [String.toList_empty, List.head?_nil, reduceCtorEq, if_false, beq_iff_eq]
    split
    · next hlast => rwa [String.append_empty]
    · simp
  isPattern := h

end CommandLine.GlobalOptions

namespace Session

open CommandLine.GlobalOptions (excludePattern front)

variable {d : Disk} {o : GlobalOptions} {entry : Option String} {s : Session}

/-- Whether a session leaves a file out. -/
def excludes (s : Session) (p : Path) : Bool :=
  s.project.exclusion.toOption.any (·.excludes p)

/-- The session of some settings. -/
def ofSettings (d : Disk) (o : GlobalOptions) (entry : Option String) (c : Config) : Session :=
  { disk := d, options := o, config := o.apply d.cwdPath c
    project := (o.apply d.cwdPath c).project d (o.rootIn d entry) }

/-- The patterns of the command line change nothing else of the project. -/
theorem project_ofSettings (c : Config) (patterns : List String) :
    (ofSettings d (o.excluding patterns) entry c).project =
      { (ofSettings d o entry c).project with
        excludePatterns := c.exclude ++ patterns.map (excludePattern d.cwdPath) } :=
  rfl

/-- The patterns of the command line come behind those of the settings. -/
theorem exclusion_excluding (c : Config) (before rest : List String) :
    (ofSettings d (o.excluding (before ++ rest)) entry c).project.exclusion =
      Exclusion.ofPatterns (o.rootIn d entry)
        (c.exclude ++ before.map (excludePattern d.cwdPath) ++
          rest.map (excludePattern d.cwdPath)) := by
  rw [List.append_assoc, ← List.map_append]
  rfl

/-- A session starts when there are settings and all patterns can be read. -/
theorem start_eq_ok : start d o entry = .ok s ↔ ∃ c e, o.settings d (o.rootIn d entry) = .ok c ∧
    (ofSettings d o entry c).project.exclusion = .ok e ∧ s = ofSettings d o entry c := by
  rw [start, o.configIn_eq]
  cases hc : o.settings d (o.rootIn d entry) with
  | error f => simp [bind, Except.bind, Except.map]
  | ok c =>
    change Except.bind (ofSettings d o entry c).project.exclusion _ = _ ↔ _
    cases he : (ofSettings d o entry c).project.exclusion with
    | error f => simp [Except.bind, he]
    | ok e =>
      constructor
      · intro h
        cases h
        exact ⟨c, e, rfl, he, rfl⟩
      · -- the settings are those that have been read
        rintro ⟨c', e', hc', -, rfl⟩
        rw [Except.ok.inj hc']
        rfl

/-! ### One pattern more -/

section Insert

variable {before after : List String} {pattern : String} {c : Config} {gs hs : List Glob}

/-- The settings of a session and its patterns on both sides of one more. -/
structure Around (d : Disk) (o : GlobalOptions) (entry : Option String)
    (before after : List String) (c : Config) (gs hs : List Glob) : Prop where
  settings : o.settings d (o.rootIn d entry) = .ok c
  before : (c.exclude ++ before.map (excludePattern d.cwdPath)).map Exclusion.compile = gs.map .ok
  after : (after.map (excludePattern d.cwdPath)).map Exclusion.compile = hs.map .ok

/-- Without the pattern the exclusion has the globs of the others. -/
theorem Around.exclusion (h : Around d o entry before after c gs hs) :
    (ofSettings d (o.excluding (before ++ after)) entry c).project.exclusion =
      .ok ⟨o.rootIn d entry, gs ++ hs⟩ := by
  rw [exclusion_excluding]
  exact Exclusion.ofPatterns_append.mpr ⟨gs, hs, rfl, h.before, h.after⟩

/-- With it there is its glob among them. -/
theorem Around.exclusion_insert (h : Around d o entry before after c gs hs) {g : Glob}
    (hg : Exclusion.compile (excludePattern d.cwdPath pattern) = .ok g) :
    (ofSettings d (o.excluding (before ++ pattern :: after)) entry c).project.exclusion =
      .ok ⟨o.rootIn d entry, gs ++ g :: hs⟩ := by
  rw [exclusion_excluding]
  exact Exclusion.ofPatterns_insert.mpr ⟨gs, g, hs, rfl, h.before, hg, h.after⟩

/-- A session with one pattern more: that pattern can be read, and so can the others. -/
theorem start_insert : start d (o.excluding (before ++ pattern :: after)) entry = .ok s ↔
    ∃ c gs g hs, Around d o entry before after c gs hs ∧
      Exclusion.compile (excludePattern d.cwdPath pattern) = .ok g ∧
      s = ofSettings d (o.excluding (before ++ pattern :: after)) entry c := by
  rw [start_eq_ok]
  constructor
  · rintro ⟨c, e, hc, he, rfl⟩
    rw [exclusion_excluding] at he
    obtain ⟨gs, g, hs, -, hgs, hg, hhs⟩ := Exclusion.ofPatterns_insert.mp he
    exact ⟨c, gs, g, hs, ⟨hc, hgs, hhs⟩, hg, rfl⟩
  · rintro ⟨c, gs, g, hs, h, hg, rfl⟩
    exact ⟨c, _, h.settings, h.exclusion_insert hg, rfl⟩

/-- So the session starts. -/
theorem Around.start_eq (h : Around d o entry before after c gs hs) :
    start d (o.excluding (before ++ after)) entry =
      .ok (ofSettings d (o.excluding (before ++ after)) entry c) :=
  start_eq_ok.mpr ⟨c, _, h.settings, h.exclusion, rfl⟩

/-- One pattern more leaves out what it leaves out alone. -/
theorem Around.excludes_insert (h : Around d o entry before after c gs hs) {g : Glob}
    (hg : Exclusion.compile (excludePattern d.cwdPath pattern) = .ok g) (p : Path) :
    (ofSettings d (o.excluding (before ++ pattern :: after)) entry c).excludes p =
      ((ofSettings d (o.excluding (before ++ after)) entry c).excludes p ||
        (⟨o.rootIn d entry, [g]⟩ : Exclusion).excludes p) := by
  rw [excludes, excludes, h.exclusion, h.exclusion_insert hg]
  exact Exclusion.excludes_insert ..

/-- When one pattern more leaves out no module, the graphs are the same. -/
theorem Around.build_insert (h : Around d o entry before after c gs hs) {g : Glob}
    (hg : Exclusion.compile (excludePattern d.cwdPath pattern) = .ok g)
    (hnone : ∀ p, (⟨o.rootIn d entry, [g]⟩ : Exclusion).excludes (d.canonical p) = false)
    (generatedAt : String) (args : List String) :
    (ofSettings d (o.excluding (before ++ pattern :: after)) entry c).build generatedAt args =
      (ofSettings d (o.excluding (before ++ after)) entry c).build generatedAt args := by
  -- the exclusion is the only thing that the patterns reach
  have hbuild (s : Session) : s.build generatedAt args =
      (Entries.expand s.disk s.options.noIgnore args).bind fun files =>
        (Language.infer s.project.skipConditional files).bind fun language =>
          (Builder.ofProject s.disk language s.project).bind fun b =>
            b.build {} generatedAt files := rfl
  have hlonger := h.exclusion_insert hg
  have hshorter := h.exclusion
  rw [project_ofSettings] at hlonger hshorter
  rw [hbuild, hbuild, project_ofSettings, project_ofSettings]
  refine congrArg (Except.bind (Entries.expand d o.noIgnore args)) (funext fun files => ?_)
  refine congrArg (Except.bind (Language.infer _ files)) (funext fun language => ?_)
  obtain ⟨b, hb, hb', he, hd⟩ := Builder.exists_ofProject language hshorter hlonger
  change (Builder.ofProject d language _).bind _ = (Builder.ofProject d language _).bind _
  rw [hb, hb']
  -- the glob of the pattern excludes nothing, so both exclusions agree
  refine Builder.build_congr (fun p => ?_) {} generatedAt files
  rw [he, hd, Exclusion.excludes_insert, hnone, Bool.or_false]

end Insert

/-- **A `./` in front.** In the settings it makes no difference. On the command line the pattern can
still be read whenever it can be read without it, but it leaves out no module: the session leaves
out what it would leave out without the pattern, and builds the same graphs. -/
theorem start_here (hcwd : ∀ n ∈ d.cwd, IsName n)
    (hfront : ∃ g, Glob.parse true (front d.cwdPath) = .ok g) {pattern : String}
    (hpattern : IsRelative pattern) (o : GlobalOptions) (entry : Option String)
    (before after : List String) :
    let run (flags : List String) := start d (o.excluding (before ++ (flags ++ after))) entry
    (∀ root xs ys e, Exclusion.ofPatterns root (xs ++ ("./" ++ pattern) :: ys) = .ok e ↔
        Exclusion.ofPatterns root (xs ++ pattern :: ys) = .ok e) ∧
      ((∃ s, run ["./" ++ pattern] = .ok s) ↔ ∃ s, run [pattern] = .ok s) ∧
      ∀ s, run ["./" ++ pattern] = .ok s →
        ∃ s₀ s₁ g, run [] = .ok s₀ ∧ run [pattern] = .ok s₁ ∧
          Exclusion.compile (front d.cwdPath ++ pattern) = .ok g ∧
          (∀ p, s.excludes (d.canonical p) = s₀.excludes (d.canonical p)) ∧
          (∀ p, s₁.excludes (d.canonical p) = (s₀.excludes (d.canonical p) ||
            (⟨s₀.project.root, [g]⟩ : Exclusion).excludes (d.canonical p))) ∧
          ∀ generatedAt args, s.build generatedAt args = s₀.build generatedAt args := by
  intro run
  have hisFront := GlobalOptions.isFront_cwd hfront
  have hdeep : ¬ ['*', '*'] <+: ("./" ++ pattern).toList := by
    rw [String.toList_append]
    intro h
    obtain ⟨t, ht⟩ := h
    cases ht
  -- with the dot before it the pattern is still joined to the working directory as it stands
  have hhere : excludePattern d.cwdPath ("./" ++ pattern) = front d.cwdPath ++ ("./" ++ pattern) :=
    GlobalOptions.excludePattern_eq (by simp) hdeep
  have hplain : excludePattern d.cwdPath pattern = front d.cwdPath ++ pattern :=
    GlobalOptions.excludePattern_eq hpattern.not_absolute hpattern.not_deep
  have hcompile := hisFront.exists_compile_here hpattern.not_deep
  refine ⟨fun _ _ _ _ => Exclusion.ofPatterns_here, ⟨?_, ?_⟩, ?_⟩
  · -- a pattern can be compiled exactly if it can be without the dot
    rintro ⟨s, hstart⟩
    obtain ⟨c, gs, g, hs, haround, hg, -⟩ := start_insert.mp hstart
    obtain ⟨g', hg'⟩ := hcompile.mp ⟨g, hhere ▸ hg⟩
    exact ⟨_, start_insert.mpr ⟨c, gs, g', hs, haround, hplain ▸ hg', rfl⟩⟩
  · rintro ⟨s, hstart⟩
    obtain ⟨c, gs, g, hs, haround, hg, -⟩ := start_insert.mp hstart
    obtain ⟨g', hg'⟩ := hcompile.mpr ⟨g, hplain ▸ hg⟩
    exact ⟨_, start_insert.mpr ⟨c, gs, g', hs, haround, hhere ▸ hg', rfl⟩⟩
  · intro s hstart
    obtain ⟨c, gs, g, hs, haround, hg, rfl⟩ := start_insert.mp hstart
    obtain ⟨g', hg'⟩ := hcompile.mp ⟨g, hhere ▸ hg⟩
    -- a canonical path has no segment that is a dot, so the pattern matches none
    have hnone (p : Path) :
        (⟨o.rootIn d entry, [g]⟩ : Exclusion).excludes (d.canonical p) = false :=
      Exclusion.excludes_singleton_of_plain (Disk.plain_canonical hcwd p) fun q hq =>
        hisFront.not_matchesInSet hpattern.not_deep (hhere ▸ hg) hq
    refine ⟨_, _, g', haround.start_eq, start_insert.mpr ⟨c, gs, g', hs, haround, ?_, rfl⟩, hg',
      fun p => ?_, fun p => ?_, fun generatedAt args => ?_⟩
    · rw [hplain, hg']
    · exact (haround.excludes_insert hg (d.canonical p)).trans
        ((congrArg _ (hnone p)).trans (Bool.or_false _))
    · exact haround.excludes_insert (hplain ▸ hg') (d.canonical p)
    · exact haround.build_insert hg hnone generatedAt args

/-- A project of two files. The working directory is the one that they are in. -/
def twoFiles : Disk :=
  { tree := .directory [("p", .directory
      [("a.js", .file "import './b.js';".toUTF8), ("b.js", .file "".toUTF8)])]
    cwd := ["p"] }

/-- The root is where one is. -/
def twoFilesOptions : GlobalOptions :=
  { root := some "." }

theorem rootIn_twoFiles : twoFilesOptions.rootIn twoFiles none = ⟨"/p"⟩ := by
  decide +kernel

/-- There are no settings in the project, so that it depends on the pattern alone. -/
theorem start_twoFiles (pattern read : String) {e : Exclusion}
    (hread : excludePattern twoFiles.cwdPath pattern = read)
    (he : Exclusion.ofPatterns ⟨"/p"⟩ [read] = .ok e) :
    start twoFiles (twoFilesOptions.excluding [pattern]) none =
      .ok (ofSettings twoFiles (twoFilesOptions.excluding [pattern]) none {}) := by
  have hsettings : twoFilesOptions.settings twoFiles (twoFilesOptions.rootIn twoFiles none) =
      .ok {} := rfl
  refine start_eq_ok.mpr ⟨{}, e, hsettings, ?_, rfl⟩
  rw [← he, ← hread, ← rootIn_twoFiles]
  exact exclusion_excluding {} [] [pattern]

/-- A pattern with `./` in front can be started with, and leaves in what is left in without it. The
file is one that `*.js` would leave out. -/
theorem start_here_of_two :
    ∃ s s₀, start twoFiles (twoFilesOptions.excluding ["./*.js"]) none = .ok s ∧
      start twoFiles (twoFilesOptions.excluding []) none = .ok s₀ ∧
      s.excludes (twoFiles.canonical ⟨"/p/b.js"⟩) =
        s₀.excludes (twoFiles.canonical ⟨"/p/b.js"⟩) := by
  have hfront : ∃ g, Glob.parse true (front twoFiles.cwdPath) = .ok g := ⟨_, rfl⟩
  have hpattern : IsRelative "*.js" := ⟨by decide, by decide, by decide⟩
  have h := start_here (by decide) hfront hpattern twoFilesOptions none [] []
  obtain ⟨s, hs⟩ := h.2.1.mpr ⟨_, start_twoFiles "*.js" "/p/*.js" (by decide +kernel) rfl⟩
  obtain ⟨s₀, -, -, hs₀, -, -, hexcludes, -⟩ := h.2.2 s hs
  exact ⟨s, s₀, hs, hs₀, hexcludes _⟩

/-- A file that is left out without the `./` only. In the settings it would be left out with it. -/
theorem left_out_without_here :
    let file := twoFiles.canonical ⟨"/p/b.js"⟩
    IsRelative "b.js" ∧
      (∃ s, start twoFiles (twoFilesOptions.excluding ["b.js"]) none = .ok s ∧ s.excludes file) ∧
      (∃ s, start twoFiles (twoFilesOptions.excluding ["./b.js"]) none = .ok s ∧
        ¬ s.excludes file) ∧
      ∃ e, Exclusion.ofPatterns ⟨"/p"⟩ ["./b.js"] = .ok e ∧ e.excludes file := by
  intro file
  have hplain := start_twoFiles "b.js" "/p/b.js" (by decide +kernel) rfl
  have hhere := start_twoFiles "./b.js" "/p/./b.js" (by decide +kernel) rfl
  have hsettings : Exclusion.ofPatterns ⟨"/p"⟩ ["./b.js"] = .ok _ := rfl
  exact ⟨⟨by decide, by decide, by decide⟩, ⟨_, hplain, by decide +kernel⟩,
    ⟨_, hhere, by decide +kernel⟩, ⟨_, hsettings, by decide +kernel⟩⟩

end Session

end ImportAtlas
