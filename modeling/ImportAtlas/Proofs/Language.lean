import ImportAtlas.Language
import Mathlib.Data.List.Induction

/-!
# The language of a list of files

No file is one of two languages, so the files of a language can be counted. The language of a list
is the one with most files, and of several with the same number `n` the one whose `n`-th file comes
first.

* `handles_unique`, `of?_eq_some_iff` — a file is one of at most one language;
* `filesOf`, `IsNth` — how many files a language has in a list, and where its `n`-th file stands;
* `Leads` — the rule by which a language wins;
* `Ahead` — what is known of the leader while the files are counted: when its last file came, no
  other language had as many. `Tracks.unsupported` and `Tracks.counted` carry it over one file, and
  `tracks_leader` over the list;
* `infer_eq_ok_iff_leads` — the answer is the language that leads.
-/

namespace ImportAtlas.Language

variable {skip : Bool} {l m : Language} {p f : Path} {files : List Path} {n i j : Nat}

/-! ### Files of a language -/

/-- No extension belongs to two languages. -/
theorem eq_of_mem_extensions (skip : Bool) :
    ∀ l ∈ all skip, ∀ m ∈ all skip, ∀ e ∈ l.extensions, e ∈ m.extensions → l = m := by
  cases skip <;> decide

/-- No file is one of two languages. -/
theorem handles_unique (hl : l ∈ all skip) (hm : m ∈ all skip) (h : l.handles p)
    (h' : m.handles p) : l = m := by
  obtain ⟨e, he, hle⟩ := (Option.any_eq_true ..).mp h
  obtain ⟨e', he', hme⟩ := (Option.any_eq_true ..).mp h'
  obtain rfl : e = e' := Option.some.inj (he.symm.trans he')
  exact eq_of_mem_extensions skip l hl m hm e (List.contains_iff_mem.mp hle)
    (List.contains_iff_mem.mp hme)

/-- The language of a file is the one that handles it: since there is only one, the order in which
they are tried does not matter. -/
theorem of?_eq_some_iff : of? skip p = some l ↔ l ∈ all skip ∧ l.handles p := by
  have hfound : ∀ {k}, of? skip p = some k → k ∈ all skip ∧ k.handles p := fun h =>
    ⟨List.mem_of_find?_eq_some h, List.find?_some (p := fun k : Language => k.handles p) h⟩
  refine ⟨hfound, fun ⟨hl, hp⟩ => ?_⟩
  cases hof : of? skip p with
  | none => exact absurd hp (List.find?_eq_none.mp hof l hl)
  | some k =>
    obtain ⟨hk, hkp⟩ := hfound hof
    rw [handles_unique hk hl hkp hp]

/-- A file without language is one that is not supported. -/
theorem of?_eq_none_iff : of? skip p = none ↔ supports p = false := by
  rw [of?, List.find?_eq_none, supports, List.any_eq_false]
  -- whether imports in blocks count has no part in whose file it is
  have hall : (all skip).map extensions = (all false).map extensions := rfl
  simp only [all, List.forall_mem_cons, List.not_mem_nil]
  exact Iff.rfl

/-- The number of files of a language in a list. -/
def filesOf (l : Language) (files : List Path) : Nat :=
  files.countP l.handles

/-- The files of a language, counted in two lists. -/
theorem filesOf_append (l : Language) (files more : List Path) :
    filesOf l (files ++ more) = filesOf l files + filesOf l more :=
  List.countP_append

/-- One more file of the language counts. -/
theorem filesOf_concat_of_handles (h : l.handles f) :
    filesOf l (files ++ [f]) = filesOf l files + 1 := by
  rw [filesOf_append, filesOf, filesOf, List.countP_singleton, if_pos h]

/-- A file of another one does not. -/
theorem filesOf_concat_of_not_handles (h : ¬ l.handles f) :
    filesOf l (files ++ [f]) = filesOf l files := by
  rw [filesOf_append, filesOf, filesOf, List.countP_singleton, if_neg h, Nat.add_zero]

theorem filesOf_pos_iff : 0 < filesOf l files ↔ ∃ f ∈ files, l.handles f :=
  List.countP_pos_iff

theorem filesOf_take_le (h : i ≤ j) : filesOf l (files.take i) ≤ filesOf l (files.take j) :=
  (List.take_prefix_take_left h).sublist.countP_le

/-- Files are counted by their languages. -/
theorem score_filterMap (hl : l ∈ all skip) (files : List Path) :
    score l (files.filterMap (of? skip)).reverse = filesOf l files := by
  rw [score, List.count_reverse, List.count_filterMap, filesOf]
  refine List.countP_congr fun p _ => ?_
  rw [beq_iff_eq, of?_eq_some_iff]
  exact and_iff_right hl

/-! ### The rule -/

/-- The `n`-th file of a language stands at a place of the list. -/
structure IsNth (l : Language) (n : Nat) (files : List Path) (i : Nat) : Prop where
  file : ∃ f, files[i]? = some f ∧ l.handles f
  before : filesOf l (files.take i) + 1 = n

/-- The language has most files, and the first of all with as many. -/
structure Leads (skip : Bool) (files : List Path) (l : Language) : Prop where
  mem : l ∈ all skip
  most : ∀ m ∈ all skip, filesOf m files ≤ filesOf l files
  first : ∃ i, IsNth l (filesOf l files) files i ∧
    ∀ m ∈ all skip, m ≠ l → filesOf m files = filesOf l files →
      ∀ j, IsNth m (filesOf l files) files j → i < j

namespace IsNth

/-- The n-th file of a language is one of the files. -/
theorem lt_length (h : IsNth l n files i) : i < files.length := by
  obtain ⟨f, hf, -⟩ := h.file
  exact (List.getElem?_eq_some_iff.mp hf).1

/-- Up to it there are n. -/
theorem filesOf_take_succ (h : IsNth l n files i) : filesOf l (files.take (i + 1)) = n := by
  obtain ⟨f, hf, hl⟩ := h.file
  rw [List.take_add_one, hf, Option.toList_some, filesOf_concat_of_handles hl, h.before]

/-- A place before which a language has fewer than `n` files is not behind its `n`-th one. -/
theorem le_of_lt (h : IsNth l n files j) (hi : filesOf l (files.take i) < n) : i ≤ j := by
  refine Nat.le_of_not_lt fun hlt => absurd hi (Nat.not_lt.mpr ?_)
  calc n = filesOf l (files.take (j + 1)) := h.filesOf_take_succ.symm
    _ ≤ filesOf l (files.take i) := filesOf_take_le hlt

/-- There is one n-th file. -/
theorem unique (hi : IsNth l n files i) (hj : IsNth l n files j) : i = j :=
  Nat.le_antisymm (hj.le_of_lt (hi.before ▸ Nat.lt_succ_self _))
    (hi.le_of_lt (hj.before ▸ Nat.lt_succ_self _))

/-- Files that come later do not change which one it is. -/
theorem append (h : IsNth l n files i) (more : List Path) : IsNth l n (files ++ more) i where
  file := by rw [List.getElem?_append_left h.lt_length]; exact h.file
  before := by rw [List.take_append_of_le_length (Nat.le_of_lt h.lt_length)]; exact h.before

/-- The last file is the n-th, if it is of the language and n - 1 came before. -/
theorem concat (h : l.handles f) : IsNth l (filesOf l files + 1) (files ++ [f]) files.length where
  file := ⟨f, by rw [List.getElem?_concat_length], h⟩
  before := by rw [List.take_left]

end IsNth

/-- There is a file that is the last one of a language. -/
theorem exists_isNth (h : 0 < filesOf l files) : ∃ i, IsNth l (filesOf l files) files i := by
  induction files using List.reverseRecOn with
  | nil => exact absurd h (Nat.lt_irrefl 0)
  | append_singleton files f ih =>
    by_cases hf : l.handles f
    · rw [filesOf_concat_of_handles hf]
      exact ⟨_, .concat hf⟩
    · rw [filesOf_concat_of_not_handles hf] at h ⊢
      obtain ⟨i, hi⟩ := ih h
      exact ⟨i, hi.append [f]⟩

/-- One language leads: of two with the same count one has its last file before the other. -/
theorem Leads.unique (hl : Leads skip files l) (hm : Leads skip files m) : l = m := by
  by_contra hne
  have hsame : filesOf l files = filesOf m files :=
    Nat.le_antisymm (hm.most l hl.mem) (hl.most m hm.mem)
  obtain ⟨i, hi, hfirst⟩ := hl.first
  obtain ⟨j, hj, hfirst'⟩ := hm.first
  have hij : i < j := hfirst m hm.mem (Ne.symm hne) hsame.symm j (hsame ▸ hj)
  have hji : j < i := hfirst' l hl.mem hne hsame i (hsame ▸ hi)
  exact absurd hij (Nat.lt_asymm hji)

/-- A language that leads has files. -/
theorem Leads.pos (hl : Leads skip files l) : 0 < filesOf l files := by
  obtain ⟨i, hi, -⟩ := hl.first
  exact hi.before ▸ Nat.succ_pos _

/-- More files of the language that leads keep it in front. -/
theorem Leads.append (hl : Leads skip files l) {more : List Path}
    (hmore : ∀ f ∈ more, l.handles f) : Leads skip (files ++ more) l := by
  have hother : ∀ m ∈ all skip, m ≠ l → filesOf m (files ++ more) = filesOf m files := by
    intro m hm hne
    have hnone : filesOf m more = 0 := List.countP_eq_zero.mpr fun f hf hmf =>
      hne (handles_unique hm hl.mem hmf (hmore f hf))
    rw [filesOf_append, hnone, Nat.add_zero]
  have hown : filesOf l (files ++ more) = filesOf l files + more.length := by
    rw [filesOf_append]
    exact congrArg _ (List.countP_eq_length.mpr hmore)
  refine ⟨hl.mem, fun m hm => ?_, ?_⟩
  · by_cases hne : m = l
    · exact Nat.le_of_eq (congrArg (filesOf · _) hne)
    · rw [hother m hm hne, hown]
      exact Nat.le_trans (hl.most m hm) (Nat.le_add_right ..)
  · by_cases hnil : more = []
    · subst hnil
      rw [List.append_nil]
      exact hl.first
    · have hpos : 0 < more.length := List.length_pos_iff.mpr hnil
      obtain ⟨i, hi⟩ := exists_isNth (hown ▸ Nat.add_pos_right _ hpos)
      refine ⟨i, hi, fun m hm hne heq => ?_⟩
      -- no other language has as many files as there are now
      have hle := hl.most m hm
      rw [hother m hm hne, hown] at heq
      omega

/-! ### Counting -/

/-- A language had `n` files before any other language, and none has more. -/
structure Ahead (skip : Bool) (files : List Path) (l : Language) (n : Nat) : Prop where
  mem : l ∈ all skip
  count : filesOf l files = n
  most : ∀ m ∈ all skip, filesOf m files ≤ n
  reached : ∃ i, IsNth l n files i ∧ ∀ m ∈ all skip, m ≠ l → filesOf m (files.take i) < n

/-- What the fold keeps is the language that leads. -/
theorem Ahead.leads (h : Ahead skip files l n) : Leads skip files l := by
  obtain ⟨hmem, rfl, hmost, k, hk, hbefore⟩ := h
  refine ⟨hmem, hmost, k, hk, fun m hm hne _ j hj => ?_⟩
  refine Nat.lt_of_le_of_ne (hj.le_of_lt (hbefore m hm hne)) ?_
  -- at one place there is a file of one language only
  rintro rfl
  obtain ⟨f, hf, hlf⟩ := hk.file
  obtain ⟨f', hf', hmf⟩ := hj.file
  obtain rfl : f = f' := Option.some.inj (hf.symm.trans hf')
  exact hne (handles_unique hm hmem hmf hlf)

/-- What is known of the leader among the files counted so far. -/
def Tracks (skip : Bool) (files : List Path) : Option (Language × Nat) → Prop
  | none => ∀ p ∈ files, of? skip p = none
  | some (l, n) => Ahead skip files l n

/-- The leader after a file of a language more; `count` is the number of its files then. -/
def overtake (l : Language) (count : Nat) : Option (Language × Nat) → Option (Language × Nat)
  | none => some (l, count)
  | some (m, best) => if best < count then some (l, count) else some (m, best)

/-- One step of the fold. -/
theorem leader_cons (before : List Language) (top : Option (Language × Nat)) (l : Language)
    (ls : List Language) :
    leader before top (l :: ls) =
      leader (l :: before) (overtake l (score l before + 1) top) ls := by
  cases top <;> rfl

variable {top : Option (Language × Nat)}

/-- A file that is not supported changes nothing. -/
theorem Tracks.unsupported (h : Tracks skip files top) (hf : of? skip f = none) :
    Tracks skip (files ++ [f]) top := by
  have hnot : ∀ m ∈ all skip, ¬ m.handles f := List.find?_eq_none.mp hf
  cases top with
  | none =>
    intro p hp
    -- so far no file was supported, and this one is not either
    rcases List.mem_append.mp hp with hp | hp
    · exact h p hp
    · rwa [List.mem_singleton.mp hp]
  | some lead =>
    obtain ⟨hmem, hcount, hmost, i, hi, hbefore⟩ := h
    refine ⟨hmem, ?_, fun m hm => ?_, i, hi.append [f], ?_⟩
    · -- no count changes
      rw [filesOf_concat_of_not_handles (hnot _ hmem), hcount]
    · rw [filesOf_concat_of_not_handles (hnot m hm)]
      exact hmost m hm
    · rwa [List.take_append_of_le_length (Nat.le_of_lt hi.lt_length)]

/-- A file of another language does not count. -/
theorem filesOf_concat_of_ne (hl : l ∈ all skip) (hlf : l.handles f) {m : Language}
    (hm : m ∈ all skip) (hne : m ≠ l) : filesOf m (files ++ [f]) = filesOf m files :=
  filesOf_concat_of_not_handles fun hmf => hne (handles_unique hm hl hmf hlf)

/-- A language that had as many files as any other is ahead with the next one. -/
theorem Ahead.overtakes (hl : l ∈ all skip) (hlf : l.handles f)
    (hmost : ∀ m ∈ all skip, filesOf m files ≤ filesOf l files) :
    Ahead skip (files ++ [f]) l (filesOf l files + 1) where
  mem := hl
  count := filesOf_concat_of_handles hlf
  most := by
    intro m hm
    -- the count of `l` is one more, the others stay
    by_cases hne : m = l
    · rw [hne]
      exact Nat.le_of_eq (filesOf_concat_of_handles hlf)
    · rw [filesOf_concat_of_ne hl hlf hm hne]
      exact Nat.le_succ_of_le (hmost m hm)
  reached := by
    refine ⟨_, .concat hlf, fun m hm _ => ?_⟩
    rw [List.take_left]
    exact Nat.lt_succ_of_le (hmost m hm)

/-- A file of a language that does not overtake the leader, which is another one, changes
nothing. -/
theorem Ahead.concat {k : Language} (h : Ahead skip files k n) (hl : l ∈ all skip)
    (hlf : l.handles f) (hle : filesOf l files + 1 ≤ n) : Ahead skip (files ++ [f]) k n := by
  obtain ⟨hmem, hcount, hmost, i, hi, hbefore⟩ := h
  have hne : k ≠ l := by
    rintro rfl
    omega
  refine ⟨hmem, (filesOf_concat_of_ne hl hlf hmem hne).trans hcount, fun m hm => ?_, i,
    hi.append [f], ?_⟩
  · -- the file counts for its own language only, which is still not ahead
    by_cases hml : m = l
    · rwa [hml, filesOf_concat_of_handles hlf]
    · rw [filesOf_concat_of_ne hl hlf hm hml]
      exact hmost m hm
  · rwa [List.take_append_of_le_length (Nat.le_of_lt hi.lt_length)]

/-- A language that overtakes the leader has one file more than it, so no other had as many. -/
theorem Tracks.counted (h : Tracks skip files top) (hf : of? skip f = some l) :
    Tracks skip (files ++ [f]) (overtake l (filesOf l files + 1) top) := by
  obtain ⟨hl, hlf⟩ := of?_eq_some_iff.mp hf
  cases top with
  | none =>
    -- it is the first supported file
    refine .overtakes hl hlf fun m hm => ?_
    have hnone : filesOf m files = 0 := List.countP_eq_zero.mpr fun p hp hmp =>
      List.find?_eq_none.mp (h p hp) m hm hmp
    rw [hnone]
    exact Nat.zero_le _
  | some lead =>
    obtain ⟨k, best⟩ := lead
    have hahead : Ahead skip files k best := h
    rw [overtake]
    split
    case isTrue hlt =>
      -- it has one more than the best before, so it was level with it
      exact .overtakes hl hlf fun m hm => Nat.le_trans (hahead.most m hm) (Nat.le_of_lt_succ hlt)
    case isFalse hnot => exact hahead.concat hl hlf (Nat.le_of_not_lt hnot)

/-- What is known of the leader is known of it after the remaining files as well. -/
theorem tracks_leader {done : List Path} (h : Tracks skip done top) (rest : List Path) :
    Tracks skip (done ++ rest)
      (leader (done.filterMap (of? skip)).reverse top (rest.filterMap (of? skip))) := by
  induction rest generalizing done top with
  | nil => rwa [List.append_nil]
  | cons f rest ih =>
    rw [List.append_cons]
    cases hf : of? skip f with
    | none =>
      -- the file is passed over by both lists
      have hnext := ih (h.unsupported hf)
      rw [List.filterMap_cons_none hf]
      rwa [List.filterMap_append, List.filterMap_cons_none hf, List.filterMap_nil,
        List.append_nil] at hnext
    | some l =>
      -- the score of its language is what the fold has counted so far
      have hnext := ih (h.counted hf)
      rw [List.filterMap_cons_some hf, leader_cons,
        score_filterMap (of?_eq_some_iff.mp hf).1]
      rwa [List.filterMap_append, List.filterMap_cons_some hf, List.filterMap_nil,
        List.reverse_append, List.reverse_singleton, List.singleton_append] at hnext

/-! ### The answer -/

/-- The errors aside, the answer is what the fold keeps. -/
theorem toOption_infer (skip : Bool) (files : List Path) :
    (infer skip files).toOption =
      (leader [] none (files.filterMap (of? skip))).map Prod.fst := by
  unfold infer
  split
  case h_1 heq => rw [heq]; rfl
  case h_2 heq => rw [heq]; cases files <;> rfl

/-- There is an answer when the fold keeps something. -/
theorem infer_eq_ok_iff :
    infer skip files = .ok l ↔
      ∃ n, leader [] none (files.filterMap (of? skip)) = some (l, n) := by
  have hoption : infer skip files = .ok l ↔ (infer skip files).toOption = some l := by
    cases infer skip files <;> simp [Except.toOption]
  rw [hoption, toOption_infer, Option.map_eq_some_iff]
  constructor
  · rintro ⟨⟨_, n⟩, hlead, rfl⟩
    exact ⟨n, hlead⟩
  · rintro ⟨n, hlead⟩
    exact ⟨(l, n), hlead, rfl⟩

/-- From an empty list on, the fold keeps track. -/
theorem tracks_infer (skip : Bool) (files : List Path) :
    Tracks skip files (leader [] none (files.filterMap (of? skip))) := by
  have hstart : Tracks skip [] none := fun _ hp => absurd hp List.not_mem_nil
  exact tracks_leader hstart files

/-- **The rule.** The language of a list is the one that leads in it. -/
theorem infer_eq_ok_iff_leads : infer skip files = .ok l ↔ Leads skip files l := by
  have htracks := tracks_infer skip files
  rw [infer_eq_ok_iff]
  constructor
  · rintro ⟨n, hlead⟩
    rw [hlead] at htracks
    exact htracks.leads
  · intro hl
    cases hlead : leader [] none (files.filterMap (of? skip)) with
    | none =>
      rw [hlead] at htracks
      -- a language that leads has a supported file, and the fold keeps something
      obtain ⟨f, hf, hlf⟩ := filesOf_pos_iff.mp hl.pos
      exact absurd hlf (List.find?_eq_none.mp (htracks f hf) l hl.mem)
    | some lead =>
      rw [hlead] at htracks
      exact ⟨lead.2, by rw [hl.unique htracks.leads]⟩

/-- There is none exactly if no file is supported. -/
theorem infer_eq_error_iff :
    (∃ e, infer skip files = .error e) ↔ ∀ f ∈ files, supports f = false := by
  cases hinfer : infer skip files with
  | error e =>
    have htracks := tracks_infer skip files
    have hnone := toOption_infer skip files
    rw [hinfer] at hnone
    rw [Option.map_eq_none_iff.mp hnone.symm] at htracks
    exact iff_of_true ⟨e, rfl⟩ fun f hf => of?_eq_none_iff.mp (htracks f hf)
  | ok l =>
    -- the answer has a file, which is supported
    have hl := infer_eq_ok_iff_leads.mp hinfer
    obtain ⟨f, hf, hlf⟩ := filesOf_pos_iff.mp hl.pos
    refine iff_of_false (fun ⟨_, he⟩ => nomatch he) fun hall => ?_
    exact List.find?_eq_none.mp (of?_eq_none_iff.mpr (hall f hf)) l hl.mem hlf

/-- Files that are of no language do not count. -/
theorem toOption_infer_filter (skip : Bool) (files : List Path) :
    (infer skip (files.filter supports)).toOption = (infer skip files).toOption := by
  rw [toOption_infer, toOption_infer, List.filterMap_filter]
  congr 3
  funext p
  split
  case isTrue => rfl
  case isFalse hnot => exact (of?_eq_none_iff.mpr ((Bool.not_eq_true _).mp hnot)).symm

/-- **The language of a list of files.** There is none exactly when no file is of a language. It is
the one with most files, and of those with as many the one that had them first; so more files of it,
and files of no language anywhere, change nothing. -/
theorem infer_majority (skip : Bool) (files : List Path) :
    ((∃ e, infer skip files = .error e) ↔ ∀ f ∈ files, supports f = false) ∧
      (∀ l, infer skip files = .ok l ↔ Leads skip files l) ∧
      (∀ l more, infer skip files = .ok l → (∀ f ∈ more, l.handles f) →
        infer skip (files ++ more) = .ok l) ∧
      ∀ others, others.filter supports = files.filter supports →
        (infer skip others).toOption = (infer skip files).toOption := by
  refine ⟨infer_eq_error_iff, fun l => infer_eq_ok_iff_leads, fun l more hl hmore => ?_,
    fun others heq => ?_⟩
  · exact infer_eq_ok_iff_leads.mpr ((infer_eq_ok_iff_leads.mp hl).append hmore)
  · rw [← toOption_infer_filter skip others, heq, toOption_infer_filter]

/-- One file each: the language of the first file leads, and stays in front with one more. -/
theorem infer_majority_of_tie :
    infer false [⟨"a.rs"⟩, ⟨"README.md"⟩, ⟨"b.js"⟩] = .ok .rust ∧
      Leads false [⟨"a.rs"⟩, ⟨"README.md"⟩, ⟨"b.js"⟩] .rust ∧
      infer false ([⟨"a.rs"⟩, ⟨"README.md"⟩, ⟨"b.js"⟩] ++ [⟨"c.rs"⟩]) = .ok .rust ∧
      (infer false [⟨"a.rs"⟩, ⟨"b.js"⟩]).toOption = some .rust := by
  obtain ⟨-, hleads, happend, hothers⟩ :=
    infer_majority false [⟨"a.rs"⟩, ⟨"README.md"⟩, ⟨"b.js"⟩]
  have hinfer : infer false [⟨"a.rs"⟩, ⟨"README.md"⟩, ⟨"b.js"⟩] = .ok .rust := by decide +kernel
  refine ⟨hinfer, (hleads .rust).mp hinfer, ?_, ?_⟩
  · exact happend .rust [⟨"c.rs"⟩] hinfer (by decide +kernel)
  · rw [hothers [⟨"a.rs"⟩, ⟨"b.js"⟩] (by decide +kernel), hinfer]
    rfl

end ImportAtlas.Language
