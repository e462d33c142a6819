import ImportAtlas.Proofs.Files.Place

/-!
# Paths without a step that stays

A path is *plain* when no `.` stands between two of its slashes or in front of the first one. The
paths of modules are, and what is left of a plain path below a directory is plain again.

* `Path.plain_clean`, `Disk.plain_canonical` — the lexical normal form and the path of a module;
* `Path.Plain.relativeTo?` — what is left of a path;
* `Path.Plain.not_infix` — such a path does not hold `/./`, nor begin with `./`.
-/

namespace ImportAtlas

namespace Path

variable {p q base : Path}

theorem segments_ne_nil (p : Path) : p.segments ≠ [] :=
  Text.cutAt_ne_nil _

/-- No segment but the last one is a `.`. -/
def Plain (p : Path) : Prop :=
  ['.'] ∉ p.segments.dropLast

/-- Behind a slash a plain path never goes on with `./`, and it does not begin so. -/
theorem Plain.not_infix (hp : p.Plain) : ¬ ['/', '.', '/'] <:+: '/' :: p.text.toList := by
  intro h
  have hmem : ['.'] ∈ (Text.cutAt (· == '/') ('/' :: p.text.toList)).dropLast :=
    Text.mem_cutAt_of_infix rfl rfl (by simp) h
  have hcut : Text.cutAt (· == '/') ('/' :: p.text.toList) = [] :: p.segments := by
    simp [Text.cutAt, segments]
  rw [hcut, List.dropLast_cons_of_ne_nil (segments_ne_nil p)] at hmem
  rcases List.mem_cons.mp hmem with hnil | hmem
  · cases hnil
  · exact hp hmem

/-! ### Normal forms -/

/-- A component behind the first is no dot. -/
theorem Inner.toList_ne_here {c : Component} (h : Inner c) : c.text.toList ≠ ['.'] := by
  intro heq
  have hnone := h.ofSegment_eq
  rw [heq] at hnone
  simp [Component.ofSegment?] at hnone

/-- Joining components puts no dot between the slashes. -/
theorem here_not_mem_foldl_join {rest : List Component} (hrest : ∀ d ∈ rest, Inner d)
    (hp : p.text ≠ "") (hhere : ['.'] ∉ p.segments) :
    ['.'] ∉ (rest.foldl (fun p c => p.join c.text) p).segments := by
  induction rest generalizing p with
  | nil => exact hhere
  | cons d rest ih =>
    obtain ⟨hd, hrest⟩ := List.forall_mem_cons.mp hrest
    refine ih hrest (join_ne_empty hp _) ?_
    obtain ⟨init, -, hjoin, hsegments⟩ := segments_join hp hd.isPiece.head?_ne
    rw [segments_of_isPiece hd.isPiece] at hjoin
    -- the segments of before, perhaps without an empty one at the end
    have hinit : ['.'] ∉ init := by
      rcases hsegments with h | h
      · rwa [h] at hhere
      · rw [h] at hhere
        exact fun hmem => hhere (List.mem_append_left _ hmem)
    rw [hjoin, List.mem_append, List.mem_singleton]
    rintro (hmem | heq)
    · exact hinit hmem
    · exact hd.toList_ne_here heq.symm

/-- Steps without a `.` in front spell a path without one. -/
theorem here_not_mem_ofComponents {c : Component} {rest : List Component}
    (hc : c = .root ∨ Inner c) (hrest : ∀ d ∈ rest, Inner d) :
    ['.'] ∉ (ofComponents (c :: rest)).segments := by
  rw [ofComponents, List.foldl_cons, empty_join]
  refine here_not_mem_foldl_join (p := ⟨c.text⟩) hrest (text_ne_empty c (hc.imp_right .inr)) ?_
  rcases hc with rfl | hc
  · decide
  · rw [segments_of_isPiece hc.isPiece, List.mem_singleton]
    exact hc.toList_ne_here.symm

/-- **A cleaned path is plain.** Its components are those of a stack, of which only the lowest may
be a root. -/
theorem plain_clean (p : Path) : p.clean.Plain := by
  obtain ⟨ds, hds, hsteps⟩ := isStack_clean p
  have hrev : ∀ c ∈ ds.reverse, Inner c := fun c hc => hds c (List.mem_reverse.mp hc)
  -- with the root at the bottom, or without
  have hself : cleanSteps [] p.components = ds.reverse ∨
      cleanSteps [] p.components = .root :: ds.reverse := by
    rcases hsteps with h | h
    · exact .inl (by rw [← h, List.reverse_reverse])
    · exact .inr (by rw [← List.reverse_reverse (cleanSteps _ _), h, List.reverse_append]; rfl)
  unfold clean
  split
  · show Plain ⟨"."⟩
    unfold Plain
    decide
  · next hne =>
    refine fun hmem => absurd (List.dropLast_subset _ hmem) ?_
    rcases hself with h | h
    · rw [h] at hne ⊢
      obtain ⟨c, rest, hcons⟩ := List.exists_cons_of_ne_nil hne
      rw [hcons, List.forall_mem_cons] at hrev
      rw [hcons]
      exact here_not_mem_ofComponents (.inr hrev.1) hrev.2
    · rw [h]
      exact here_not_mem_ofComponents (.inl rfl) hrev

/-! ### What is left below a directory -/

/-- What is not last in a part of a list is not last in the list. -/
theorem mem_dropLast_of_isInfix {α : Type} {xs ys : List α} {x : α} (h : xs <:+: ys)
    (hx : x ∈ xs.dropLast) : x ∈ ys.dropLast := by
  obtain ⟨u, v, rfl⟩ := h
  have hxs : xs ≠ [] := by
    rintro rfl
    cases hx
  by_cases hv : v = []
  · rw [hv, List.append_nil, List.dropLast_append_of_ne_nil hxs]
    exact List.mem_append_right _ hx
  · rw [List.dropLast_append_of_ne_nil hv]
    exact List.mem_append_left _ (List.mem_append_right _ (List.dropLast_subset _ hx))

/-- The idle segments that are dropped stand at the end. -/
theorem prefix_dropIdleEnd (ss : List (List Char)) : dropIdleEnd ss <+: ss := by
  rw [dropIdleEnd, ← List.reverse_suffix, List.reverse_reverse]
  exact List.dropWhile_suffix _

/-- The segments that are dropped with those of a directory stand at the beginning. -/
theorem suffix_dropSegments (n : Nat) (ss : List (List Char)) : dropSegments n ss <:+ ss := by
  induction ss generalizing n with
  | nil => cases n <;> simp [dropSegments]
  | cons s ss ih =>
    cases n with
    | zero => exact List.dropWhile_suffix _
    | succ n =>
      rw [dropSegments]
      split
      · exact (ih (n + 1)).trans (List.suffix_cons s ss)
      · exact (ih n).trans (List.suffix_cons s ss)

/-- The path of some of the segments that stand one after another in a plain path. -/
theorem Plain.ofSegments (hp : p.Plain) {ss : List (List Char)} (hss : ss <:+: p.segments) :
    Plain ⟨ofSegments ss⟩ := by
  by_cases hne : ss = []
  · subst hne
    unfold Plain
    decide
  · have hpieces : ∀ t ∈ ss, '/' ∉ t := by
      intro t ht hslash
      exact Text.not_sep_of_mem_cutAt t (hss.subset ht) '/' hslash rfl
    rw [Plain, segments, Path.ofSegments, String.toList_ofList, Text.cutAt_join hne hpieces]
    exact fun hmem => hp (mem_dropLast_of_isInfix hss hmem)

/-- A slash in front leaves a path plain. -/
theorem plain_slash_append {s : String} (h : Plain ⟨s⟩) : Plain ⟨"/" ++ s⟩ := by
  have hcut : segments ⟨"/" ++ s⟩ = [] :: segments ⟨s⟩ := by
    simp [segments, String.toList_append, Text.cutAt]
  rw [Plain, hcut, List.dropLast_cons_of_ne_nil (segments_ne_nil _), List.mem_cons]
  rintro (hnil | hmem)
  · cases hnil
  · exact h hmem

/-- The beginning of a plain path and the segments behind it. -/
theorem Plain.start_cases (hp : p.Plain) :
    (∃ body, p.start = ("/", body) ∧ body <:+ p.segments) ∨ p.start = (".", []) ∨
      ∃ body, p.start = ("", body) ∧ body <:+ p.segments := by
  obtain ⟨s, rest, hsegments⟩ := List.exists_cons_of_ne_nil (segments_ne_nil p)
  rw [start, hsegments]
  dsimp only
  split
  · exact .inl ⟨rest, rfl, List.suffix_cons s rest⟩
  · split
    · next hs =>
      -- a `.` in front of other segments would not be the last one
      have hrest : rest = [] := by
        by_contra hne
        rw [Plain, hsegments, List.dropLast_cons_of_ne_nil hne, hs] at hp
        exact hp List.mem_cons_self
      exact .inr (.inl (by rw [if_pos hrest]))
    · exact .inr (.inr ⟨_, rfl, List.suffix_rfl⟩)

/-- The rest of a plain path is plain, because its segments are some of those of the path, next to
each other. -/
theorem Plain.relativeTo? (hp : p.Plain) (h : p.relativeTo? base = some q) : q.Plain := by
  have hrest {body : List (List Char)} (hbody : body <:+ p.segments) (n : Nat) :
      Plain ⟨Path.ofSegments (dropIdleEnd (dropSegments n body))⟩ :=
    hp.ofSegments ((prefix_dropIdleEnd _).isInfix.trans
      ((suffix_dropSegments n body).trans hbody).isInfix)
  have hwhole {body : List (List Char)} (hbody : body <:+ p.segments) :
      Plain ⟨Path.ofSegments (dropIdleEnd body)⟩ :=
    hp.ofSegments ((prefix_dropIdleEnd body).isInfix.trans hbody.isInfix)
  rw [Path.relativeTo?, Option.map_eq_some_iff] at h
  obtain ⟨-, -, hq⟩ := h
  -- a root, a dot or neither in front; of each, all segments are kept or some are dropped
  rcases hp.start_cases with ⟨body, hstart, hbody⟩ | hstart | ⟨body, hstart, hbody⟩
  all_goals
    rw [hstart] at hq
    dsimp only at hq
    split at hq
    all_goals subst hq
  · exact plain_slash_append (hwhole hbody)
  · exact hrest hbody _
  · unfold Plain
    decide
  · exact hrest List.nil_suffix _
  · rw [String.empty_append]
    exact hwhole hbody
  · exact hrest hbody _

end Path

namespace Disk

/-- The path that a module is known by is plain. -/
theorem plain_canonical {d : Disk} (hcwd : ∀ n ∈ d.cwd, IsName n) (p : Path) :
    (d.canonical p).Plain := by
  unfold canonical
  split
  · next names hnames =>
    have hnames := (located_locate hcwd hnames).isName
    by_cases hne : names = []
    · subst hne
      unfold Path.Plain
      decide
    · refine fun hmem => absurd (List.dropLast_subset _ hmem) ?_
      -- names are no dots
      rw [segments_pathOf hnames hne, List.mem_cons, List.mem_map]
      rintro (hnil | ⟨n, hn, heq⟩)
      · cases hnil
      · exact (hnames n hn).toList_ne_here heq
  · exact Path.plain_clean p

end Disk

end ImportAtlas
