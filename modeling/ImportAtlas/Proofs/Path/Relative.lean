import ImportAtlas.Proofs.Path.Order
import ImportAtlas.Proofs.Path.Plain

/-!
# What is left of a path

Below a directory, what is left of a path are its steps behind those of the directory, however the
two are written.

* `Path.components_ofSegments` — segments of which the first is a step are read as the steps that
  they stand for;
* `Path.relativeTo?_spec` — the steps of an absolute path are those of the directory and those that
  are left;
* `Path.components_join_intercalate` — joined to the directory, the steps that are left give the
  path again.
-/

namespace ImportAtlas

namespace Path

open Component

variable {p q base : Path} {s : String} {ss : List (List Char)}

/-! ### Absolute paths -/

/-- An absolute path has a slash in front of its segments, and its root in front of its steps. -/
theorem exists_segments_of_isAbsolute (h : p.isAbsolute) :
    ∃ rest, p.segments = [] :: rest ∧ p.start = ("/", rest) ∧
      p.components = .root :: rest.filterMap ofSegment? := by
  obtain ⟨t, ht⟩ := List.head?_eq_some_iff.mp (eq_of_beq h)
  -- before the first slash there is an empty segment
  have hsegments : p.segments = [] :: Text.cutAt (· == '/') t := by
    rw [segments, ht]
    rfl
  refine ⟨_, hsegments, ?_, ?_⟩
  · rw [start, hsegments]
    exact if_pos h
  · rw [components, if_pos h, hsegments]
    rfl

/-- An absolute path is not empty. -/
theorem text_ne_empty_of_isAbsolute (h : p.isAbsolute) : p.text ≠ "" := by
  intro hempty
  rw [isAbsolute, hempty] at h
  exact absurd h (by decide)

/-- Whether a path is absolute can be told from its steps. -/
theorem isAbsolute_iff_root_mem : p.isAbsolute ↔ .root ∈ p.components := by
  -- a segment is never the root, since it has no slash
  have hsteps : Component.root ∉ p.segments.filterMap ofSegment? := by
    intro hroot
    obtain ⟨t, ht, hstep⟩ := List.mem_filterMap.mp hroot
    exact (inner_of_mem_segments ht hstep).isPiece '/' (by decide) rfl
  constructor
  · intro h
    rw [components, if_pos h]
    exact List.mem_cons_self
  · intro h
    by_contra hrelative
    rw [components, if_neg hrelative] at h
    split at h
    · rcases List.mem_cons.mp h with hhere | h
      · cases hhere
      · exact hsteps h
    · exact hsteps h

theorem isAbsolute_congr (h : p.same q) : p.isAbsolute = q.isAbsolute := by
  rw [Bool.eq_iff_iff, isAbsolute_iff_root_mem, isAbsolute_iff_root_mem, same_iff.mp h]

/-! ### Idle segments -/

/-- Idle segments are those that are no components. -/
theorem isIdle_iff {t : List Char} : isIdle t ↔ ofSegment? t = none := by
  unfold isIdle ofSegment?
  by_cases hidle : t = [] ∨ t = ['.']
  · rw [if_pos hidle]
    simpa using hidle
  · rw [if_neg hidle]
    by_cases hup : t = ['.', '.']
    · simp [hup]
    · rw [if_neg hup]
      simpa using hidle

/-- The first of the segments, if there is one, is a step. -/
def Begun (ss : List (List Char)) : Prop :=
  ∀ t ∈ ss.head?, ¬ isIdle t

/-- Without the idle ones in front a list begins with a component. -/
theorem begun_dropWhile (ss : List (List Char)) : Begun (ss.dropWhile isIdle) := by
  intro t ht
  have hnot := List.head?_dropWhile_not isIdle ss
  rw [Option.mem_def.mp ht] at hnot
  simpa using hnot

/-- The components stay. -/
theorem filterMap_dropWhile (ss : List (List Char)) :
    (ss.dropWhile isIdle).filterMap ofSegment? = ss.filterMap ofSegment? := by
  induction ss with
  | nil => rfl
  | cons t ss ih =>
    by_cases hidle : isIdle t
    · rw [List.dropWhile_cons_of_pos hidle, ih, List.filterMap_cons_none (isIdle_iff.mp hidle)]
    · rw [List.dropWhile_cons_of_neg hidle]

/-- Segments are dropped together with the steps that they stand for. -/
theorem filterMap_dropSegments (n : Nat) (ss : List (List Char)) :
    (dropSegments n ss).filterMap ofSegment? = (ss.filterMap ofSegment?).drop n := by
  induction ss generalizing n with
  | nil => cases n <;> rfl
  | cons t ss ih =>
    cases n with
    | zero => exact filterMap_dropWhile (t :: ss)
    | succ n =>
      rw [dropSegments]
      -- idle segments are dropped besides, and they are no components
      by_cases hidle : isIdle t
      · rw [if_pos hidle, ih, List.filterMap_cons_none (isIdle_iff.mp hidle)]
      · obtain ⟨c, hc⟩ := Option.ne_none_iff_exists'.mp (mt isIdle_iff.mpr hidle)
        rw [if_neg hidle, ih, List.filterMap_cons_some hc, List.drop_succ_cons]

/-- After some segments have been dropped a list begins with a component too. -/
theorem begun_dropSegments (n : Nat) (ss : List (List Char)) : Begun (dropSegments n ss) := by
  induction ss generalizing n with
  | nil => cases n <;> exact fun _ h => absurd h (by simp [dropSegments])
  | cons t ss ih =>
    cases n with
    | zero => exact begun_dropWhile (t :: ss)
    | succ n =>
      rw [dropSegments]
      split
      · exact ih (n + 1)
      · exact ih n

/-- Idle segments at the end are no components. -/
theorem filterMap_dropIdleEnd (ss : List (List Char)) :
    (dropIdleEnd ss).filterMap ofSegment? = ss.filterMap ofSegment? := by
  rw [dropIdleEnd, List.filterMap_reverse, filterMap_dropWhile, ← List.filterMap_reverse,
    List.reverse_reverse]

/-- Dropping them does not change the beginning. -/
theorem Begun.dropIdleEnd (h : Begun ss) : Begun (dropIdleEnd ss) := by
  intro t ht
  obtain ⟨rest, hrest⟩ := List.head?_eq_some_iff.mp ht
  obtain ⟨behind, hbehind⟩ := prefix_dropIdleEnd ss
  refine h t ?_
  rw [← hbehind, hrest]
  rfl

/-! ### Segments as a path -/

/-- Segments are read back, but for an empty one where there were none. -/
theorem filterMap_segments_ofSegments (hpieces : ∀ t ∈ ss, '/' ∉ t) :
    (segments ⟨ofSegments ss⟩).filterMap ofSegment? = ss.filterMap ofSegment? := by
  by_cases hne : ss = []
  · rw [hne]
    decide
  · rw [segments, ofSegments, String.toList_ofList, Text.cutAt_join hne hpieces]

/-- A path that begins with a step is not absolute, nor does it begin with a `.`. -/
theorem Begun.exists_cons (h : Begun ss) (hpieces : ∀ t ∈ ss, '/' ∉ t) :
    ss = [] ∨ ∃ c t, c ≠ '/' ∧ (ofSegments ss).toList = c :: t := by
  match ss with
  | [] => exact .inl rfl
  | [] :: ss => exact absurd rfl (h [] rfl)
  | (c :: t) :: ss =>
    refine .inr ⟨c, t ++ ss.flatMap (['/'] ++ ·), ?_, ?_⟩
    · rintro rfl
      exact hpieces _ List.mem_cons_self List.mem_cons_self
    · rw [ofSegments, String.toList_ofList, Text.join_cons]
      rfl

/-- Such a list is spelled without a slash in front. -/
theorem Begun.head?_ne (h : Begun ss) (hpieces : ∀ t ∈ ss, '/' ∉ t) :
    (ofSegments ss).toList.head? ≠ some '/' := by
  rcases h.exists_cons hpieces with rfl | ⟨c, t, hc, ht⟩
  · decide
  · rw [ht, List.head?_cons]
    exact fun heq => hc (Option.some.inj heq)

/-- Segments that begin with a step spell the steps that they stand for. -/
theorem components_ofSegments (h : Begun ss) (hpieces : ∀ t ∈ ss, '/' ∉ t) :
    components ⟨ofSegments ss⟩ = ss.filterMap ofSegment? := by
  have hrelative : ¬ isAbsolute ⟨ofSegments ss⟩ := by
    simpa [isAbsolute] using h.head?_ne hpieces
  have hhere : (segments ⟨ofSegments ss⟩).head? ≠ some ['.'] := by
    by_cases hne : ss = []
    · rw [hne]
      decide
    · rw [segments, ofSegments, String.toList_ofList, Text.cutAt_join hne hpieces]
      exact fun hhead => h _ hhead rfl
  rw [components, if_neg hrelative, if_neg hhere, filterMap_segments_ofSegments hpieces]

/-! ### Below a directory -/

/-- What is dropped is the beginning. -/
theorem eq_append_of_dropSteps? {base steps rest : List Component}
    (h : dropSteps? base steps = some rest) : steps = base ++ rest := by
  induction base generalizing steps with
  | nil => exact Option.some.inj h
  | cons b base ih =>
    cases steps with
    | nil => cases h
    | cons c steps =>
      rw [dropSteps?] at h
      split at h
      · next heq => rw [heq, ih h, List.cons_append]
      · cases h

/-- **What is left.** The steps of an absolute path are those of the directory and then those of
what is left, of which each may stand behind others. -/
theorem relativeTo?_spec (hp : p.isAbsolute) (hbase : base.isAbsolute)
    (h : p.relativeTo? base = some q) :
    p.components = base.components ++ q.components ∧ ∀ c ∈ q.components, Inner c := by
  obtain ⟨steps, hsteps, hq⟩ := Option.map_eq_some_iff.mp h
  obtain ⟨body, hsegments, hstart, hcomponents⟩ := exists_segments_of_isAbsolute hp
  obtain ⟨more, -, -, hmore⟩ := exists_segments_of_isAbsolute hbase
  have happend : p.components = base.components ++ steps := eq_append_of_dropSteps? hsteps
  have hfront : ("/" : String) ≠ "" := by decide
  simp only [hstart, hmore, if_neg hfront, if_neg (List.cons_ne_nil _ _), List.length_cons,
    Nat.add_sub_cancel] at hq
  generalize hn : (more.filterMap ofSegment?).length = n at hq
  -- the segments that are left are some of those of the path
  have hsubset : dropIdleEnd (dropSegments n body) ⊆ p.segments := fun t ht => by
    rw [hsegments]
    exact List.mem_cons_of_mem _ ((suffix_dropSegments n body).subset
      ((prefix_dropIdleEnd _).subset ht))
  have hpieces : ∀ t ∈ dropIdleEnd (dropSegments n body), '/' ∉ t := fun t ht hslash =>
    Text.not_sep_of_mem_cutAt t (hsubset ht) '/' hslash rfl
  have hleft : q.components = (dropIdleEnd (dropSegments n body)).filterMap ofSegment? := by
    rw [← hq]
    exact components_ofSegments (begun_dropSegments n body).dropIdleEnd hpieces
  refine ⟨?_, fun c hc => ?_⟩
  · have hbody : body.filterMap ofSegment? = more.filterMap ofSegment? ++ steps := by
      rw [hcomponents, hmore] at happend
      exact (List.cons.inj happend).2
    rw [happend, hleft, filterMap_dropIdleEnd, filterMap_dropSegments, hbody,
      List.drop_left' hn]
  · rw [hleft] at hc
    obtain ⟨t, ht, hstep⟩ := List.mem_filterMap.mp hc
    exact inner_of_mem_segments (hsubset ht) hstep

/-- Steps written between slashes and joined to a path are steps more. -/
theorem components_join_intercalate {steps : List Component} (hp : p.text ≠ "")
    (hsteps : ∀ c ∈ steps, Inner c) :
    (p.join ("/".intercalate (steps.map Component.text))).components = p.components ++ steps := by
  -- each component is read from its own text
  have hread : ((steps.map Component.text).map String.toList).filterMap ofSegment? = steps := by
    rw [List.map_map, List.filterMap_map]
    refine (List.filterMap_congr fun c hc => ?_).trans List.filterMap_some
    exact (hsteps c hc).ofSegment_eq
  have hpieces : ∀ t ∈ (steps.map Component.text).map String.toList, '/' ∉ t := by
    simp only [List.map_map, List.mem_map, Function.comp_apply]
    rintro t ⟨c, hc, rfl⟩ hslash
    exact (hsteps c hc).isPiece '/' hslash rfl
  -- none of them is idle, so the first is a component
  have hbegun : Begun ((steps.map Component.text).map String.toList) := by
    intro t ht hidle
    obtain ⟨n, hn, rfl⟩ := List.mem_map.mp (List.mem_of_head? ht)
    obtain ⟨c, hc, rfl⟩ := List.mem_map.mp hn
    exact Option.some_ne_none c ((hsteps c hc).ofSegment_eq.symm.trans (isIdle_iff.mp hidle))
  rw [← Disk.ofSegments_names, components_join_relative hp (hbegun.head?_ne hpieces),
    filterMap_segments_ofSegments hpieces, hread]

end Path

end ImportAtlas
