import ImportAtlas.Path
import ImportAtlas.Proofs.Text.Chars

/-!
# Normal forms of paths

Paths that are the same may be written in several ways. A path is *normal* when it is written as its
steps spell it (`Path.Normal`); of these no two are the same (`Path.Normal.eq_of_same`).

* `Path.components_join` — a step that is joined to a path is a step more;
* `Path.components_ofComponents` — steps are read back as they were written;
* `Path.normal_clean` — the lexical normal form is normal.

Steps are only read back when they stand where they may: a root or a leading `.` at the beginning,
and after that nothing but `..` and names (`Path.Lawful`).
-/

namespace ImportAtlas

namespace Path

open Component

variable {p q : Path} {s : String}

/-! ### Joining a step -/

/-- The text of a single step. -/
def IsPiece (s : String) : Prop :=
  ∀ c ∈ s.toList, ¬ (c == '/') = true

/-- A piece does not begin with a slash, so joining it does not start anew. -/
theorem IsPiece.head?_ne (hs : IsPiece s) : s.toList.head? ≠ some '/' := by
  intro hhead
  obtain ⟨r, hr⟩ := List.head?_eq_some_iff.mp hhead
  exact hs '/' (by rw [hr]; exact List.mem_cons_self) rfl

theorem segments_of_isPiece (hs : IsPiece s) : segments ⟨s⟩ = [s.toList] :=
  Text.cutAt_of_not_sep hs

/-- After a relative path has been joined to a path, the segments are those of both; an empty one at
the end of the first, behind a slash, gives way to what is joined. -/
theorem segments_join (hp : p.text ≠ "") (hs : s.toList.head? ≠ some '/') :
    ∃ init, init ≠ [] ∧ (p.join s).segments = init ++ segments ⟨s⟩ ∧
      (p.segments = init ∨ p.segments = init ++ [[]]) := by
  have hempty : p.text.isEmpty = false := by simpa using hp
  rw [join, if_neg hs, hempty, Bool.false_or]
  by_cases hslash : p.text.toList.getLast? = some '/'
  · -- the path ends with a slash, so what is joined takes the place of the empty segment behind it
    obtain ⟨t, ht⟩ := List.getLast?_eq_some_iff.mp hslash
    refine ⟨Text.cutAt (· == '/') t, Text.cutAt_ne_nil t, ?_, .inr ?_⟩
    · rw [if_pos (by rw [hslash]; rfl), segments, String.toList_append, ht, List.append_assoc,
        List.singleton_append, Text.cutAt_append_cons rfl]
      rfl
    · rw [segments, ht, Text.cutAt_append_cons rfl]
      rfl
  · refine ⟨p.segments, Text.cutAt_ne_nil _, ?_, .inl rfl⟩
    rw [if_neg (by simpa using hslash), segments, String.toList_append, String.toList_append,
      List.append_assoc]
    change Text.cutAt (· == '/') (p.text.toList ++ '/' :: s.toList) = _
    rw [Text.cutAt_append_cons rfl]
    rfl

/-- An extension may be written before a step is joined or after it. -/
theorem join_append (p : Path) (s : String) {extension : String}
    (h : extension.toList.head? ≠ some '/') :
    p.join (s ++ extension) = ⟨(p.join s).text ++ extension⟩ := by
  -- whether the step is absolute is told by its first character, which the extension does not
  -- change
  have hhead : (s ++ extension).toList.head? = some '/' ↔ s.toList.head? = some '/' := by
    rw [String.toList_append]
    cases s.toList with
    | nil => simp [h]
    | cons c t => simp
  simp only [join, hhead]
  split
  · rfl
  · split <;> simp only [String.append_assoc]

/-- Joining a piece leaves a path absolute or relative, as it was. -/
theorem isAbsolute_join (hp : p.text ≠ "") (hs : s.toList.head? ≠ some '/') :
    (p.join s).isAbsolute = p.isAbsolute := by
  obtain ⟨c, t, ht⟩ : ∃ c t, p.text.toList = c :: t := by
    cases htext : p.text.toList with
    | nil => exact absurd (String.toList_eq_nil_iff.mp htext) hp
    | cons c t => exact ⟨c, t, rfl⟩
  rw [join, if_neg hs]
  split <;> simp [isAbsolute, String.toList_append, ht]

/-- What its segments stand for is joined to the steps of a path. -/
theorem components_join_relative (hp : p.text ≠ "") (hs : s.toList.head? ≠ some '/') :
    (p.join s).components = p.components ++ (segments ⟨s⟩).filterMap ofSegment? := by
  obtain ⟨init, hinit, hjoin, hsegments⟩ := segments_join hp hs
  -- a leading `.` is decided by the first segment, which stays what it was
  have hhead : (p.join s).segments.head? = p.segments.head? := by
    rw [hjoin, List.head?_append_of_ne_nil _ hinit]
    rcases hsegments with h | h
    · rw [h]
    · rw [h, List.head?_append_of_ne_nil _ hinit]
  have hsteps : (p.join s).segments.filterMap ofSegment? =
      p.segments.filterMap ofSegment? ++ (segments ⟨s⟩).filterMap ofSegment? := by
    rw [hjoin, List.filterMap_append]
    rcases hsegments with h | h
    · rw [h]
    · -- an empty segment is no step
      rw [h, List.filterMap_append]
      simp [ofSegment?]
  simp only [components, isAbsolute_join hp hs, hhead, hsteps]
  split
  · rfl
  · split <;> rfl

/-- A step that is joined to a path is a step more, if it is one at all. -/
theorem components_join (hp : p.text ≠ "") (hs : IsPiece s) :
    (p.join s).components = p.components ++ (ofSegment? s.toList).toList := by
  rw [components_join_relative hp hs.head?_ne, segments_of_isPiece hs]
  cases h : ofSegment? s.toList <;> simp [h]

/-! ### Reading steps back -/

/-- A step that may stand behind others: its text is read as that step. -/
structure Inner (c : Component) : Prop where
  isPiece : IsPiece c.text
  ofSegment_eq : ofSegment? c.text.toList = some c

/-- Steps that stand where they may: behind the first one only `..` and names. -/
inductive Lawful : List Component → Prop where
  | cons {c : Component} {rest : List Component} (hfirst : c = .root ∨ c = .here ∨ Inner c)
    (hrest : ∀ d ∈ rest, Inner d) : Lawful (c :: rest)

theorem inner_up : Inner .up :=
  ⟨by simp [IsPiece, Component.text], by decide⟩

/-- No component has an empty text. -/
theorem text_ne_empty (c : Component) (h : c = .root ∨ c = .here ∨ Inner c) : c.text ≠ "" := by
  rcases h with rfl | rfl | h
  · decide
  · decide
  · intro hempty
    have hnone := h.ofSegment_eq
    rw [hempty] at hnone
    simp [ofSegment?] at hnone

/-- A first step is read back from its text. -/
theorem components_text {c : Component} (h : c = .root ∨ c = .here ∨ Inner c) :
    components ⟨c.text⟩ = [c] := by
  rcases h with rfl | rfl | h
  · decide
  · decide
  · -- a piece is relative and not a dot, so its only segment is its component
    have habs : isAbsolute ⟨c.text⟩ = false := by
      simp only [isAbsolute, beq_eq_false_iff_ne]
      exact h.isPiece.head?_ne
    have hhere : c.text.toList ≠ ['.'] := by
      intro heq
      have hnone := h.ofSegment_eq
      rw [heq] at hnone
      simp [ofSegment?] at hnone
    simp [components, habs, segments_of_isPiece h.isPiece, h.ofSegment_eq, hhere]

/-- What is joined is not empty. -/
theorem join_ne_empty (hp : p.text ≠ "") (s : String) : (p.join s).text ≠ "" := by
  unfold join
  split
  · next h =>
    rintro rfl
    simp at h
  · split <;> simp [hp]

/-- Steps joined one after another are read back after those of the path. -/
theorem components_foldl_join {rest : List Component} (hrest : ∀ d ∈ rest, Inner d)
    (hp : p.text ≠ "") :
    (rest.foldl (fun p c => p.join c.text) p).components = p.components ++ rest := by
  induction rest generalizing p with
  | nil => simp
  | cons d rest ih =>
    obtain ⟨hd, hrest⟩ := List.forall_mem_cons.mp hrest
    rw [List.foldl_cons, ih hrest (join_ne_empty hp _), components_join hp hd.isPiece,
      hd.ofSegment_eq, List.append_assoc]
    rfl

/-- Joining to the empty path gives the piece alone. -/
theorem empty_join (c : Component) : join ⟨""⟩ c.text = ⟨c.text⟩ := by
  unfold join
  split
  · rfl
  · simp

/-- Lawful steps are read back as they were written. -/
theorem components_ofComponents {steps : List Component} (h : Lawful steps) :
    (ofComponents steps).components = steps := by
  cases h with
  | @cons c rest hfirst hrest =>
    rw [ofComponents, List.foldl_cons, empty_join,
      components_foldl_join (p := ⟨c.text⟩) hrest (text_ne_empty c hfirst), components_text hfirst,
      List.singleton_append]

/-- A path that is written as its steps spell it. -/
def Normal (p : Path) : Prop :=
  ofComponents p.components = p

/-- **A normal path is determined by its components.** -/
theorem Normal.eq_of_same (hp : Normal p) (hq : Normal q) (h : p.same q) : p = q := by
  have hcomponents : p.components = q.components := by simpa [same] using h
  rw [← hp, ← hq, hcomponents]

/-- A path put together from components is normal, if these may stand in this order. -/
theorem normal_ofComponents {steps : List Component} (h : Lawful steps) :
    Normal (ofComponents steps) := by
  rw [Normal, components_ofComponents h]

/-! ### The lexical normal form -/

/-- What a segment of a path stands for is read back from its text. -/
theorem inner_of_mem_segments {t : List Char} {c : Component} (ht : t ∈ p.segments)
    (hc : ofSegment? t = some c) : Inner c := by
  have hpiece : ∀ a ∈ t, ¬ (a == '/') = true := Text.not_sep_of_mem_cutAt t ht
  have hself := hc
  unfold ofSegment? at hc
  split at hc
  · cases hc
  · split at hc
    · cases hc
      exact inner_up
    · cases hc
      exact ⟨by simpa [IsPiece, Component.text] using hpiece, by simpa [Component.text] using hself⟩

/-- The steps of a path: perhaps a root or a leading `.`, and then steps that may follow it. -/
theorem components_cases (p : Path) :
    ∃ rest, (∀ c ∈ rest, Inner c) ∧
      (p.components = rest ∨ p.components = .root :: rest ∨ p.components = .here :: rest) := by
  refine ⟨p.segments.filterMap ofSegment?, fun c hc => ?_, ?_⟩
  · obtain ⟨t, ht, htc⟩ := List.mem_filterMap.mp hc
    exact inner_of_mem_segments ht htc
  · -- a slash at the beginning is a root, and a dot there is kept
    unfold components
    dsimp only
    split
    · exact .inr (.inl rfl)
    · split
      · exact .inr (.inr rfl)
      · exact .inl rfl

/-- The steps of a cleaned path, the last one first: no `.`, and a root only at the bottom. -/
def IsStack (done : List Component) : Prop :=
  ∃ ds, (∀ c ∈ ds, Inner c) ∧ (done = ds ∨ done = ds ++ [.root])

/-- A component goes on top. -/
theorem IsStack.push {done : List Component} (h : IsStack done) {c : Component} (hc : Inner c) :
    IsStack (c :: done) := by
  obtain ⟨ds, hds, hdone⟩ := h
  refine ⟨c :: ds, List.forall_mem_cons.mpr ⟨hc, hds⟩, ?_⟩
  rcases hdone with rfl | rfl
  · exact .inl rfl
  · exact .inr rfl

/-- A name is taken off the top. -/
theorem IsStack.pop {done : List Component} {n : String} (h : IsStack (.name n :: done)) :
    IsStack done := by
  obtain ⟨ds, hds, hdone⟩ := h
  match ds with
  | [] =>
    -- a root alone has no name on top
    rcases hdone with hdone | hdone
    · cases hdone
    · cases hdone
  | d :: ds =>
    obtain ⟨-, hds⟩ := List.forall_mem_cons.mp hds
    refine ⟨ds, hds, ?_⟩
    rcases hdone with hdone | hdone
    · exact .inl (List.cons.inj hdone).2
    · exact .inr (List.cons.inj hdone).2

/-- Cleaning keeps to steps that may stand where they do. -/
theorem isStack_cleanSteps {done steps : List Component} (hdone : IsStack done)
    (hsteps : ∀ c ∈ steps, Inner c) : IsStack (cleanSteps done steps).reverse := by
  -- one case for each way a step is dealt with: `.` is dropped, `..` takes a name back or stays
  fun_induction cleanSteps done steps with
  | case1 done => rwa [List.reverse_reverse]
  | case2 done r ih => exact ih hdone (List.forall_mem_cons.mp hsteps).2
  | case3 r before ih => exact ih hdone (List.forall_mem_cons.mp hsteps).2
  | case4 r n before ih => exact ih hdone.pop (List.forall_mem_cons.mp hsteps).2
  | case5 done r h1 h2 ih => exact ih (hdone.push inner_up) (List.forall_mem_cons.mp hsteps).2
  | case6 done c r h1 h2 ih =>
    obtain ⟨hc, hr⟩ := List.forall_mem_cons.mp hsteps
    exact ih (hdone.push hc) hr

/-- The stack, from its bottom on, is a lawful list of components. -/
theorem IsStack.lawful {steps : List Component} (h : IsStack steps.reverse) (hne : steps ≠ []) :
    Lawful steps := by
  obtain ⟨ds, hds, hsteps⟩ := h
  have hrev : ∀ c ∈ ds.reverse, Inner c := fun c hc => hds c (List.mem_reverse.mp hc)
  rcases hsteps with hsteps | hsteps
  · have heq : steps = ds.reverse := by rw [← hsteps, List.reverse_reverse]
    rw [heq] at hne ⊢
    -- without a root the first component is the lowest of the stack
    match hd : ds.reverse with
    | [] => exact absurd hd hne
    | c :: rest =>
      rw [hd] at hrev
      obtain ⟨hc, hrest⟩ := List.forall_mem_cons.mp hrev
      exact .cons (.inr (.inr hc)) hrest
  · have heq : steps = .root :: ds.reverse := by
      rw [← List.reverse_reverse steps, hsteps, List.reverse_append]
      rfl
    rw [heq]
    exact .cons (.inl rfl) hrev

/-- Cleaning keeps a stack of components. -/
theorem isStack_clean (p : Path) : IsStack (cleanSteps [] p.components).reverse := by
  obtain ⟨rest, hrest, h | h | h⟩ := components_cases p
  · rw [h]
    exact isStack_cleanSteps ⟨[], by simp, .inl rfl⟩ hrest
  · -- the root is the first step to be put down, below all others
    rw [h, cleanSteps]
    · exact isStack_cleanSteps ⟨[], by simp, .inr rfl⟩ hrest
    · simp
    · simp
  · rw [h, cleanSteps]
    exact isStack_cleanSteps ⟨[], by simp, .inl rfl⟩ hrest

/-- A cleaned path is normal. -/
theorem normal_clean (p : Path) : Normal p.clean := by
  unfold clean
  split
  · show ofComponents (components ⟨"."⟩) = ⟨"."⟩
    decide
  · next hne => exact normal_ofComponents ((isStack_clean p).lawful hne)

end Path

end ImportAtlas
