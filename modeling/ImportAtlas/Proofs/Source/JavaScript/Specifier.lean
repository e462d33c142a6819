import ImportAtlas.Proofs.Files.Place
import ImportAtlas.Proofs.Source.Layout
import ImportAtlas.Source.JavaScript

/-!
# Specifiers that are read back

The specifier that a record is shown by tells its depth and its path, when the segments of the path
can stand between slashes and the first of them is no step up.

* `IsSegment`, `ImportRecord.Specifiable` — the segments and the records that are meant;
* `specifierRecord_here`, `specifierRecord_ups`, `specifierRecord_segments` — how the three kinds of
  specifiers begin, and that the rest is read after that;
* `recordOf_of_cut` — segments between slashes are the path;
* `specifierRecord_specifier` — depth and path are read from the specifier, so no other depth or
  path has the same one.
-/

namespace ImportAtlas

/-- A text that is a segment of a specifier. -/
structure IsSegment (s : String) : Prop where
  ne_empty : s ≠ ""
  ne_here : s ≠ "."
  noSlash : '/' ∉ s.toList
  noBlank : ∀ c ∈ s.toList, Text.isBlank c = false

instance (s : String) : Decidable (IsSegment s) :=
  decidable_of_iff (s ≠ "" ∧ s ≠ "." ∧ '/' ∉ s.toList ∧ ∀ c ∈ s.toList, Text.isBlank c = false)
    ⟨fun ⟨hempty, hhere, hslash, hblank⟩ => ⟨hempty, hhere, hslash, hblank⟩,
      fun h => ⟨h.ne_empty, h.ne_here, h.noSlash, h.noBlank⟩⟩

/-- A record whose path has segments only, none of them a step up in front, and names something. -/
structure ImportRecord.Specifiable (r : ImportRecord) : Prop where
  isSegment : ∀ s ∈ r.path, IsSegment s
  head_ne_up : r.path.head? ≠ some ".."
  ne_nil : r.depth = 0 → r.path ≠ []

namespace Source.JavaScript

variable {path : List String} {t : List Char}

/-! ### What a specifier begins with -/

/-- The record of a depth and of the segments between the slashes of a text. -/
def recordOf (read : Nat × List Char) : ImportRecord where
  path := ((Text.cutAt (· == '/') read.2).filter fun s => s ≠ [] ∧ s ≠ ['.']).map String.ofList
  depth := read.1

/-- A specifier without blanks around it is read as it is. -/
theorem specifierRecord_of_trim {spec : List Char} (htrim : Text.trim spec = spec)
    (hhere : spec ≠ ['.']) :
    specifierRecord spec = recordOf
      (match Text.dropStart? ['.', '/'] spec with
        | some r => stepsUp 1 r
        | none => stepsUp 0 spec) := by
  rw [specifierRecord, htrim, if_neg hhere]
  rfl

/-- A specifier that begins here. -/
theorem specifierRecord_here (htrim : Text.trim ("./".toList ++ t) = "./".toList ++ t) :
    specifierRecord ("./".toList ++ t) = recordOf (stepsUp 1 t) :=
  specifierRecord_of_trim htrim (fun heq => by cases heq)

/-- Each step up counts. -/
theorem stepsUp_ups (k depth : Nat) (t : List Char) :
    stepsUp (depth + 1) ((String.join (List.replicate k "../")).toList ++ t) =
      stepsUp (depth + 1 + k) t := by
  induction k generalizing depth with
  | zero => rfl
  | succ k ih =>
    have hstep : ∀ u, stepsUp (depth + 1) ("../".toList ++ u) = stepsUp (max (depth + 1) 1 + 1) u :=
      fun u => rfl
    rw [List.replicate_succ, String.join_cons, String.toList_append, List.append_assoc, hstep,
      Nat.max_eq_left (Nat.le_add_left 1 depth), ih, Nat.add_assoc, Nat.add_comm 1 k]

/-- Each step up counts one on top of the directory of the importing file. -/
theorem specifierRecord_ups {k : Nat}
    (htrim : Text.trim ((String.join (List.replicate (k + 1) "../")).toList ++ t) =
      (String.join (List.replicate (k + 1) "../")).toList ++ t) :
    specifierRecord ((String.join (List.replicate (k + 1) "../")).toList ++ t) =
      recordOf (stepsUp (k + 2) t) := by
  have hups : (String.join (List.replicate (k + 1) "../")).toList ++ t =
      "../".toList ++ ((String.join (List.replicate k "../")).toList ++ t) := by
    rw [List.replicate_succ, String.join_cons, String.toList_append, List.append_assoc]
  -- it does not begin with `./`, so the first step up counts for itself and for leaving the file
  have hdrop : ∀ u, Text.dropStart? ['.', '/'] ("../".toList ++ u) = none := fun u => rfl
  have hstep : ∀ u, stepsUp 0 ("../".toList ++ u) = stepsUp (1 + 1) u := fun u => rfl
  rw [hups] at htrim ⊢
  rw [specifierRecord_of_trim htrim (fun heq => by cases heq), hdrop]
  simp only [hstep, stepsUp_ups]
  rw [Nat.add_comm 2 k]

/-! ### Segments -/

/-- Only a first segment that is a step up is read as one. -/
theorem stepsUp_of_cut {s : List Char} {ss : List (List Char)}
    (hcut : Text.cutAt (· == '/') t = s :: ss) (hup : s ≠ ['.', '.']) (depth : Nat) :
    stepsUp depth t = (depth, t) := by
  -- in each of the two texts that are read as a step up, the first piece is `..`
  unfold stepsUp
  split
  · exact absurd (List.cons.inj hcut).1.symm hup
  · exact absurd (List.cons.inj hcut).1.symm hup
  · rfl

/-- No piece is dropped as an empty one or a `.`. -/
theorem recordOf_of_cut (hcut : Text.cutAt (· == '/') t = path.map String.toList)
    (hkeep : ∀ s ∈ path, s ≠ "" ∧ s ≠ ".") (depth : Nat) :
    recordOf (depth, t) = { path, depth } := by
  -- no segment is left out, as none is empty or a dot
  have hfilter : (path.map String.toList).filter (fun s => s ≠ [] ∧ s ≠ ['.']) =
      path.map String.toList := by
    refine List.filter_eq_self.mpr fun s hs => ?_
    obtain ⟨m, hm, rfl⟩ := List.mem_map.mp hs
    obtain ⟨hempty, hhere⟩ := hkeep m hm
    exact decide_eq_true ⟨fun h => hempty (String.toList_eq_nil_iff.mp h),
      fun h => hhere (String.toList_inj.mp h)⟩
  rw [recordOf, hcut, hfilter]
  simp

/-- Not a blank. -/
def isSolidChar (c : Char) : Bool :=
  !Text.isBlank c

/-- There is nothing to trim where nothing is blank. -/
theorem trim_of_solidChars (h : AllIn isSolidChar t) : Text.trim t = t := by
  by_cases hne : t = []
  · subst hne
    rfl
  · exact (Text.Solid.of_forall hne fun c hc => by simpa [isSolidChar] using h c hc).trim_eq

/-- The steps have no blanks. -/
theorem solidChars_ups (k : Nat) :
    AllIn isSolidChar (String.join (List.replicate k "../")).toList := by
  induction k with
  | zero => exact .of_all rfl
  | succ k ih =>
    rw [List.replicate_succ, String.join_cons, String.toList_append]
    exact AllIn.append (.of_all (by decide)) ih

/-- Steps up without a slash at the end. -/
theorem intercalate_ups (k : Nat) :
    "/".intercalate (List.replicate (k + 1) "..") =
      String.join (List.replicate k "../") ++ ".." := by
  induction k with
  | zero => rfl
  | succ k ih =>
    rw [List.replicate_succ, List.replicate_succ, String.intercalate_cons_cons,
      ← List.replicate_succ, ih, List.replicate_succ, String.join_cons, String.append_assoc,
      String.append_assoc]
    rfl

section Segments

variable (hpath : ∀ s ∈ path, IsSegment s)

include hpath

/-- The segments are those between the slashes. -/
theorem cutAt_segments (hne : path ≠ []) :
    Text.cutAt (· == '/') ("/".intercalate path).toList = path.map String.toList := by
  rw [Disk.toList_intercalate, Text.cutAt_join (by simpa using hne)]
  intro s hs
  obtain ⟨m, hm, rfl⟩ := List.mem_map.mp hs
  exact (hpath m hm).noSlash

/-- They have no blanks. -/
theorem solidChars_segments : AllIn isSolidChar ("/".intercalate path).toList := by
  rw [Disk.toList_intercalate]
  refine AllIn.join (.of_all (by decide)) fun s hs c hc => ?_
  obtain ⟨m, hm, rfl⟩ := List.mem_map.mp hs
  rw [isSolidChar, (hpath m hm).noBlank c hc]
  rfl

/-- Behind the steps up the segments are left, and they are the path. -/
theorem recordOf_stepsUp_segments (hne : path ≠ []) (hup : path.head? ≠ some "..") (depth : Nat) :
    recordOf (stepsUp depth ("/".intercalate path).toList) = { path, depth } := by
  obtain ⟨s, ss, rfl⟩ := List.exists_cons_of_ne_nil hne
  have hcut := cutAt_segments hpath hne
  have hfirst : s.toList ≠ ['.', '.'] := fun h =>
    hup (congrArg some (String.toList_inj.mp h))
  rw [stepsUp_of_cut hcut hfirst, recordOf_of_cut hcut fun m hm =>
    ⟨(hpath m hm).ne_empty, (hpath m hm).ne_here⟩]

/-- Segments by themselves begin like no other kind of specifier. -/
theorem specifierRecord_segments (hne : path ≠ []) (hup : path.head? ≠ some "..") :
    specifierRecord ("/".intercalate path).toList = { path, depth := 0 } := by
  obtain ⟨s, ss, rfl⟩ := List.exists_cons_of_ne_nil hne
  have hcut := cutAt_segments hpath hne
  have hhere : s.toList ≠ ['.'] := fun h =>
    (hpath s List.mem_cons_self).ne_here (String.toList_inj.mp h)
  have hread := recordOf_stepsUp_segments hpath hne hup 0
  have htrim := trim_of_solidChars (solidChars_segments hpath)
  -- from here on the text matters by what has been proved of it only
  generalize ("/".intercalate (s :: ss)).toList = t at hcut hread htrim
  rw [specifierRecord_of_trim htrim]
  · rw [Text.dropStart?_eq_none, hread]
    rintro r rfl
    exact hhere (List.cons.inj hcut).1.symm
  · rintro rfl
    exact hhere (List.cons.inj hcut).1.symm

end Segments

/-! ### Reading a specifier back -/

/-- They are not empty. -/
theorem isEmpty_segments (hpath : ∀ s ∈ path, IsSegment s) (hne : path ≠ []) :
    ("/".intercalate path).isEmpty = false := by
  obtain ⟨s, ss, rfl⟩ := List.exists_cons_of_ne_nil hne
  have hcut := cutAt_segments hpath hne
  rw [Bool.eq_false_iff, Ne, String.isEmpty_iff]
  intro hempty
  rw [hempty] at hcut
  exact (hpath s List.mem_cons_self).ne_empty
    (String.toList_eq_nil_iff.mp (List.cons.inj hcut).1.symm)

/-- What a depth is written as in front of a path. -/
def depthText : Nat → String
  | 0 => ""
  | 1 => "./"
  | d + 2 => String.join (List.replicate (d + 1) "../")

/-- A path is written behind its dots. -/
theorem specifier_of_ne_nil {r : ImportRecord} (hr : r.Specifiable) (hne : r.path ≠ []) :
    r.specifier = depthText r.depth ++ "/".intercalate r.path := by
  have hempty := isEmpty_segments hr.isSegment hne
  rw [ImportRecord.specifier]
  rcases r.depth with _ | _ | d <;> simp [depthText, hempty]

/-- A record without path is a directory above, written as dots only. -/
theorem readBack_of_nil {r : ImportRecord} (hr : r.Specifiable) (hnil : r.path = []) :
    specifierRecord r.specifier.toList = { path := [], depth := r.depth } := by
  have hdepth : r.depth ≠ 0 := fun h => hr.ne_nil h hnil
  rw [ImportRecord.specifier, hnil]
  match hd : r.depth with
  | 0 => exact absurd hd hdepth
  | 1 => rfl
  | d + 2 =>
    -- the last of the steps up is written without a slash
    have htext : ("/".intercalate (List.replicate (d + 1) "..")).toList =
        (String.join (List.replicate d "../")).toList ++ "..".toList := by
      rw [intercalate_ups, String.toList_append]
    have htrim := trim_of_solidChars
      (AllIn.append (solidChars_ups d) (.of_all (t := "..".toList) (by decide)))
    change specifierRecord ("/".intercalate (List.replicate (d + 1) "..")).toList = _
    rw [htext]
    cases d with
    | zero => rfl
    | succ d =>
      rw [specifierRecord_ups htrim]
      rfl

/-- A record with a path is read back, whatever its depth. -/
theorem readBack_of_ne_nil {r : ImportRecord} (hr : r.Specifiable) (hne : r.path ≠ []) :
    specifierRecord r.specifier.toList = { path := r.path, depth := r.depth } := by
  have hsolid := solidChars_segments hr.isSegment
  have hread := recordOf_stepsUp_segments hr.isSegment hne hr.head_ne_up
  rw [specifier_of_ne_nil hr hne, String.toList_append]
  -- without dots, with one, and with as many steps up as the depth says
  match r.depth with
  | 0 => exact specifierRecord_segments hr.isSegment hne hr.head_ne_up
  | 1 =>
    rw [depthText, specifierRecord_here, hread]
    exact trim_of_solidChars (AllIn.append (.of_all (by decide)) hsolid)
  | d + 2 =>
    rw [depthText, specifierRecord_ups, hread]
    exact trim_of_solidChars ((solidChars_ups (d + 1)).append hsolid)

/-- **Every specifiable record is read back.** -/
theorem readBack {r : ImportRecord} (hr : r.Specifiable) :
    specifierRecord r.specifier.toList = { path := r.path, depth := r.depth } := by
  by_cases hnil : r.path = []
  · rw [readBack_of_nil hr hnil, hnil]
  · exact readBack_of_ne_nil hr hnil

/-- **Specifiers.** The specifier of a record is read as its depth and its path, and so no record
with another depth or another path has the same. -/
theorem specifierRecord_specifier {r : ImportRecord} (hr : r.Specifiable) :
    specifierRecord r.specifier.toList = { path := r.path, depth := r.depth } ∧
      ∀ r' : ImportRecord, r'.Specifiable → r'.specifier = r.specifier →
        r'.depth = r.depth ∧ r'.path = r.path := by
  refine ⟨readBack hr, fun r' hr' heq => ?_⟩
  have hboth := readBack hr'
  rw [heq, readBack hr] at hboth
  exact ⟨(congrArg ImportRecord.depth hboth).symm, (congrArg ImportRecord.path hboth).symm⟩

/-- Two steps up to a path with a step up that is not in front, and two steps up to no path. -/
theorem specifierRecord_specifier_of_ups :
    specifierRecord "../../a/../b".toList = { path := ["a", "..", "b"], depth := 3 } ∧
      specifierRecord "../..".toList = { path := [], depth := 3 } := by
  have hpath : ImportRecord.Specifiable { path := ["a", "..", "b"], depth := 3 } :=
    ⟨by decide +kernel, by decide, by decide⟩
  have hnil : ImportRecord.Specifiable { path := [], depth := 3 } := ⟨by simp, by simp, by simp⟩
  exact ⟨(specifierRecord_specifier hpath).1, (specifierRecord_specifier hnil).1⟩

end Source.JavaScript

end ImportAtlas
