import ImportAtlas.Proofs.Files.Place
import ImportAtlas.Proofs.Graph.Sorted
import ImportAtlas.Proofs.Resolve

/-!
# The alias of an import

An absolute import may begin with the text of an alias: a path alias of the settings, or the name of
a package. The text has to end where a segment of the import ends, and of several aliases the one
with the longest text counts.

* `Alias.Matches` — an alias that an import begins with; `Alias.rest?_eq_some` — what then follows;
* `Resolver.entries` — the aliases of a project in their own order: path aliases, then packages;
* `Resolver.Chosen` — the longest alias that matches, the first one of its text;
* `Resolver.matchAlias?_ofProject` — this one is found, only imports of depth zero ask for it, and
  an alias that does not match changes nothing.

The aliases are sorted by length once, and then searched from the front. Sorting is stable, so the
first match is the longest one, and among those of one text the first in the order of the project.
-/

namespace ImportAtlas

open Std (TransCmp)

/-! ### What an alias matches -/

namespace Alias

/-- A specifier begins with the text of the alias, and a segment ends there. -/
def Matches (a : Alias) (specifier : String) : Prop :=
  a.lead = "" ∨ specifier = a.lead ∨ a.lead.toList ++ ['/'] <+: specifier.toList

instance (a : Alias) (specifier : String) : Decidable (a.Matches specifier) :=
  inferInstanceAs (Decidable (_ ∨ _ ∨ _))

variable {a : Alias} {specifier : String} {rest t u : List Char}

/-- What an alias leaves of a specifier. The empty alias leaves all of it, any other one nothing or
what is behind a slash. -/
theorem rest?_eq_some :
    a.rest? specifier = some rest ↔
      (a.lead = "" ∧ rest = specifier.toList) ∨
        a.lead ≠ "" ∧ (specifier = a.lead ∧ rest = [] ∨
          specifier.toList = a.lead.toList ++ '/' :: rest) := by
  by_cases hlead : a.lead = ""
  · have hempty : a.lead.isEmpty = true := by rw [hlead]; rfl
    rw [rest?, if_pos hempty, Option.some.injEq]
    simp [hlead, eq_comm]
  · have hempty : ¬ a.lead.isEmpty = true := by simpa using hlead
    have hdrop : ∀ r, Text.dropStart? a.lead.toList specifier.toList = some r ↔
        specifier.toList = a.lead.toList ++ r := fun r => Text.dropStart?_eq_some
    rw [rest?, if_neg hempty]
    -- what stands behind the text of the alias is nothing, a segment, or the rest of one
    cases h : Text.dropStart? a.lead.toList specifier.toList with
    | none =>
      have hnone : ∀ r, specifier.toList ≠ a.lead.toList ++ r := fun r heq => by
        rw [(hdrop r).mpr heq] at h
        cases h
      have hself : specifier ≠ a.lead := fun heq => hnone [] (by rw [heq, List.append_nil])
      simp [hlead, hself, hnone]
    | some r =>
      have htext := (hdrop r).mp h
      have hself : specifier = a.lead ↔ r = [] := by
        rw [← String.toList_inj, htext, List.append_right_eq_self]
      simp only [hlead, false_and, false_or, ne_eq, not_false_eq_true, true_and, hself, htext,
        List.append_cancel_left_eq]
      match r with
      | [] => simp [eq_comm]
      | c :: r =>
        by_cases hc : c = '/'
        · simp [hc, eq_comm]
        · simp [hc]

/-- An alias leaves something exactly if it matches. -/
theorem isSome_rest? : (a.rest? specifier).isSome ↔ a.Matches specifier := by
  rw [Option.isSome_iff_exists, Matches]
  simp only [rest?_eq_some]
  constructor
  · rintro ⟨r, ⟨hlead, -⟩ | ⟨-, ⟨hself, -⟩ | htext⟩⟩
    · exact .inl hlead
    · exact .inr (.inl hself)
    · exact .inr (.inr ⟨r, by rw [htext, List.append_assoc]; rfl⟩)
  · intro h
    -- the empty alias matches everything
    by_cases hlead : a.lead = ""
    · exact ⟨_, .inl ⟨hlead, rfl⟩⟩
    · rcases h.resolve_left hlead with hself | ⟨r, htext⟩
      · exact ⟨[], .inr ⟨hlead, .inl ⟨hself, rfl⟩⟩⟩
      · exact ⟨r, .inr ⟨hlead, .inr (by rw [← htext, List.append_assoc]; rfl)⟩⟩

/-- The text of an alias that matches is the beginning of the specifier. -/
theorem Matches.begins (h : a.Matches specifier) : a.lead.toList <+: specifier.toList := by
  rcases h with h | h | h
  · rw [h]
    exact List.nil_prefix
  · rw [h]
  · exact (List.prefix_append _ _).trans h

/-- What an alias matches depends on its beginning only. -/
theorem Matches.congr {b : Alias} (h : b.lead = a.lead) :
    b.Matches specifier ↔ a.Matches specifier := by
  rw [Matches, Matches, h]

/-- An alias whose text goes on in the specifier within a segment does not match. -/
theorem not_matches_of_append {c : Char} {t : List Char} (hlead : a.lead ≠ "")
    (hc : c ≠ '/') (h : specifier.toList = a.lead.toList ++ c :: t) : ¬ a.Matches specifier := by
  rintro (hempty | hself | ⟨u, hu⟩)
  · exact hlead hempty
  · rw [hself] at h
    exact List.cons_ne_nil c t (List.append_right_eq_self.mp h.symm)
  · rw [h, List.append_assoc, List.append_cancel_left_eq] at hu
    exact hc (List.cons.inj hu).1.symm

/-! ### Segments -/

/-- The pieces between slashes that are not empty. -/
def pieces (t : List Char) : List (List Char) :=
  (Text.cutAt (· == '/') t).filter (· ≠ [])

theorem segments_eq (t : List Char) : segments t = (pieces t).map String.ofList := rfl

/-- A slash parts the pieces. -/
theorem pieces_append_slash (t u : List Char) :
    pieces (t ++ '/' :: u) = pieces t ++ pieces u := by
  have hcut := @Text.cutAt_append_cons (· == '/') '/' (beq_self_eq_true '/') t u
  rw [pieces, hcut, List.filter_append]
  rfl

/-- Pieces that are joined are the same pieces. -/
theorem pieces_join (t : List Char) : pieces (Text.join ['/'] (pieces t)) = pieces t := by
  by_cases hne : pieces t = []
  · rw [hne]
    rfl
  · have hslash : ∀ p ∈ pieces t, '/' ∉ p := fun p hp hmem =>
      Text.not_sep_of_mem_cutAt p (List.mem_of_mem_filter hp) '/' hmem (beq_self_eq_true '/')
    rw [pieces, Text.cutAt_join hne hslash, pieces, List.filter_filter]
    simp

/-- The text of an alias and the segments behind it give the specifier again, but for empty
segments. -/
theorem segments_of_rest? (h : a.rest? specifier = some rest) :
    segments (a.lead ++ "/" ++ "/".intercalate (segments rest)).toList =
      segments specifier.toList := by
  have hjoin : ("/".intercalate (segments rest)).toList = Text.join ['/'] (pieces rest) := by
    rw [Disk.toList_intercalate, segments_eq, List.map_map]
    simp
  have htext : (a.lead ++ "/" ++ "/".intercalate (segments rest)).toList =
      a.lead.toList ++ '/' :: Text.join ['/'] (pieces rest) := by
    rw [String.toList_append, String.toList_append, hjoin, List.append_assoc]
    rfl
  -- whichever way the alias matches, its pieces and those of the rest are the pieces of the
  -- specifier
  have hpieces : pieces a.lead.toList ++ pieces rest = pieces specifier.toList := by
    rcases rest?_eq_some.mp h with ⟨hlead, rfl⟩ | ⟨-, ⟨hself, rfl⟩ | hspecifier⟩
    · rw [hlead]
      rfl
    · rw [hself]
      exact List.append_nil _
    · rw [hspecifier, pieces_append_slash]
  rw [htext, segments_eq, pieces_append_slash, pieces_join, hpieces, segments_eq]

end Alias

/-! ### The aliases of a project -/

namespace Resolver

/-- The path aliases of a project, in the order of their texts as they are written. -/
def pathEntries (p : Project) : List Alias :=
  if p.followAliases then p.aliases.map fun entry => Alias.ofPattern p.root entry.1 entry.2 else []

/-- The packages of a project that can be imported by their name. -/
def packageEntries (d : Disk) (p : Project) : List Alias :=
  if p.followWorkspaces then p.workspaceRoots.filterMap (Alias.ofPackage? d p.root) else []

/-- All aliases of a project: those of its settings before those of its packages. -/
def entries (d : Disk) (p : Project) : List Alias :=
  pathEntries p ++ packageEntries d p

/-- Longer texts come first. -/
def byLength (a b : Alias) : Ordering :=
  compare b.lead.utf8ByteSize a.lead.utf8ByteSize

instance : TransCmp byLength :=
  inferInstanceAs (TransCmp fun a b => compareOn (fun c : Alias => c.lead.utf8ByteSize) b a)

/-- Longer aliases come first. -/
theorem isLE_byLength {a b : Alias} :
    (byLength a b).isLE ↔ b.lead.utf8ByteSize ≤ a.lead.utf8ByteSize :=
  Nat.isLE_compare

/-- The aliases of a resolver are sorted by length, those of one length staying in their order. -/
theorem aliases_ofProject (d : Disk) (l : Language) (p : Project) :
    (ofProject d l p).aliases = (entries d p).mergeSort fun a b => (byLength a b).isLE := by
  have hle : (fun a b : Alias => decide (b.lead.utf8ByteSize ≤ a.lead.utf8ByteSize)) =
      fun a b => (byLength a b).isLE :=
    funext₂ fun a b => Bool.eq_iff_iff.mpr (decide_eq_true_iff.trans isLE_byLength.symm)
  rw [← hle]
  rfl

/-- The alias that counts for a specifier, with the segments that follow it. -/
structure Chosen (d : Disk) (p : Project) (specifier : String) (a : Alias) (rest : List String) :
    Prop where
  isMatch : a.Matches specifier
  /-- Whatever else matches has a text that is a beginning of this one. -/
  longest : ∀ b ∈ entries d p, b.Matches specifier → b.lead.toList <+: a.lead.toList
  /-- Of the aliases with its text it is the first one. -/
  first : (entries d p).find? (·.lead = a.lead) = some a
  segments_eq : Alias.segments (a.lead ++ "/" ++ "/".intercalate rest).toList =
    Alias.segments specifier.toList

variable {d : Disk} {l : Language} {p : Project} {specifier : String}

/-- Of two beginnings of a text, the one that is not longer is a beginning of the other. -/
theorem prefix_of_utf8ByteSize_le {s t u : String} (hs : s.toList <+: u.toList)
    (ht : t.toList <+: u.toList) (h : s.utf8ByteSize ≤ t.utf8ByteSize) : s.toList <+: t.toList := by
  rcases List.prefix_or_prefix_of_prefix hs ht with hst | ⟨r, hr⟩
  · exact hst
  · -- the other way round there is nothing more in the longer one
    have hsize : s = t ++ String.ofList r := by
      rw [← String.toList_inj, String.toList_append, String.toList_ofList, hr]
    rw [hsize, String.utf8ByteSize_append] at h
    have hempty : String.ofList r = "" := String.utf8ByteSize_eq_zero_iff.mp (by omega)
    rw [hsize, hempty, String.append_empty]

/-- No alias is lost in sorting. -/
theorem mem_aliases_ofProject {a : Alias} :
    a ∈ (ofProject d l p).aliases ↔ a ∈ entries d p := by
  rw [aliases_ofProject]
  exact (List.mergeSort_perm _ _).mem_iff

/-- The alias that is found is the first of the longest ones that match. -/
theorem chosen_of_matchAlias? {a : Alias} {rest : List String}
    (h : (ofProject d l p).matchAlias? specifier = some (a, rest)) :
    Chosen d p specifier a rest := by
  obtain ⟨before, after, r, haliases, hbefore, hrest, rfl⟩ := matchAlias?_eq_some.mp h
  have hmatch : a.Matches specifier := Alias.isSome_rest?.mp (by rw [hrest]; rfl)
  have hnone : ∀ b ∈ before, ¬ b.Matches specifier := by
    intro b hb hmatches
    have hsome := Alias.isSome_rest?.mpr hmatches
    rw [hbefore b hb] at hsome
    cases hsome
  have hsorted : (ofProject d l p).aliases.Pairwise fun a b => (byLength a b).isLE := by
    rw [aliases_ofProject]
    exact pairwise_mergeSort_isLE byLength _
  refine ⟨hmatch, ?_, ?_, Alias.segments_of_rest? hrest⟩
  · intro b hb hmatches
    -- an alias that matches does not stand before the one that is found
    rw [← @mem_aliases_ofProject d l p, haliases, List.mem_append, List.mem_cons] at hb
    rcases hb with hb | rfl | hb
    · exact absurd hmatches (hnone b hb)
    · exact List.prefix_rfl
    · rw [haliases, List.pairwise_append, List.pairwise_cons] at hsorted
      exact prefix_of_utf8ByteSize_le hmatches.begins hmatch.begins
        (isLE_byLength.mp (hsorted.2.1.1 b hb))
  · -- sorting keeps the order of the aliases with this text
    have hstable : (ofProject d l p).aliases.filter (·.lead = a.lead) =
        (entries d p).filter (·.lead = a.lead) := by
      rw [aliases_ofProject]
      refine filter_mergeSort byLength (fun b c hb hc => ?_) _
      rw [isLE_byLength, of_decide_eq_true hb, of_decide_eq_true hc]
    have hfilter : before.filter (·.lead = a.lead) = [] := by
      rw [List.filter_eq_nil_iff]
      intro b hb hlead
      exact hnone b hb ((Alias.Matches.congr (of_decide_eq_true hlead)).mpr hmatch)
    rw [← List.head?_filter, ← hstable, haliases, List.filter_append, hfilter, List.nil_append]
    simp

/-- Path aliases come before packages, and those with the same text in the order in which they are
written. -/
theorem Chosen.exists_least {a : Alias} {rest : List String} (h : Chosen d p specifier a rest)
    (hkeys : p.aliases.Pairwise (·.1 < ·.1)) (hfollow : p.followAliases)
    {entry : String × Path} (hentry : entry ∈ p.aliases)
    (hlead : (Alias.ofPattern p.root entry.1 entry.2).lead = a.lead) :
    ∃ least ∈ p.aliases, a = Alias.ofPattern p.root least.1 least.2 ∧
      (least = entry ∨ least.1 < entry.1) := by
  have hfirst := h.first
  rw [entries, List.find?_append, pathEntries, if_pos hfollow, List.find?_map] at hfirst
  -- there is a path alias with this text, so the first one is a path alias
  have hsome : ∃ least, p.aliases.find?
      ((fun b : Alias => decide (b.lead = a.lead)) ∘ fun entry =>
        Alias.ofPattern p.root entry.1 entry.2) = some least :=
    Option.isSome_iff_exists.mp (List.find?_isSome.mpr ⟨entry, hentry, decide_eq_true hlead⟩)
  obtain ⟨least, hleast⟩ := hsome
  rw [hleast, Option.map_some, Option.some_or] at hfirst
  refine ⟨least, List.mem_of_find?_eq_some hleast, (Option.some.inj hfirst).symm, ?_⟩
  obtain ⟨-, before, after, haliases, hbefore⟩ := List.find?_eq_some_iff_append.mp hleast
  rw [haliases] at hentry hkeys
  rcases List.mem_append.mp hentry with hmem | hmem
  · exact absurd hlead (by simpa using hbefore entry hmem)
  · rcases List.mem_cons.mp hmem with rfl | hmem
    · exact .inl rfl
    · exact .inr ((List.pairwise_cons.mp (List.pairwise_append.mp hkeys).2.1).1 entry hmem)

/-- One is found exactly if one matches. -/
theorem isSome_matchAlias? :
    ((ofProject d l p).matchAlias? specifier).isSome ↔
      ∃ a ∈ entries d p, a.Matches specifier := by
  rw [matchAlias?, List.isSome_findSome?, List.any_eq_true]
  simp only [mem_aliases_ofProject, Option.isSome_map, Alias.isSome_rest?]

/-! ### What asks for an alias -/

variable {r : Resolver} {record : ImportRecord} {source : Path}

/-- The beginning of the search for an absolute import. -/
def startOf (r : Resolver) (record : ImportRecord) : Option (Alias × List String) → Start
  | some (a, rest) => startAt a.target rest (if rest = [] then a.entry else none)
  | none =>
    match r.language.rootedSegments? record with
    | some segments => startAt r.sourceRoot segments none
    | none => .nowhere

/-- Without dots the search starts from the alias that is found. -/
theorem start_of_absolute (hdepth : record.depth = 0) :
    r.start record source =
      r.startOf record (r.matchAlias? ("/".intercalate record.path)) := by
  rw [start, hdepth]
  cases r.matchAlias? ("/".intercalate record.path) with
  | some found =>
    obtain ⟨a, rest⟩ := found
    cases rest <;> cases hentry : a.entry <;> simp [startOf, startAt, hentry]
  | none => rfl

/-- With dots aliases have no part in it. -/
theorem start_of_relative (hdepth : record.depth ≠ 0) (aliases : List Alias) :
    { r with aliases }.start record source = r.start record source := by
  obtain ⟨k, hk⟩ := Nat.exists_eq_succ_of_ne_zero hdepth
  rw [start, start, hk]

/-- Aliases have a say only in where the search begins. -/
theorem resolve_of_start_eq {aliases : List Alias}
    (h : { r with aliases }.start record source = r.start record source) :
    { r with aliases }.resolve record source = r.resolve record source := by
  rw [resolve, resolve, h]
  rfl

/-! ### One alias more -/

/-- The second project has one alias more than the first: another path alias, or another package. -/
inductive Adds (d : Disk) (a : Alias) : Project → Project → Prop
  | pathAlias {p : Project} {before after : List (String × Path)} {pattern : String} {target : Path}
      (haliases : p.aliases = before ++ after) (ha : Alias.ofPattern p.root pattern target = a) :
      Adds d a p { p with aliases := before ++ (pattern, target) :: after }
  | package {p : Project} {before after : List Path} {dir : Path}
      (hroots : p.workspaceRoots = before ++ after)
      (ha : Alias.ofPackage? d p.root dir = some a) :
      Adds d a p { p with workspaceRoots := before ++ dir :: after }

/-- Adding an alias that fails a test changes nothing among those that pass it. -/
theorem Adds.filter_entries {a : Alias} {p' : Project} (h : Adds d a p p') {P : Alias → Bool}
    (ha : ¬ P a) : (entries d p').filter P = (entries d p).filter P := by
  cases h with
  | pathAlias haliases hnew =>
    simp only [entries, pathEntries, packageEntries, haliases, List.filter_append]
    by_cases hfollow : p.followAliases <;> simp [hfollow, hnew, ha]
  | package hroots hnew =>
    simp only [entries, pathEntries, packageEntries, hroots, List.filter_append]
    by_cases hfollow : p.followWorkspaces <;> simp [hfollow, hnew, ha]

/-- What is found depends on the aliases that match alone. -/
theorem matchAlias?_eq_filter (r : Resolver) (specifier : String) :
    r.matchAlias? specifier = (r.aliases.filter (·.Matches specifier)).findSome? fun a =>
      (a.rest? specifier).map fun rest => (a, Alias.segments rest) := by
  rw [matchAlias?]
  induction r.aliases with
  | nil => rfl
  | cons a as ih =>
    by_cases hmatch : a.Matches specifier
    · rw [List.filter_cons_of_pos (by simpa using hmatch), List.findSome?_cons, List.findSome?_cons,
        ih]
    · -- an alias that does not match leaves nothing, so it may be left out
      have hnone : a.rest? specifier = none := by
        rw [← Option.not_isSome_iff_eq_none, Alias.isSome_rest?]
        exact hmatch
      rw [List.filter_cons_of_neg (by simpa using hmatch), List.findSome?_cons, hnone]
      exact ih

/-- So an alias that does not match is no alias for this specifier. -/
theorem Adds.matchAlias?_eq {a : Alias} {p' : Project} (h : Adds d a p p')
    (ha : ¬ a.Matches specifier) :
    (ofProject d l p').matchAlias? specifier = (ofProject d l p).matchAlias? specifier := by
  rw [matchAlias?_eq_filter, matchAlias?_eq_filter, aliases_ofProject, aliases_ofProject,
    ← mergeSort_filter, ← mergeSort_filter, h.filter_entries (by simpa using ha)]

/-- All but the aliases of the resolver stays. -/
theorem Adds.ofProject_eq {a : Alias} {p' : Project} (h : Adds d a p p') :
    ofProject d l p' = { ofProject d l p with aliases := (ofProject d l p').aliases } := by
  cases h <;> rfl

/-- An import that the new alias does not match is resolved as before. -/
theorem Adds.resolve_eq {a : Alias} {p' : Project} (h : Adds d a p p')
    (ha : record.depth = 0 → ¬ a.Matches ("/".intercalate record.path)) :
    (ofProject d l p').resolve record source = (ofProject d l p).resolve record source := by
  rw [h.ofProject_eq]
  apply resolve_of_start_eq
  by_cases hdepth : record.depth = 0
  · have hmatch := h.matchAlias?_eq (l := l) (ha hdepth)
    rw [start_of_absolute hdepth, start_of_absolute hdepth, ← h.ofProject_eq, hmatch]
    rw [h.ofProject_eq]
    rfl
  · exact start_of_relative hdepth _

/-- A project with three path aliases, two of them with one text, and a package of that name. -/
def fourAliases : Project :=
  { root := ⟨"/"⟩, followAliases := true, followWorkspaces := true
    aliases := [("*", ⟨"a"⟩), ("ui", ⟨"b"⟩), ("ui/*", ⟨"c"⟩)]
    workspaceRoots := [⟨"packages/ui"⟩] }

end Resolver

end ImportAtlas
