import ImportAtlas.Resolve
import Mathlib.Data.List.Infix
import Mathlib.Data.Prod.Basic
import Mathlib.Logic.Function.Iterate

/-!
# What an import resolves to

Resolving an import is one search: all paths that may be meant stand in a list, and the first of
them that is a file is the answer.

* `Resolver.Begins` — where the search begins: a directory, the segments below it, and perhaps the
  entry file of a package; said without the search;
* `Resolver.forms`, `Resolver.attempts` — the files that a path may mean, and the list of all
  attempts, the longest path first;
* `Resolver.lookup?_eq`, `Resolver.find?_attemptsBelow` — the nested search finds the first hit of
  the list;
* `Resolver.resolve_firstHit` — the answer is made of the first hit.
-/

namespace ImportAtlas

namespace Resolver

/-- A path that is tried, and whether it takes all segments of the import. -/
structure Attempt where
  path : Path
  whole : Bool
deriving DecidableEq

/-- The files that a path may mean: itself, with an extension, or its index file when it is a
directory. -/
def forms (r : Resolver) (p : Path) : List Path :=
  [p] ++ r.language.extensions.map (fun e => ⟨p.text ++ "." ++ e⟩) ++
    if r.disk.isDirectory p then
      (r.language.indexFiles.product r.language.extensions).map fun (index, e) =>
        p.join (index ++ "." ++ e)
    else []

/-- The beginnings of a list of segments that may name a module, the longest first. -/
def fronts (l : Language) (segments : List String) : List (List String) :=
  if l.allowsPartialPaths then segments.inits.reverse else [segments]

/-- The attempts below a directory: the longest beginning of the segments first, each in all
forms. -/
def attemptsBelow (r : Resolver) (base : Path) (segments : List String) : List Attempt :=
  (fronts r.language segments).flatMap fun front =>
    (r.forms (front.foldl Path.join base)).map (⟨·, front.length = segments.length⟩)

/-- All attempts, in the order in which they are made. -/
def attempts (r : Resolver) (entry : Option Path) (base : Path) (segments : List String) :
    List Attempt :=
  (entry.toList.flatMap r.forms).map (⟨·, true⟩) ++ r.attemptsBelow base segments

/-- Where the search for an import begins: perhaps with an entry file, then at the segments below a
directory. -/
inductive Begins (r : Resolver) (record : ImportRecord) (source : Path) :
    Option Path → Path → List String → Prop
  /-- The directory of the file, and one more up for each further dot. -/
  | relative {d : Nat} {dir : Path} (hdepth : record.depth = d + 1)
      (hup : (·.bind Path.parent?)^[d] (some (r.language.moduleDir source)) = some dir) :
      Begins r record source none dir record.path
  /-- The first alias that the import begins with. -/
  | aliased {before after : List Alias} {a : Alias} {rest : List Char} (hdepth : record.depth = 0)
      (haliases : r.aliases = before ++ a :: after)
      (hbefore : ∀ b ∈ before, b.rest? ("/".intercalate record.path) = none)
      (hrest : a.rest? ("/".intercalate record.path) = some rest) :
      Begins r record source (if Alias.segments rest = [] then a.entry else none) a.target
        (Alias.segments rest)
  /-- The root of the sources. -/
  | rooted {segments : List String} (hdepth : record.depth = 0)
      (haliases : ∀ a ∈ r.aliases, a.rest? ("/".intercalate record.path) = none)
      (hrooted : r.language.rootedSegments? record = some segments) :
      Begins r record source none r.sourceRoot segments

/-- The answer to an import. An item of the importing file itself is none, as is something from
elsewhere. -/
def answer (r : Resolver) (record : ImportRecord) (source : Path) :
    Option Attempt → Except Unresolved (Option Path)
  | some hit =>
    let id := r.disk.canonical hit.path
    if !hit.whole ∧ id.same source then .ok none else .ok (some id)
  | none =>
    if record.depth = 0 ∧ r.language.isExternal record then .ok none
    else .error { specifier := record.specifier, source }

variable {r : Resolver} {record : ImportRecord} {source : Path} {base : Path}
  {segments : List String}

/-! ### The list of attempts -/

/-- The files that are asked for are the forms that the language has for a module. -/
theorem candidates_eq (r : Resolver) (p : Path) : r.candidates p = r.forms p := by
  have hindexes : ∀ indexes exts : List String,
      (indexes.flatMap fun i => exts.map fun e => p.join (i ++ "." ++ e)) =
        (indexes.product exts).map fun (i, e) => p.join (i ++ "." ++ e) := by
    intro indexes exts
    rw [List.product, List.map_flatMap]
    simp only [List.map_map]
    rfl
  rw [candidates, hindexes]
  rfl

theorem lookup?_eq (r : Resolver) (p : Path) : r.lookup? p = (r.forms p).find? r.disk.isFile := by
  rw [lookup?, candidates_eq]

/-- The beginnings of a list are those of each length. -/
theorem fronts_eq (r : Resolver) (segments : List String) :
    fronts r.language segments = (r.lengths segments).map segments.take := by
  rw [fronts, lengths]
  split
  · rw [List.map_reverse]
    refine congrArg List.reverse (List.ext_getElem ?_ fun k hk _ => ?_)
    · simp
    · simp
  · simp

/-- The search from the longest path to the shortest finds the first hit of the list. -/
theorem find?_attemptsBelow (r : Resolver) (base : Path) (segments : List String) :
    (r.attemptsBelow base segments).find? (r.disk.isFile ·.path) =
      (r.find? base segments).map fun (file, k) => ⟨file, !decide (k < segments.length)⟩ := by
  -- an attempt is for all of the segments exactly if none is left over
  have hwhole : ∀ k, decide ((segments.take k).length = segments.length) =
      !decide (k < segments.length) := by
    intro k
    rw [← decide_not, List.length_take]
    exact decide_eq_decide.mpr (by omega)
  rw [attemptsBelow, fronts_eq, List.flatMap_map, List.find?_flatMap, find?, List.map_findSome?]
  refine congrArg (List.findSome? · _) (funext fun k => ?_)
  rw [Function.comp_apply, lookup?_eq, List.find?_map, Option.map_map, hwhole]
  rfl

/-- The entry of an alias is tried before anything below its target. -/
theorem find?_attempts (r : Resolver) (entry : Option Path) (base : Path)
    (segments : List String) :
    (r.attempts entry base segments).find? (r.disk.isFile ·.path) =
      ((entry.bind r.lookup?).map (⟨·, true⟩)).or
        ((r.attemptsBelow base segments).find? (r.disk.isFile ·.path)) := by
  rw [attempts, List.find?_append, List.find?_map]
  cases entry with
  | none => rfl
  | some e =>
    rw [Option.toList_some, List.flatMap_singleton, Option.bind_some, lookup?_eq]
    rfl

/-! ### Where the search begins -/

/-- Going up is taking the parent, step by step. -/
theorem up?_eq (n : Nat) (p : Path) : up? n p = (·.bind Path.parent?)^[n] (some p) := by
  induction n generalizing p with
  | zero => rfl
  | succ n ih =>
    rw [Function.iterate_succ_apply, Option.bind_some, up?]
    cases p.parent? with
    | none => exact (Function.iterate_fixed rfl n).symm
    | some q => exact ih q

/-- No alias is found if none matches. -/
theorem matchAlias?_eq_none {specifier : String} :
    r.matchAlias? specifier = none ↔ ∀ a ∈ r.aliases, a.rest? specifier = none := by
  simp [matchAlias?]

/-- The first alias that a specifier begins with is the one that counts. -/
theorem matchAlias?_eq_some {specifier : String} {a : Alias} :
    r.matchAlias? specifier = some (a, segments) ↔
      ∃ before after rest, r.aliases = before ++ a :: after ∧
        (∀ b ∈ before, b.rest? specifier = none) ∧ a.rest? specifier = some rest ∧
        Alias.segments rest = segments := by
  simp only [matchAlias?, List.findSome?_eq_some_iff, Option.map_eq_some_iff,
    Option.map_eq_none_iff, Prod.mk.injEq]
  constructor
  · rintro ⟨before, b, after, haliases, ⟨rest, hrest, rfl, hsegments⟩, hbefore⟩
    exact ⟨before, after, rest, haliases, hbefore, hrest, hsegments⟩
  · rintro ⟨before, after, rest, haliases, hbefore, hrest, hsegments⟩
    exact ⟨before, a, after, haliases, ⟨rest, hrest, rfl, hsegments⟩, hbefore⟩

/-- The beginning of a search with an entry file or without. -/
def startAt (base : Path) (segments : List String) : Option Path → Start
  | some entry => .package entry base
  | none => .below base segments

/-- **Where a search starts** is where it begins by the rules. -/
theorem start_of_begins {entry : Option Path} (h : r.Begins record source entry base segments) :
    r.start record source = startAt base segments entry ∧ (entry.isSome → segments = []) := by
  cases h with
  | relative hdepth hup =>
    rw [← up?_eq] at hup
    simp [start, hdepth, hup, startAt]
  -- an alias for one file has that file looked up first
  | @aliased before after a rest hdepth haliases hbefore hrest =>
    have halias : r.matchAlias? ("/".intercalate record.path) = some (a, Alias.segments rest) :=
      matchAlias?_eq_some.mpr ⟨before, after, rest, haliases, hbefore, hrest, rfl⟩
    simp only [start, hdepth, halias]
    cases hsegments : Alias.segments rest <;> cases hentry : a.entry <;> simp [startAt]
  | rooted hdepth haliases hrooted =>
    simp [start, hdepth, matchAlias?_eq_none.mpr haliases, hrooted, startAt]

/-- Where a search begins, it begins in one of the three ways. -/
theorem start_of_not_begins
    (h : ∀ entry base segments, ¬ r.Begins record source entry base segments) :
    r.start record source = .nowhere := by
  cases hdepth : record.depth with
  | succ d =>
    -- there are more dots than directories
    cases hup : up? d (r.language.moduleDir source) with
    | none => simp only [start, hdepth, hup]
    | some dir => exact absurd (.relative hdepth (up?_eq d _ ▸ hup)) (h none dir record.path)
  | zero =>
    cases halias : r.matchAlias? ("/".intercalate record.path) with
    | some found =>
      -- an alias that is found is where the search would begin
      obtain ⟨before, after, rest, haliases, hbefore, hrest, -⟩ := matchAlias?_eq_some.mp halias
      exact absurd (.aliased hdepth haliases hbefore hrest) (h _ _ _)
    | none =>
      cases hrooted : r.language.rootedSegments? record with
      | none => simp only [start, hdepth, halias, hrooted]
      | some segments =>
        exact absurd (.rooted hdepth (matchAlias?_eq_none.mp halias) hrooted) (h none _ segments)

/-! ### The answer -/

/-- A search below a directory answers with the first attempt that is a file. -/
theorem search_eq (r : Resolver) (record : ImportRecord) (source base : Path)
    (segments : List String) :
    (match r.find? base segments with
      | none => r.answer record source none
      | some (file, k) =>
        if k < segments.length ∧ (r.disk.canonical file).same source then .ok none
        else .ok (some (r.disk.canonical file))) =
      r.answer record source ((r.attemptsBelow base segments).find? (r.disk.isFile ·.path)) := by
  rw [find?_attemptsBelow]
  cases r.find? base segments with
  | none => rfl
  | some hit => simp [answer]

/-- Where the search for an import begins, the first attempt that is a file makes the answer; where
it begins nowhere, the answer is that of no hit. -/
theorem resolve_firstHit (r : Resolver) (record : ImportRecord) (source : Path) :
    (∀ entry base segments, r.Begins record source entry base segments →
      r.resolve record source = r.answer record source
        ((r.attempts entry base segments).find? (r.disk.isFile ·.path))) ∧
    ((∀ entry base segments, ¬ r.Begins record source entry base segments) →
      r.resolve record source = r.answer record source none) := by
  constructor
  · intro entry base segments h
    obtain ⟨hstart, hentry⟩ := start_of_begins h
    rw [resolve, hstart, find?_attempts]
    -- the file that a path begins with is looked up before anything below the base
    cases entry with
    | none => exact r.search_eq record source base segments
    | some e =>
      obtain rfl := hentry rfl
      simp only [startAt, Option.bind_some]
      cases r.lookup? e with
      | none => exact r.search_eq record source base []
      | some file => simp [answer]
  · intro h
    rw [resolve, start_of_not_begins h]
    rfl

/-- An item of a module whose file is the index file of a directory: the path without the item is
the first that leads to a file. -/
theorem resolve_firstHit_of_item :
    let tree : FileTree := .directory [("src", .directory
      [("lib.rs", .file .empty), ("graph", .directory [("mod.rs", .file .empty)])])]
    let r : Resolver :=
      { disk := { tree }, language := .rust, sourceRoot := ⟨"/src"⟩, aliases := [] }
    let record : ImportRecord := { path := ["crate", "graph", "Edge"] }
    r.Begins record ⟨"/src/lib.rs"⟩ none ⟨"/src"⟩ ["graph", "Edge"] ∧
      r.resolve record ⟨"/src/lib.rs"⟩ = .ok (some ⟨"/src/graph/mod.rs"⟩) ∧
      r.resolve record ⟨"/src/graph/mod.rs"⟩ = .ok none := by
  intro tree r record
  have hbegins : ∀ source, r.Begins record source none ⟨"/src"⟩ ["graph", "Edge"] := fun source =>
    .rooted rfl (fun a ha => absurd ha List.not_mem_nil) rfl
  refine ⟨hbegins _, ?_, ?_⟩
  · exact ((resolve_firstHit r record ⟨"/src/lib.rs"⟩).1 _ _ _ (hbegins _)).trans
      (by decide +kernel)
  · exact ((resolve_firstHit r record ⟨"/src/graph/mod.rs"⟩).1 _ _ _ (hbegins _)).trans
      (by decide +kernel)

end Resolver

end ImportAtlas
