import ImportAtlas.Exclude
import ImportAtlas.Proofs.Glob.Below
import ImportAtlas.Proofs.Path.Plain
import ImportAtlas.Proofs.Results

/-!
# Which files are left out

A file is left out when a pattern matches its path or what is left of that below the root.

* `Exclusion.IsRelative` — patterns that are relative to a directory;
* `Exclusion.ofPatterns_here` — in a list of patterns a `./` in front of one makes no difference;
* `Exclusion.IsFront.exists_compile_here` — behind a directory it does not decide whether the
  pattern is one;
* `Exclusion.IsFront.not_matchesInSet`, `Exclusion.excludes_singleton_of_plain` — but what is read
  then leaves out no plain path;
* `Exclusion.excludes_insert` — what one pattern more leaves out.
-/

namespace ImportAtlas.Exclusion

variable {root p : Path} {front pattern : String} {g : Glob}

/-- A pattern that is relative to a directory: it begins neither at the root nor with a `.`, and
not at any directory either. -/
structure IsRelative (pattern : String) : Prop where
  not_absolute : pattern.toList.head? ≠ some '/'
  not_dot : pattern.toList.head? ≠ some '.'
  not_deep : ¬ ['*', '*'] <+: pattern.toList

/-! ### Reading patterns -/

/-- Without a dot at its beginning a pattern is taken as it is. -/
theorem dropHere_of_head? {t : List Char} (h : t.head? ≠ some '.') : dropHere t = t := by
  fun_cases dropHere t with
  | case1 r => exact absurd rfl h
  | case2 => rfl

/-- A pattern that begins here is the same pattern without the beginning. -/
theorem dropHere_here (pattern : String) :
    dropHere ("./" ++ pattern).toList = dropHere pattern.toList := by
  rw [String.toList_append]
  rfl

/-- A pattern is compiled by parsing what is left of it, and errors have no other source. -/
theorem compile_eq_ok : compile pattern = .ok g ↔
    Glob.parse true (String.ofList (dropHere pattern.toList)) = .ok g := by
  rw [compile]
  split
  · next heq => rw [heq, Except.ok.injEq, Except.ok.injEq]
  · next heq => simp [heq]

/-- A `./` in front of a pattern makes no difference to what it is read as. -/
theorem compile_here : compile ("./" ++ pattern) = .ok g ↔ compile pattern = .ok g := by
  rw [compile_eq_ok, compile_eq_ok, dropHere_here]

theorem ofPatterns_eq_ok {patterns : List String} {e : Exclusion} :
    ofPatterns root patterns = .ok e ↔
      e.root = root ∧ patterns.map compile = e.globs.map .ok := by
  rw [ofPatterns]
  constructor
  · intro h
    -- one pattern that is malformed spoils them all
    cases hglobs : patterns.mapM compile with
    | error f =>
      rw [hglobs] at h
      cases h
    | ok globs =>
      rw [hglobs] at h
      cases h
      exact ⟨rfl, mapM_eq_ok_iff.mp hglobs⟩
  · -- when all are compiled, each has its glob in its place
    rintro ⟨rfl, hglobs⟩
    rw [mapM_eq_ok_iff.mpr hglobs]
    rfl

/-- Patterns are read one by one. -/
theorem ofPatterns_append {xs ys : List String} {e : Exclusion} :
    ofPatterns root (xs ++ ys) = .ok e ↔ ∃ gs hs, e = ⟨root, gs ++ hs⟩ ∧
      xs.map compile = gs.map .ok ∧ ys.map compile = hs.map .ok := by
  rw [ofPatterns_eq_ok]
  constructor
  · rintro ⟨rfl, hglobs⟩
    rw [List.map_append] at hglobs
    obtain ⟨gs, hs, hsplit, hgs, hhs⟩ := List.map_eq_append_iff.mp hglobs.symm
    exact ⟨gs, hs, by rw [← hsplit], hgs.symm, hhs.symm⟩
  · rintro ⟨gs, hs, rfl, hgs, hhs⟩
    exact ⟨rfl, by rw [List.map_append, hgs, hhs, List.map_append]⟩

/-- Patterns with one among them: it has its glob between those of the others. -/
theorem ofPatterns_insert {xs ys : List String} {e : Exclusion} :
    ofPatterns root (xs ++ pattern :: ys) = .ok e ↔ ∃ gs g hs, e = ⟨root, gs ++ g :: hs⟩ ∧
      xs.map compile = gs.map .ok ∧ compile pattern = .ok g ∧ ys.map compile = hs.map .ok := by
  rw [ofPatterns_append]
  constructor
  · rintro ⟨gs, hs, rfl, hgs, hhs⟩
    cases hs with
    | nil => cases hhs
    | cons g hs =>
      obtain ⟨hg, hhs⟩ := List.cons.inj hhs
      exact ⟨gs, g, hs, rfl, hgs, hg, hhs⟩
  · rintro ⟨gs, g, hs, rfl, hgs, hg, hhs⟩
    exact ⟨gs, g :: hs, rfl, hgs, by rw [List.map_cons, hg, hhs, List.map_cons]⟩

/-- In a list of patterns a `./` in front of one makes no difference. -/
theorem ofPatterns_here {xs ys : List String} {e : Exclusion} :
    ofPatterns root (xs ++ ("./" ++ pattern) :: ys) = .ok e ↔
      ofPatterns root (xs ++ pattern :: ys) = .ok e := by
  simp only [ofPatterns_insert, compile_here]

/-! ### Patterns below a directory -/

/-- The text of a directory, with a slash at its end, that is a pattern of its own: no class and no
group is left open in it. -/
structure IsFront (front : String) : Prop where
  not_dot : front.toList.head? ≠ some '.'
  slash : front.toList.getLast? = some '/'
  isPattern : ∃ g, Glob.parse true front = .ok g

namespace IsFront

/-- Behind a directory nothing is left out of a pattern, since it does not begin with a dot. -/
theorem compile_append (h : IsFront front) (pattern : String) :
    compile (front ++ pattern) = .ok g ↔ Glob.parse true (front ++ pattern) = .ok g := by
  have hne : front.toList ≠ [] := by
    intro hnil
    have hslash := h.slash
    rw [hnil] at hslash
    cases hslash
  have hhead : (front ++ pattern).toList.head? ≠ some '.' := by
    rw [String.toList_append, List.head?_append_of_ne_nil _ hne]
    exact h.not_dot
  rw [compile_eq_ok, dropHere_of_head? hhead, String.ofList_toList]

/-- A `./` behind the directory does not decide whether a pattern can be read. -/
theorem exists_compile_here (h : IsFront front) (hdeep : ¬ ['*', '*'] <+: pattern.toList) :
    (∃ g, compile (front ++ ("./" ++ pattern)) = .ok g) ↔
      ∃ g, compile (front ++ pattern) = .ok g := by
  obtain ⟨g, hg⟩ := h.isPattern
  obtain ⟨below, hbelow⟩ := Glob.exists_parse_append hg h.slash
  obtain ⟨hplain, hhere⟩ := hbelow pattern hdeep
  simp only [h.compile_append, hplain, hhere]
  cases below pattern <;> simp [Except.map]

/-- A pattern with a `./` behind the directory matches no plain path. -/
theorem not_matchesInSet (h : IsFront front) (hdeep : ¬ ['*', '*'] <+: pattern.toList)
    (hg : compile (front ++ ("./" ++ pattern)) = .ok g) (hp : p.Plain) :
    g.matchesInSet (Glob.bytesOf p.text.toList) = false := by
  obtain ⟨g₀, hg₀⟩ := h.isPattern
  obtain ⟨below, hbelow⟩ := Glob.exists_parse_append hg₀ h.slash
  obtain ⟨ks, k, hk, hslash, halone⟩ := Glob.exists_isSlash hg₀ h.slash
  rw [h.compile_append, (hbelow pattern hdeep).2] at hg
  cases hrest : below pattern with
  | error f =>
    rw [hrest] at hg
    cases hg
  | ok ls =>
    rw [hrest] at hg
    cases hg
    -- the parts are those of the directory, then a dot and a slash, then the rest
    have htokens : g₀.tokens ++ ([.literal '.', .literal '/'] ++ ls) =
        ks ++ [k] ++ (['.', '/'].map .literal ++ ls) := by
      rw [hk]
      rfl
    rw [Glob.matchesInSet, Bool.and_eq_false_iff]
    -- so a match would have `./` behind a slash, and a plain path has none
    refine .inr (Bool.eq_false_iff.mpr fun hmatch => hp.not_infix ?_)
    exact Glob.infix_of_matches (List.cons_ne_nil '.' ['/']) htokens hslash halone hmatch

end IsFront

/-! ### What is left out -/

/-- One pattern more leaves out what it leaves out alone. -/
theorem excludes_insert (root : Path) (gs : List Glob) (g : Glob) (hs : List Glob) (p : Path) :
    (⟨root, gs ++ g :: hs⟩ : Exclusion).excludes p =
      ((⟨root, gs ++ hs⟩ : Exclusion).excludes p || (⟨root, [g]⟩ : Exclusion).excludes p) := by
  -- a set of patterns matches if one of them does, so their order does not matter
  have hany (t : Glob.Bytes) : Glob.anyMatches (gs ++ g :: hs) t =
      (Glob.anyMatches (gs ++ hs) t || Glob.anyMatches [g] t) := by
    simp only [Glob.anyMatches, List.any_append, List.any_cons, List.any_nil, Bool.or_false]
    ac_rfl
  simp only [excludes, hany]
  cases p.relativeTo? root with
  | none => simp
  | some q =>
    simp only [Option.any_some]
    ac_rfl

/-- A glob that matches no plain text leaves out no plain path, whether it is asked about the path
or about what is left of it below the root. -/
theorem excludes_singleton_of_plain {p : Path} (hp : p.Plain)
    (h : ∀ q : Path, q.Plain → g.matchesInSet (Glob.bytesOf q.text.toList) = false) :
    (⟨root, [g]⟩ : Exclusion).excludes p = false := by
  simp only [excludes, Glob.anyMatches, List.any_cons, List.any_nil, Bool.or_false, h p hp,
    Bool.false_or]
  cases hrel : p.relativeTo? root with
  | none => rfl
  | some q => exact h q (hp.relativeTo? hrel)

end ImportAtlas.Exclusion
