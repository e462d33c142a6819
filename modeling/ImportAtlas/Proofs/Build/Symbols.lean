import ImportAtlas.Proofs.Build.ReExport
import Mathlib.Algebra.Ring.Nat
import Mathlib.Data.List.Dedup

/-!
# Symbols of redirected edges

An edge that takes symbols may give way to edges that take them from where their names lead to. Each
symbol is then called what it is called there, and keeps the alias of the import statement, if it
has one (`ReExportTable.moved`).

* `ReExportTable.keys_taken_redirect` — the edges in the place of an edge take what its symbols
  become, and each of these once;
* `ReExportTable.redirect_symbols` — so as many symbols are taken as before exactly when no two of
  them become one, and each is seen under the same name exactly when those without an alias are
  called the same where they lead to.

Modules are told apart by their steps and not by their texts, so that symbols are counted by the
steps of the module that they are taken from (`ReExportTable.keyOf`).
-/

namespace ImportAtlas

namespace ReExportTable

variable {table : ReExportTable} {target : Path} {name : String} {e : Edge} {edges : List Edge}
  {symbols : NameSet}

/-- What becomes of a symbol of an edge: the module that it is taken from, and what it is called
there. An edge that takes everything stays as it is. -/
def moved (table : ReExportTable) (e : Edge) (s : ImportedName) : Path × ImportedName :=
  if e.wildcard then (e.target, s)
  else ((table.follow e.target s.name).1, table.followed e.target s)

/-- Two symbols of an edge become the same symbol of one module. -/
def Merge (table : ReExportTable) (e : Edge) (s t : ImportedName) : Prop :=
  (table.moved e s).1.same (table.moved e t).1 ∧ (table.moved e s).2 = (table.moved e t).2

/-- The symbols that edges take, with the modules that they take them from. -/
def taken (edges : List Edge) : List (Path × ImportedName) :=
  edges.flatMap fun f => f.symbols.map fun n => (f.target, n)

/-- A symbol and the steps of its module. -/
def keyOf (symbol : Path × ImportedName) : List Component × ImportedName :=
  (symbol.1.components, symbol.2)

/-- Symbols are told apart by name, alias and the steps of the module: the text of its path does not
count. -/
theorem keyOf_eq_iff {x y : Path × ImportedName} :
    keyOf x = keyOf y ↔ x.1.same y.1 ∧ x.2 = y.2 := by
  rw [keyOf, keyOf, Prod.mk.injEq, Path.same_iff]

/-! ### Edges that stay -/

/-- A module that offers nothing of others declares what is taken from it. -/
theorem follow_of_none (h : table.of? target = none) (name : String) :
    table.follow target name = (target, name) := by
  have hhop : table.hop? target name = none := by rw [hop?, h, Option.bind_none]
  exact (follows_iff.mp (.declared Bool.false_ne_true hhop)).symm

/-- Nothing becomes of the symbols of a module that offers nothing of others. -/
theorem moved_of_none (h : table.of? e.target = none) (s : ImportedName) :
    table.moved e s = (e.target, s) := by
  rw [moved, followed, follow_of_none h, ite_self]

/-- An edge that is not redirected takes what it took. -/
theorem redirect_of_stays (h : e.wildcard ∨ e.symbols = [] ∨ table.of? e.target = none) :
    table.redirect e = [e] ∧ ∀ s ∈ e.symbols, table.moved e s = (e.target, s) := by
  constructor
  · rw [redirect, if_pos (by simpa [or_assoc] using h)]
  · intro s hs
    rcases h with hwildcard | hnil | hnone
    · rw [moved, if_pos hwildcard]
    · rw [hnil] at hs
      exact absurd hs List.not_mem_nil
    · exact moved_of_none hnone s

/-- Any other edge gives way to one edge for each group of its symbols. -/
theorem redirect_of_moves (h : ¬ (e.wildcard ∨ e.symbols = [] ∨ table.of? e.target = none)) :
    table.redirect e = (table.groups e.target e.symbols).map fun (target, symbols) =>
      { source := e.source, target, symbols } := by
  rw [redirect, if_neg (by simpa [or_assoc] using h)]

/-- Whatever takes the place of an edge belongs to the same importing file. -/
theorem source_of_mem_redirect {f : Edge} (h : f ∈ table.redirect e) : f.source = e.source := by
  by_cases hstays : e.wildcard ∨ e.symbols = [] ∨ table.of? e.target = none
  · rw [(redirect_of_stays hstays).1, List.mem_singleton] at h
    rw [h]
  · rw [redirect_of_moves hstays] at h
    obtain ⟨group, -, rfl⟩ := List.mem_map.mp h
    rfl

/-! ### Groups -/

/-- A symbol leads to a module when the way of its name ends there, whatever the text of the path
that it ends with. -/
theorem mem_symbolsTo_iff {p : Path} {n : ImportedName} :
    n ∈ table.symbolsTo target symbols p ↔
      ∃ s ∈ symbols, (table.follow target s.name).1.same p ∧ table.followed target s = n := by
  rw [symbolsTo, NameSet.mem_ofList, List.mem_map]
  simp only [List.mem_filter, and_assoc]

/-- The symbols of a group are those that lead to its module. -/
theorem eq_symbolsTo_of_mem_groups {group : Path × NameSet}
    (h : group ∈ table.groups target symbols) :
    group.2 = table.symbolsTo target symbols group.1 := by
  have hvalue := Keyed.value?_of_mem (table.ascending_groups target symbols) h
  rw [value?_groups] at hvalue
  split at hvalue
  · exact (Option.some.inj hvalue).symm
  · cases hvalue

/-- There is a group of the module that a symbol leads to. -/
theorem exists_group {s : ImportedName} (hs : s ∈ symbols) :
    ∃ group ∈ table.groups target symbols, group.1.same (table.follow target s.name).1 := by
  have hany : (symbols.any fun t =>
      (table.follow target t.name).1.same (table.follow target s.name).1) = true :=
    List.any_eq_true.mpr ⟨s, hs, Path.same_refl _⟩
  have hvalue := value?_groups table target symbols (table.follow target s.name).1
  rw [if_pos hany] at hvalue
  obtain ⟨k, hsame, hk⟩ := Keyed.mem_of_value? hvalue
  exact ⟨_, hk, hsame⟩

/-! ### What redirected edges take -/

/-- How many symbols edges take, with repetitions. -/
theorem length_taken (edges : List Edge) :
    (taken edges).length = (edges.map (·.symbols.length)).sum := by
  simp [taken, List.length_flatMap]

/-- A key is among those taken when a symbol of one of the edges has it. -/
theorem mem_keys_taken {k : List Component × ImportedName} :
    k ∈ (taken edges).map keyOf ↔ ∃ f ∈ edges, ∃ n ∈ f.symbols, keyOf (f.target, n) = k := by
  simp only [taken, List.map_flatMap, List.map_map, List.mem_flatMap, List.mem_map,
    Function.comp_apply]

/-- Every symbol is taken as what it becomes, and nothing else is taken. -/
theorem mem_keys_redirect {k : List Component × ImportedName} :
    k ∈ (taken (table.redirect e)).map keyOf ↔ ∃ s ∈ e.symbols, keyOf (table.moved e s) = k := by
  by_cases hstays : e.wildcard ∨ e.symbols = [] ∨ table.of? e.target = none
  · obtain ⟨hredirect, hmoved⟩ := redirect_of_stays hstays
    rw [hredirect, mem_keys_taken]
    simp only [List.mem_singleton, exists_eq_left]
    constructor
    · rintro ⟨s, hs, rfl⟩
      exact ⟨s, hs, by rw [hmoved s hs]⟩
    · rintro ⟨s, hs, rfl⟩
      exact ⟨s, hs, by rw [hmoved s hs]⟩
  · have hmoved : ∀ s, table.moved e s =
        ((table.follow e.target s.name).1, table.followed e.target s) := fun s =>
      if_neg fun hwildcard => hstays (.inl hwildcard)
    rw [redirect_of_moves hstays, mem_keys_taken]
    simp only [List.mem_map, hmoved]
    -- each symbol is in the group of the module that it leads to, and nothing else is there
    constructor
    · rintro ⟨_, ⟨group, hgroup, rfl⟩, n, hn, rfl⟩
      rw [eq_symbolsTo_of_mem_groups hgroup, mem_symbolsTo_iff] at hn
      obtain ⟨s, hs, hsame, rfl⟩ := hn
      exact ⟨s, hs, keyOf_eq_iff.mpr ⟨hsame, rfl⟩⟩
    · rintro ⟨s, hs, rfl⟩
      obtain ⟨group, hgroup, hsame⟩ := @exists_group table e.target e.symbols s hs
      refine ⟨_, ⟨group, hgroup, rfl⟩, table.followed e.target s, ?_,
        keyOf_eq_iff.mpr ⟨hsame, rfl⟩⟩
      rw [eq_symbolsTo_of_mem_groups hgroup, mem_symbolsTo_iff]
      exact ⟨s, hs, Path.same_symm hsame, rfl⟩

/-- No symbol is taken twice from one module. -/
theorem nodup_keys_redirect (table : ReExportTable) (hset : e.symbols.Ascending) :
    ((taken (table.redirect e)).map keyOf).Nodup := by
  have hkeys : ∀ p : Path, ∀ names : NameSet, names.Ascending →
      (names.map fun n => keyOf (p, n)).Nodup := fun p names h =>
    h.nodup.map fun m n heq => (Prod.mk.inj heq).2
  by_cases hstays : e.wildcard ∨ e.symbols = [] ∨ table.of? e.target = none
  · rw [(redirect_of_stays hstays).1]
    simpa [taken, Function.comp_def] using hkeys e.target e.symbols hset
  · rw [redirect_of_moves hstays, taken, List.flatMap_map, List.map_flatMap, List.nodup_flatMap]
    constructor
    · intro group hgroup
      have hasc : group.2.Ascending := by
        rw [eq_symbolsTo_of_mem_groups hgroup]
        exact NameSet.ascending_ofList _
      simpa [Function.comp_def] using hkeys group.1 group.2 hasc
    · -- the modules of two groups differ in their steps
      have hasc := table.ascending_groups e.target e.symbols
      refine (List.pairwise_map.mp hasc).imp fun {group group'} hlt k hk hk' => ?_
      simp only [List.map_map, List.mem_map, Function.comp_apply] at hk hk'
      obtain ⟨n, -, rfl⟩ := hk
      obtain ⟨n', -, heq⟩ := hk'
      exact Path.not_same_of_lt hlt (Path.same_symm (keyOf_eq_iff.mp heq).1)

/-- The edges in the place of an edge take what its symbols become, each of these once. -/
theorem keys_taken_redirect (table : ReExportTable) (hset : e.symbols.Ascending) :
    ((taken (table.redirect e)).map keyOf).Perm
      (e.symbols.map fun s => keyOf (table.moved e s)).dedup := by
  refine (List.perm_ext_iff_of_nodup (nodup_keys_redirect table hset) (List.nodup_dedup _)).mpr
    fun k => ?_
  rw [mem_keys_redirect, List.mem_dedup, List.mem_map]

/-- A list is as long without its repetitions exactly when it has none. -/
theorem length_dedup_map_eq_iff {α β : Type} [DecidableEq β] {xs : List α} (hxs : xs.Nodup)
    (f : α → β) :
    (xs.map f).dedup.length = xs.length ↔ ∀ x ∈ xs, ∀ y ∈ xs, f x = f y → x = y := by
  have hnodup : (xs.map f).dedup.length = xs.length ↔ (xs.map f).Nodup := by
    rw [← List.dedup_eq_self]
    constructor
    · intro hlength
      exact (List.dedup_sublist _).eq_of_length (by rw [hlength, List.length_map])
    · intro heq
      rw [heq, List.length_map]
  rw [hnodup, List.nodup_map_iff_inj_on hxs]

/-! ### What the importing module sees -/

/-- An alias stays with its symbol: only the name changes on the way. -/
theorem rename_moved (table : ReExportTable) (e : Edge) (s : ImportedName) :
    (table.moved e s).2.rename = s.rename := by
  rw [moved]
  split <;> rfl

/-- A symbol is seen under the same name when it has an alias, or is called the same where it leads
to. -/
theorem localName_moved (table : ReExportTable) (e : Edge) (s : ImportedName) :
    (table.moved e s).2.localName = s.localName ↔
      (s.rename = none → (table.moved e s).2.name = s.name) := by
  have hrename := table.rename_moved e s
  simp only [ImportedName.localName, hrename]
  cases s.rename <;> simp

/-- **Symbols of redirected edges.** The edges in the place of an edge take each of its symbols from
where it leads to. They take as many symbols as it does exactly when no two of them become one. Each
symbol is seen under the same name exactly when those without an alias are called the same where
they lead to; and then the importing module sees the same names. -/
theorem redirect_symbols (hset : e.symbols.Ascending) :
    let edges := table.redirect e
    let Own := ∀ s ∈ e.symbols, ∀ t ∈ e.symbols, table.Merge e s t → s = t
    let Called := ∀ s ∈ e.symbols, s.rename = none → (table.moved e s).2.name = s.name
    (∀ s ∈ e.symbols, ∃ f ∈ edges, f.source = e.source ∧ f.target.same (table.moved e s).1 ∧
      (table.moved e s).2 ∈ f.symbols) ∧
    ((edges.map (·.symbols.length)).sum ≤ e.symbols.length) ∧
    ((edges.map (·.symbols.length)).sum = e.symbols.length ↔ Own) ∧
    ((∀ s ∈ e.symbols, (table.moved e s).2.localName = s.localName) ↔ Called) ∧
    (Called → ∀ l, (∃ f ∈ edges, ∃ n ∈ f.symbols, n.localName = l) ↔
      ∃ s ∈ e.symbols, s.localName = l) := by
  intro edges Own Called
  -- so many symbols are taken as there are different ones among what the symbols become
  have hcount : (edges.map (·.symbols.length)).sum =
      (e.symbols.map fun s => keyOf (table.moved e s)).dedup.length := by
    rw [← length_taken, ← List.length_map keyOf, (keys_taken_redirect table hset).length_eq]
  refine ⟨fun s hs => ?_, ?_, ?_, ?_, fun hcalled l => ?_⟩
  · obtain ⟨f, hf, n, hn, hkey⟩ := mem_keys_taken.mp (mem_keys_redirect.mpr ⟨s, hs, rfl⟩)
    obtain ⟨hsame, heq⟩ := keyOf_eq_iff.mp hkey
    exact ⟨f, hf, source_of_mem_redirect hf, hsame, heq ▸ hn⟩
  · rw [hcount, ← List.length_map (fun s => keyOf (table.moved e s))]
    exact (List.dedup_sublist _).length_le
  · rw [hcount, length_dedup_map_eq_iff hset.nodup]
    simp only [keyOf_eq_iff]
    rfl
  · exact forall₂_congr fun s _ => table.localName_moved e s
  · constructor
    · rintro ⟨f, hf, n, hn, rfl⟩
      obtain ⟨s, hs, hkey⟩ := mem_keys_redirect.mp (mem_keys_taken.mpr ⟨f, hf, n, hn, rfl⟩)
      -- what is called the same where it leads to is seen under the same name
      have hsame := (table.localName_moved e s).mpr (hcalled s hs)
      rw [(keyOf_eq_iff.mp hkey).2] at hsame
      exact ⟨s, hs, hsame.symm⟩
    · rintro ⟨s, hs, rfl⟩
      obtain ⟨f, hf, n, hn, hkey⟩ := mem_keys_taken.mp (mem_keys_redirect.mpr ⟨s, hs, rfl⟩)
      have hsame := (table.localName_moved e s).mpr (hcalled s hs)
      rw [← (keyOf_eq_iff.mp hkey).2] at hsame
      exact ⟨f, hf, n, hn, hsame⟩

/-- Two symbols of a module that has both from another one: one of them is called otherwise there
and has an alias where it is imported, the other has none and keeps its name. -/
theorem redirect_symbols_of_two :
    let a : Path := ⟨"/p/a.js"⟩
    let b : Path := ⟨"/p/b.js"⟩
    let table : ReExportTable := [(a, [⟨b, [⟨"w", some "x"⟩, ⟨"z", none⟩]⟩])]
    let e : Edge :=
      { source := ⟨"/p/app.js"⟩, target := a, symbols := [⟨"x", some "v"⟩, ⟨"z", none⟩] }
    e.symbols.Ascending ∧ ((table.redirect e).map (·.symbols.length)).sum = e.symbols.length ∧
      ∀ l, (∃ f ∈ table.redirect e, ∃ n ∈ f.symbols, n.localName = l) ↔
        ∃ s ∈ e.symbols, s.localName = l := by
  intro a b table e
  have hset : e.symbols.Ascending := by
    unfold NameSet.Ascending
    decide +kernel
  obtain ⟨-, -, hcount, -, hlocal⟩ := @redirect_symbols table e hset
  -- the two names are declared under different names, so they are not merged
  have hmerge : ∀ s ∈ e.symbols, ∀ t ∈ e.symbols, table.Merge e s t → s = t := by
    unfold Merge
    decide +kernel
  exact ⟨hset, hcount.mpr hmerge, hlocal (by decide +kernel)⟩

/-- A module that offers one symbol of another module under two names. Whoever imports both takes
one symbol of the other module, and sees it under a name that the import statement does not have. -/
theorem redirect_twoNames :
    let a : Path := ⟨"/p/a.js"⟩
    let b : Path := ⟨"/p/b.js"⟩
    let table : ReExportTable := [(a, [⟨b, [⟨"w", some "x"⟩, ⟨"w", some "z"⟩]⟩])]
    let e : Edge :=
      { source := ⟨"/p/app.js"⟩, target := a, symbols := [⟨"x", none⟩, ⟨"z", none⟩] }
    table.redirect e = [{ source := ⟨"/p/app.js"⟩, target := b, symbols := [⟨"w", none⟩] }] ∧
      ((table.redirect e).map (·.symbols.length)).sum ≠ e.symbols.length ∧
      ¬ ∀ l, (∃ f ∈ table.redirect e, ∃ n ∈ f.symbols, n.localName = l) ↔
        ∃ s ∈ e.symbols, s.localName = l := by
  intro a b table e
  have hredirect : table.redirect e =
      [{ source := ⟨"/p/app.js"⟩, target := b, symbols := [⟨"w", none⟩] }] := by
    decide +kernel
  -- `w` is a local name behind the redirection and was none before
  have hlocal : ¬ ∃ s ∈ e.symbols, s.localName = "w" := by decide
  rw [hredirect]
  exact ⟨rfl, by decide, fun h => hlocal ((h "w").mp ⟨_, .head _, ⟨"w", none⟩, .head _, rfl⟩)⟩

end ReExportTable

end ImportAtlas
