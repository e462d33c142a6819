import ImportAtlas.Build.ReExport
import ImportAtlas.Proofs.Keyed
import ImportAtlas.Proofs.Names

/-!
# Following re-exports

Where a name leads to in a table of re-exports, and which edges take the place of an edge.

* `ReExportTable.Follows` — the way of a name, hop by hop and without a bound on its length;
* `ReExportTable.follows_iff` — in every table, with circles or without, the way ends, and where it
  ends is what `ReExportTable.follow` finds;
* `ReExportTable.Redirected` — the edges that take the place of an edge;
* `ReExportTable.mem_redirect` — these are the ones that `ReExportTable.redirect` gives.

A hop leaves a module that the table has and that the way has not passed before, so that the entries
of modules not yet passed become fewer with every hop (`left_cons_lt`).
-/

namespace ImportAtlas

namespace ReExportTable

variable {table table' : ReExportTable} {seen : List Path} {id next target p q : Path}
  {name inner : String} {r r' : Path × String} {symbols : NameSet} {e f : Edge}

/-! ### Offers -/

/-- No two entries of a table are of the same module. -/
def Distinct (table : ReExportTable) : Prop :=
  table.Pairwise fun entry entry' => ¬ entry.1.same entry'.1

/-- A re-export table is a keyed list, looked up like the others. -/
theorem of?_eq (table : ReExportTable) (p : Path) : table.of? p = Keyed.value? table p := rfl

/-- What a module offers is what the table has for it. -/
theorem Distinct.of?_eq_some {offers : List ReExport} (h : table.Distinct) :
    table.of? p = some offers ↔ ∃ k, (k, offers) ∈ table ∧ k.same p := by
  rw [of?_eq]
  constructor
  · intro hvalue
    obtain ⟨k, hsame, hk⟩ := Keyed.mem_of_value? hvalue
    exact ⟨k, hk, hsame⟩
  · rintro ⟨k, hk, hsame⟩
    induction h with
    | nil => exact absurd hk List.not_mem_nil
    | @cons entry table hdiffer _ ih =>
      rw [Keyed.value?_cons]
      rcases List.mem_cons.mp hk with rfl | hk
      · rw [if_pos hsame]
      · -- an entry in front is of another module
        have hne : ¬ entry.1.same p := fun hentry =>
          hdiffer _ hk (Path.same_trans hentry (Path.same_symm hsame))
        rw [if_neg hne, ih hk]

/-- Tables with the same entries offer the same. -/
theorem Distinct.of?_congr (h : table.Distinct) (h' : table'.Distinct)
    (hentries : ∀ entry, entry ∈ table ↔ entry ∈ table') (p : Path) :
    table.of? p = table'.of? p := by
  refine Option.ext fun offers => ?_
  rw [h.of?_eq_some, h'.of?_eq_some]
  simp only [hentries]

/-! ### The way of a name -/

/-- The way of a name ends with `r`, `seen` being the modules that it has passed. It ends at a
module that it has passed before and at one that does not take the name from another. -/
inductive Follows (table : ReExportTable) : List Path → Path → String → Path × String → Prop where
  | back {seen : List Path} {id : Path} {name : String} (hseen : id.among seen) :
    Follows table seen id name (id, name)
  | declared {seen : List Path} {id : Path} {name : String} (hseen : ¬ id.among seen)
    (hhop : table.hop? id name = none) : Follows table seen id name (id, name)
  | hop {seen : List Path} {id next : Path} {name inner : String} {r : Path × String}
    (hseen : ¬ id.among seen) (hhop : table.hop? id name = some (next, inner))
    (hrest : Follows table (id :: seen) next inner r) : Follows table seen id name r

/-- A way ends in one place only. -/
theorem Follows.unique (h : table.Follows seen id name r) (h' : table.Follows seen id name r') :
    r = r' := by
  induction h with
  | back hseen =>
    -- a way that has come back to a module is over there
    cases h' with
    | back => rfl
    | declared => rfl
    | hop hseen' => exact absurd hseen hseen'
  | declared hseen hhop =>
    cases h' with
    | back => rfl
    | declared => rfl
    | hop _ hhop' => simp [hhop] at hhop'
  | hop hseen hhop _ ih =>
    cases h' with
    | back hseen' => exact absurd hseen' hseen
    | declared _ hhop' => simp [hhop] at hhop'
    | hop _ hhop' hrest' =>
      -- both ways make the same hop, from where there is one way only
      obtain ⟨rfl, rfl⟩ : _ ∧ _ := by simpa [hhop] using hhop'
      exact ih hrest'

/-- How many entries of a table are of modules that a way has not passed. -/
def left (table : ReExportTable) (seen : List Path) : Nat :=
  (table.filter fun entry => !entry.1.among seen).length

/-- A hop is made by an entry of the table, and leads to the target of one of its offers. -/
theorem exists_entry_of_hop (h : table.hop? id name = some r) :
    ∃ entry ∈ table, entry.1.same id ∧ ∃ offer ∈ entry.2, offer.target = r.1 := by
  obtain ⟨offers, hof, hfind⟩ := Option.bind_eq_some_iff.mp h
  obtain ⟨entry, hentry, rfl⟩ := Option.map_eq_some_iff.mp hof
  obtain ⟨offer, hoffer, hname⟩ := List.exists_of_findSome?_eq_some hfind
  obtain ⟨n, -, rfl⟩ := Option.map_eq_some_iff.mp hname
  exact ⟨entry, List.mem_of_find?_eq_some hentry, by simpa using List.find?_some hentry, offer,
    hoffer, rfl⟩

/-- A hop leaves one module less to pass: the one it starts from has an entry. This is the measure
by which every way ends. -/
theorem left_cons_lt (hseen : ¬ id.among seen) (h : table.hop? id name = some r) :
    table.left (id :: seen) < table.left seen := by
  obtain ⟨entry, hentry, hsame, -⟩ := exists_entry_of_hop h
  exact Path.length_unseen_lt (Path.among_cons · id seen) hentry (Path.same_symm hsame) hseen

/-- A bound that reaches for all modules not yet passed does not cut the way short. -/
theorem follows_followFrom (n : Nat) (hn : table.left seen ≤ n) :
    table.Follows seen id name (table.followFrom seen n id name) := by
  induction n generalizing seen id name with
  | zero =>
    by_cases hseen : id.among seen
    · exact .back hseen
    · -- no entry is left, so that no hop starts from here
      refine .declared hseen (Option.eq_none_iff_forall_ne_some.mpr fun r hr => ?_)
      have hlt := left_cons_lt hseen hr
      omega
  | succ n ih =>
    rw [followFrom]
    split
    · next hseen => exact .back hseen
    · next hseen =>
      split
      · next hhop => exact .declared hseen hhop
      · next hhop =>
        -- the hop uses up an entry, so the bound less one is still enough
        have hlt := left_cons_lt hseen hhop
        exact .hop hseen hhop (ih (by omega))

/-- **The way of a name ends** in every table, and it ends where `follow` says. -/
theorem follows_iff : table.Follows [] id name r ↔ r = table.follow id name := by
  have hfollow : table.Follows [] id name (table.follow id name) :=
    follows_followFrom table.length (List.length_filter_le _ _)
  constructor
  · exact fun h => h.unique hfollow
  · rintro rfl
    exact hfollow

/-- The way depends on nothing but what each module offers. -/
theorem Follows.congr (hof : ∀ p, table.of? p = table'.of? p)
    (h : table.Follows seen id name r) : table'.Follows seen id name r := by
  have hhop? : ∀ p n, table.hop? p n = table'.hop? p n := fun p n => by rw [hop?, hof]; rfl
  induction h with
  | back hseen => exact .back hseen
  | declared hseen hhop => exact .declared hseen (by rwa [← hhop?])
  | hop hseen hhop _ ih => exact .hop hseen (by rwa [← hhop?]) ih

/-- Where a name is declared depends on what each module offers, not on the order of the table. -/
theorem follow_congr (hof : ∀ p, table.of? p = table'.of? p) (id : Path) (name : String) :
    table.follow id name = table'.follow id name :=
  follows_iff.mp ((follows_iff.mpr rfl).congr hof)

/-- A way that begins in a set of modules ends there, if all that is offered is taken from there. -/
theorem Follows.end_mem {P : Path → Prop}
    (hoffers : ∀ entry ∈ table, ∀ offer ∈ entry.2, P offer.target)
    (h : table.Follows seen id name r) (hid : P id) : P r.1 := by
  induction h with
  | back => exact hid
  | declared => exact hid
  | hop _ hhop _ ih =>
    obtain ⟨entry, hentry, -, offer, hoffer, heq⟩ := exists_entry_of_hop hhop
    have hnext := hoffers entry hentry offer hoffer
    rw [heq] at hnext
    exact ih hnext

/-! ### Groups of symbols -/

/-- A symbol of a module, as the module calls it where its name leads to. -/
def followed (table : ReExportTable) (target : Path) (symbol : ImportedName) : ImportedName :=
  { symbol with name := (table.follow target symbol.name).2 }

/-- The symbols of an import that lead to a module. -/
def symbolsTo (table : ReExportTable) (target : Path) (symbols : NameSet) (p : Path) : NameSet :=
  NameSet.ofList ((symbols.filter fun s => (table.follow target s.name).1.same p).map
    (table.followed target))

/-- No two of the modules that symbols lead to are the same but for their texts. -/
def EndsApart (table : ReExportTable) (target : Path) (symbols : NameSet) : Prop :=
  ∀ s ∈ symbols, ∀ t ∈ symbols,
    (table.follow target s.name).1.same (table.follow target t.name).1 →
      (table.follow target s.name).1 = (table.follow target t.name).1

/-- The symbols that lead to where one of them does. -/
theorem mem_symbolsTo {s n : ImportedName} (hends : table.EndsApart target symbols)
    (hs : s ∈ symbols) :
    n ∈ table.symbolsTo target symbols (table.follow target s.name).1 ↔
      ∃ t ∈ symbols, table.follow target t.name = ((table.follow target s.name).1, n.name) ∧
        n.rename = t.rename := by
  rw [symbolsTo, NameSet.mem_ofList, List.mem_map]
  constructor
  · rintro ⟨t, ht, rfl⟩
    -- the two modules are the same, so they are equal by `hends`
    obtain ⟨ht, hsame⟩ := List.mem_filter.mp ht
    exact ⟨t, ht, Prod.ext (hends t ht s hs hsame) rfl, rfl⟩
  · rintro ⟨t, ht, hfollow, hrename⟩
    refine ⟨t, List.mem_filter.mpr ⟨ht, by rw [hfollow]; exact Path.same_refl _⟩, ?_⟩
    simp [followed, hfollow, ← hrename]

/-- Groups are a table of sets of names. -/
theorem addToGroup_eq (id : Path) (symbol : ImportedName) (groups : List (Path × NameSet)) :
    addToGroup id symbol groups =
      Keyed.alter id (fun names => NameSet.insert symbol (names.getD [])) groups := by
  induction groups with
  | nil => rfl
  | cons group groups ih =>
    simp only [addToGroup, Keyed.alter]
    cases id.order group.1 with
    | lt => rfl
    | eq => rfl
    | gt => exact congrArg (group :: ·) ih

/-- One symbol more is put into the group of the module that it leads to. The list grows at its end,
as the fold takes it. -/
theorem groups_concat (table : ReExportTable) (target : Path) (symbols : NameSet)
    (symbol : ImportedName) :
    table.groups target (symbols ++ [symbol]) =
      Keyed.alter (table.follow target symbol.name).1
        (fun names => NameSet.insert (table.followed target symbol) (names.getD []))
        (table.groups target symbols) := by
  rw [← addToGroup_eq, groups, List.foldl_append]
  rfl

/-- There is one group for each module, and they are sorted. -/
theorem ascending_groups (table : ReExportTable) (target : Path) (symbols : NameSet) :
    Keyed.Ascending (table.groups target symbols) := by
  induction symbols using List.reverseRecOn with
  | nil => exact .nil
  | append_singleton symbols symbol ih =>
    rw [groups_concat]
    exact Keyed.ascending_alter ih _ _

/-- No group is there without a symbol that leads to its module. -/
theorem exists_symbol_of_mem_groups {group : Path × NameSet}
    (h : group ∈ table.groups target symbols) :
    ∃ s ∈ symbols, (table.follow target s.name).1 = group.1 := by
  induction symbols using List.reverseRecOn generalizing group with
  | nil => exact absurd h List.not_mem_nil
  | append_singleton symbols symbol ih =>
    rw [groups_concat] at h
    rcases Keyed.fst_mem_alter h with heq | hmem
    · exact ⟨symbol, by simp, heq.symm⟩
    · obtain ⟨g, hg, heq⟩ := List.mem_map.mp hmem
      obtain ⟨s, hs, hs'⟩ := ih hg
      exact ⟨s, List.mem_append_left _ hs, hs'.trans heq⟩

/-- The group of a module is that of all symbols that lead to it. -/
theorem value?_groups (table : ReExportTable) (target : Path) (symbols : NameSet) (p : Path) :
    Keyed.value? (table.groups target symbols) p =
      if symbols.any fun s => (table.follow target s.name).1.same p then
        some (table.symbolsTo target symbols p)
      else none := by
  induction symbols using List.reverseRecOn with
  | nil => rfl
  | append_singleton symbols symbol ih =>
    rw [groups_concat, Keyed.value?_alter (table.ascending_groups target symbols), symbolsTo,
      List.filter_append, List.map_append, List.any_append]
    by_cases hp : (table.follow target symbol.name).1.same p
    · -- the symbol joins those that have led there before, if there are any
      have hbefore : (Keyed.value? (table.groups target symbols)
          (table.follow target symbol.name).1).getD [] = table.symbolsTo target symbols p := by
        rw [Keyed.value?_congr hp, ih]
        split
        · rfl
        · next hnone =>
          have hnil : (symbols.filter fun s => (table.follow target s.name).1.same p) = [] := by
            simpa [List.filter_eq_nil_iff] using hnone
          rw [symbolsTo, hnil]
          rfl
      rw [if_pos hp, hbefore]
      simp [hp, NameSet.ofList_concat, symbolsTo]
    · rw [if_neg hp, ih]
      simp [hp, symbolsTo]

/-- The groups, when no two of their modules are the same but for their texts. -/
theorem mem_groups {names : NameSet} (hends : table.EndsApart target symbols) :
    (p, names) ∈ table.groups target symbols ↔
      (∃ s ∈ symbols, (table.follow target s.name).1 = p) ∧
        names = table.symbolsTo target symbols p := by
  have hvalue : ∀ s ∈ symbols, (table.follow target s.name).1 = p →
      Keyed.value? (table.groups target symbols) p = some (table.symbolsTo target symbols p) := by
    rintro s hs rfl
    rw [value?_groups, if_pos]
    exact List.any_eq_true.mpr ⟨s, hs, Path.same_refl _⟩
  constructor
  · intro h
    obtain ⟨s, hs, heq⟩ := exists_symbol_of_mem_groups h
    have hnames := Keyed.value?_of_mem (table.ascending_groups target symbols) h
    exact ⟨⟨s, hs, heq⟩, Option.some.inj (hnames.symm.trans (hvalue s hs heq))⟩
  · rintro ⟨⟨s, hs, heq⟩, rfl⟩
    obtain ⟨k, hsame, hk⟩ := Keyed.mem_of_value? (hvalue s hs heq)
    -- the group is kept at the end of some symbol, which is this one
    obtain ⟨t, ht, htk⟩ := exists_symbol_of_mem_groups hk
    obtain rfl : (table.follow target t.name).1 = k := htk
    subst heq
    rwa [hends t ht s hs hsame] at hk

/-! ### Redirected edges -/

/-- `f` is one of the edges that take the place of `e`. An edge that takes everything, or no symbol,
or from a module that offers nothing of others, stays. Any other gives way to an edge for each
module that its symbols lead to, which takes just these, called as they are called there. -/
def Redirected (table : ReExportTable) (e f : Edge) : Prop :=
  if e.wildcard ∨ e.symbols = [] ∨ table.of? e.target = none then f = e
  else
    f.source = e.source ∧ f.wildcard = false ∧
    (∃ s ∈ e.symbols, (table.follow e.target s.name).1 = f.target) ∧
    f.symbols.Ascending ∧
    ∀ n, n ∈ f.symbols ↔
      ∃ s ∈ e.symbols, table.follow e.target s.name = (f.target, n.name) ∧ n.rename = s.rename

/-- The edges that take the place of an edge, when no two of the modules that its symbols lead to
are the same but for their texts. -/
theorem mem_redirect (hends : table.EndsApart e.target e.symbols) :
    f ∈ table.redirect e ↔ table.Redirected e f := by
  have hkeeps : (e.wildcard || e.symbols.isEmpty || (table.of? e.target).isNone) = true ↔
      e.wildcard ∨ e.symbols = [] ∨ table.of? e.target = none := by
    simp [or_assoc]
  unfold redirect Redirected
  by_cases hkeep : e.wildcard ∨ e.symbols = [] ∨ table.of? e.target = none
  · rw [if_pos (hkeeps.mpr hkeep), if_pos hkeep, List.mem_singleton]
  · rw [if_neg (mt hkeeps.mp hkeep), if_neg hkeep, List.mem_map]
    constructor
    · rintro ⟨⟨p, names⟩, hgroup, rfl⟩
      obtain ⟨⟨s, hs, rfl⟩, rfl⟩ := (mem_groups hends).mp hgroup
      exact ⟨rfl, rfl, ⟨s, hs, rfl⟩, NameSet.ascending_ofList _, fun n => mem_symbolsTo hends hs⟩
    · rintro ⟨hsource, hwildcard, ⟨s, hs, htarget⟩, hasc, hsymbols⟩
      refine ⟨(f.target, f.symbols), (mem_groups hends).mpr ⟨⟨s, hs, htarget⟩, ?_⟩, ?_⟩
      · -- both are sets with the same names
        refine hasc.eq_of_mem_iff (NameSet.ascending_ofList _) fun n => ?_
        rw [hsymbols, ← htarget]
        exact (mem_symbolsTo hends hs).symm
      · cases f
        simp_all

/-- The importing file stays what it is. -/
theorem Redirected.source_eq (h : table.Redirected e f) : f.source = e.source := by
  unfold Redirected at h
  split at h
  · rw [h]
  · exact h.1

/-- What an edge gives way to leads into every set of modules that the edge leads into, if all that
is offered is taken from there. -/
theorem Redirected.target_mem {P : Path → Prop}
    (hoffers : ∀ entry ∈ table, ∀ offer ∈ entry.2, P offer.target)
    (h : table.Redirected e f) (htarget : P e.target) : P f.target := by
  unfold Redirected at h
  split at h
  · rwa [h]
  · obtain ⟨-, -, ⟨s, -, hs⟩, -⟩ := h
    rw [← hs]
    exact (follows_iff.mpr rfl).end_mem hoffers htarget

/-- No edge goes away without another one in its place. -/
theorem exists_redirected (hends : table.EndsApart e.target e.symbols) :
    ∃ f, table.Redirected e f := by
  by_cases hkeep : e.wildcard ∨ e.symbols = [] ∨ table.of? e.target = none
  · exact ⟨e, by rw [Redirected, if_pos hkeep]⟩
  · obtain ⟨s, hs⟩ := List.exists_mem_of_ne_nil e.symbols fun hnil => hkeep (.inr (.inl hnil))
    let p := (table.follow e.target s.name).1
    let symbols := table.symbolsTo e.target e.symbols p
    refine ⟨{ source := e.source, target := p, symbols }, ?_⟩
    rw [Redirected, if_neg hkeep]
    exact ⟨rfl, rfl, ⟨s, hs, rfl⟩, NameSet.ascending_ofList _, fun n => mem_symbolsTo hends hs⟩

/-- Edges give way to the same edges in tables that offer the same. -/
theorem redirected_congr (hof : ∀ p, table.of? p = table'.of? p) :
    table.Redirected e f ↔ table'.Redirected e f := by
  simp only [Redirected, hof, follow_congr hof]

end ReExportTable

end ImportAtlas
