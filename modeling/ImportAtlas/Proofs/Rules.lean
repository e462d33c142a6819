import ImportAtlas.Check
import ImportAtlas.Proofs.Results
import Mathlib.Data.List.Induction

/-!
# Which rule decides

The rule that decides about a dependency is the best of those that are about it: the most specific
one, and of equally specific ones the first. The violations of a graph are its edges that the rules
deny, each once and in their order.

* `RuleSpec.Matches`, `RuleSpec.specificity` — what a rule is about and how specific it is, as it is
  written;
* `Decides`, `Unmatched`, `Offends` — the deciding rule of a list, no rule at all, and a denied
  dependency, said without a search;
* `RuleSet.IsBest.better`, `RuleSet.isBest_foldl` — what a step of the search for the best candidate
  keeps, and what the whole search finds;
* `RuleSet.deciding?_eq_some`, `RuleSet.decide_eq_deny` — the search finds the deciding rule;
* `RuleSet.violations_of_compile` — the violations are the offending edges.
-/

namespace ImportAtlas

/-! ### Rules as they are written -/

namespace RuleSpec

/-- A rule is about a dependency when its two patterns match the names. -/
def Matches (spec : RuleSpec) (source target : String) : Prop :=
  ∃ r, Rule.compile spec = .ok r ∧ r.about source target

/-- How specific a rule is, as the sum of both lengths. -/
def specificity (spec : RuleSpec) : Nat :=
  Rule.literalLength spec.source + Rule.literalLength spec.target

end RuleSpec

/-- The rule with the index `i` decides: every other rule about the dependency is less specific, or
as specific and declared later. -/
structure Decides (specs : List RuleSpec) (source target : String) (i : Nat) (spec : RuleSpec) :
    Prop where
  get : specs[i]? = some spec
  isMatch : spec.Matches source target
  best : ∀ j other, specs[j]? = some other → other.Matches source target → j ≠ i →
    other.specificity < spec.specificity ∨ other.specificity = spec.specificity ∧ i < j

/-- No rule is about the dependency. -/
def Unmatched (specs : List RuleSpec) (source target : String) : Prop :=
  ∀ spec ∈ specs, ¬ spec.Matches source target

/-- A dependency that is denied, by the rule that decides or, where there is none, by default. -/
def Offends (specs : List RuleSpec) (default : Policy) (source target : String) : Prop :=
  (∃ i spec, Decides specs source target i spec ∧ spec.policy = .deny) ∨
    Unmatched specs source target ∧ default = .deny

namespace RuleSet

/-! ### The best candidate -/

section Candidates

variable {cs : List (Nat × Rule)} {c d : Nat × Rule}

/-- A candidate that no other one is better than. -/
def IsBest (cs : List (Nat × Rule)) (c : Nat × Rule) : Prop :=
  c ∈ cs ∧ ∀ d ∈ cs,
    d.2.specificity < c.2.specificity ∨ d.2.specificity = c.2.specificity ∧ c.1 ≤ d.1

/-- A later candidate takes the place of the best one when it is more specific. -/
theorem IsBest.better (h : IsBest cs c) (hlater : c.1 < d.1) :
    ∃ e, better (some c) d = some e ∧ IsBest (cs ++ [d]) e := by
  obtain ⟨hmem, hbest⟩ := h
  by_cases hless : c.2.specificity < d.2.specificity
  · -- the later one is more specific than the best so far
    refine ⟨d, if_pos hless, by simp, fun a ha => ?_⟩
    rcases List.mem_append.mp ha with ha | ha
    · have := hbest a ha
      omega
    · rw [List.mem_singleton.mp ha]
      omega
  · -- the best so far stays, since the later one has to be more specific
    refine ⟨c, if_neg hless, List.mem_append_left _ hmem, fun a ha => ?_⟩
    rcases List.mem_append.mp ha with ha | ha
    · exact hbest a ha
    · rw [List.mem_singleton.mp ha]
      omega

/-- The search finds the best of some candidates that stand in the order of their indices. -/
theorem isBest_foldl (hne : cs ≠ []) (hcs : cs.Pairwise fun a b => a.1 < b.1) :
    ∃ c, cs.foldl RuleSet.better none = some c ∧ IsBest cs c := by
  induction cs using List.reverseRecOn with
  | nil => exact absurd rfl hne
  | append_singleton cs d ih =>
    obtain ⟨hcs, -, hlater⟩ := List.pairwise_append.mp hcs
    rw [List.foldl_append]
    -- by induction from the end, since the fold keeps the best rule so far
    rcases eq_or_ne cs [] with rfl | hne
    · exact ⟨d, rfl, by simp [IsBest]⟩
    · obtain ⟨c, hfold, hbest⟩ := ih hne hcs
      rw [hfold]
      exact hbest.better (hlater c hbest.1 d (List.mem_singleton_self d))

end Candidates

/-! ### The rule that decides -/

section Rules

variable {s : RuleSet} {source target : String} {i : Nat} {r : Rule}

/-- The rules about a dependency, with their indices. -/
def candidates (s : RuleSet) (source target : String) : List (Nat × Rule) :=
  (s.rules.zipIdx.map fun (r, i) => (i, r)).filter fun c => c.2.about source target

/-- The candidates are the rules about the edge, with their places. -/
theorem mem_candidates : (i, r) ∈ s.candidates source target ↔
    s.rules[i]? = some r ∧ r.about source target := by
  simp [candidates, List.mem_zipIdx_iff_getElem?]

/-- They stand in the order of the rules. -/
theorem pairwise_candidates (s : RuleSet) (source target : String) :
    (s.candidates source target).Pairwise fun a b => a.1 < b.1 := by
  refine List.Pairwise.filter _ ?_
  have hindices : (s.rules.zipIdx.map Prod.snd).Pairwise (· < ·) := by
    rw [List.zipIdx_map_snd]
    exact List.pairwise_lt_range' 1
  rw [List.pairwise_map] at hindices ⊢
  exact hindices

/-- The search finds the best rule, and finds one where there is any. -/
theorem decidingRule?_eq_some :
    s.decidingRule? source target = some (i, r) ↔ IsBest (s.candidates source target) (i, r) := by
  have hsearch : s.decidingRule? source target =
      (s.candidates source target).foldl better none := rfl
  constructor
  · intro h
    rcases eq_or_ne (s.candidates source target) [] with hnil | hne
    · rw [hsearch, hnil] at h
      exact absurd h (by simp)
    · obtain ⟨c, hfold, hbest⟩ := isBest_foldl hne (pairwise_candidates s source target)
      rw [← hsearch, h] at hfold
      exact Option.some.inj hfold ▸ hbest
  · intro h
    obtain ⟨⟨j, q⟩, hfold, hbest⟩ :=
      isBest_foldl (List.ne_nil_of_mem h.1) (pairwise_candidates s source target)
    -- of two rules that are best, neither is declared before the other
    have hij := h.2 _ hbest.1
    have hji := hbest.2 _ h.1
    obtain rfl : i = j := by
      simp only at hij hji
      omega
    have hr := (mem_candidates.mp h.1).1
    rw [(mem_candidates.mp hbest.1).1] at hr
    rw [hsearch, hfold, Option.some.inj hr]

theorem decidingRule?_eq_none :
    s.decidingRule? source target = none ↔ ∀ r ∈ s.rules, ¬ r.about source target := by
  have hsearch : s.decidingRule? source target =
      (s.candidates source target).foldl better none := rfl
  constructor
  · intro h r hr habout
    obtain ⟨i, hi⟩ := List.mem_iff_getElem?.mp hr
    -- there is a candidate, so one of them is the best
    have hne := List.ne_nil_of_mem (mem_candidates.mpr ⟨hi, habout⟩)
    obtain ⟨c, hfold, -⟩ := isBest_foldl hne (pairwise_candidates s source target)
    rw [← hsearch, h] at hfold
    exact absurd hfold (by simp)
  · intro h
    have hnil : s.candidates source target = [] := by
      refine List.eq_nil_iff_forall_not_mem.mpr fun (i, r) hmem => ?_
      obtain ⟨hi, habout⟩ := mem_candidates.mp hmem
      exact h r (List.mem_of_getElem? hi) habout
    rw [hsearch, hnil]
    rfl

end Rules

/-! ### Rules that were read -/

section Compiled

variable {specs : List RuleSpec} {default : Policy} {s : RuleSet} {source target : String}
  {i : Nat} {spec : RuleSpec} {r : Rule}

/-- A compiled rule keeps what it is compiled from. -/
theorem spec_of_compile (h : Rule.compile spec = .ok r) : r.spec = spec := by
  rw [Rule.compile] at h
  cases hsource : Rule.compilePattern spec.source with
  | error f => simp [hsource, bind, Except.bind] at h
  | ok g =>
    cases htarget : Rule.compilePattern spec.target with
    | error f => simp [hsource, htarget, bind, Except.bind] at h
    | ok g' =>
      simp only [hsource, htarget, bind, Except.bind, pure, Except.pure, Except.ok.injEq] at h
      rw [← h]

/-- What is read of a list of rules: every rule, in the same order, and the default. -/
theorem map_compile (h : RuleSet.compile specs default = .ok s) :
    s.default = default ∧ specs.map Rule.compile = s.rules.map .ok := by
  rw [RuleSet.compile] at h
  cases hrules : specs.mapM Rule.compile with
  | error f => simp [hrules, Except.map] at h
  | ok rules =>
    simp only [hrules, Except.map, Except.ok.injEq] at h
    exact h ▸ ⟨rfl, mapM_eq_ok_iff.mp hrules⟩

/-- The rules are compiled in their places. -/
theorem getElem?_of_compile (h : RuleSet.compile specs default = .ok s) :
    s.rules[i]? = some r ↔ ∃ spec, specs[i]? = some spec ∧ Rule.compile spec = .ok r := by
  have hget := congrArg (fun results => results[i]?) (map_compile h).2
  simp only [List.getElem?_map] at hget
  constructor
  · intro hr
    rw [hr, Option.map_some, Option.map_eq_some_iff] at hget
    exact hget
  · rintro ⟨spec, hspec, hr⟩
    rw [hspec, Option.map_some, hr, eq_comm, Option.map_eq_some_iff] at hget
    obtain ⟨q, hq, heq⟩ := hget
    rw [hq, Except.ok.inj heq]

/-- A candidate is a rule about the dependency. -/
theorem mem_candidates_of_compile (h : RuleSet.compile specs default = .ok s) :
    (i, r) ∈ s.candidates source target ↔
      specs[i]? = some r.spec ∧ Rule.compile r.spec = .ok r ∧ r.about source target := by
  rw [mem_candidates, getElem?_of_compile h]
  constructor
  · rintro ⟨⟨spec, hspec, hr⟩, habout⟩
    obtain rfl := spec_of_compile hr
    exact ⟨hspec, hr, habout⟩
  · rintro ⟨hspec, hr, habout⟩
    exact ⟨⟨_, hspec, hr⟩, habout⟩

/-- The best candidate is the rule that decides. -/
theorem decides_iff (h : RuleSet.compile specs default = .ok s) :
    Decides specs source target i spec ↔
      ∃ r, s.decidingRule? source target = some (i, r) ∧ r.spec = spec := by
  simp only [decidingRule?_eq_some]
  constructor
  · rintro ⟨hget, ⟨r, hr, habout⟩, hbest⟩
    obtain rfl := spec_of_compile hr
    refine ⟨r, ⟨(mem_candidates_of_compile h).mpr ⟨hget, hr, habout⟩, fun (j, q) hmem => ?_⟩, rfl⟩
    obtain ⟨hq, hcompile, hmatch⟩ := (mem_candidates_of_compile h).mp hmem
    -- the other candidates are worse, and the rule itself is as good as itself
    rcases eq_or_ne j i with rfl | hne
    · rw [hget] at hq
      exact .inr ⟨congrArg RuleSpec.specificity (Option.some.inj hq).symm, Nat.le_refl j⟩
    · exact (hbest j q.spec hq ⟨q, hcompile, hmatch⟩ hne).imp_right
        fun ⟨heq, hlt⟩ => ⟨heq, Nat.le_of_lt hlt⟩
  · rintro ⟨r, ⟨hmem, hbest⟩, rfl⟩
    obtain ⟨hget, hr, habout⟩ := (mem_candidates_of_compile h).mp hmem
    -- a rule that is as good stands behind
    refine ⟨hget, ⟨r, hr, habout⟩, fun j other hother ⟨q, hq, hmatch⟩ hne => ?_⟩
    obtain rfl := spec_of_compile hq
    have hmem := (mem_candidates_of_compile h).mpr ⟨hother, hq, hmatch⟩
    exact (hbest (j, q) hmem).imp_right fun ⟨heq, hle⟩ => ⟨heq, Nat.lt_of_le_of_ne hle hne.symm⟩

/-- The place of the rule that decides. -/
theorem deciding?_eq_some (h : RuleSet.compile specs default = .ok s) :
    s.deciding? source target = some i ↔ ∃ spec, Decides specs source target i spec := by
  simp [deciding?, decides_iff h]

/-- None decides exactly if none matches. -/
theorem decidingRule?_eq_none_of_compile (h : RuleSet.compile specs default = .ok s) :
    s.decidingRule? source target = none ↔ Unmatched specs source target := by
  rw [decidingRule?_eq_none]
  constructor
  · rintro hnone spec hspec ⟨r, hr, habout⟩
    obtain ⟨i, hi⟩ := List.mem_iff_getElem?.mp hspec
    exact hnone r (List.mem_of_getElem? ((getElem?_of_compile h).mpr ⟨spec, hi, hr⟩)) habout
  · intro hnone r hr habout
    obtain ⟨i, hi⟩ := List.mem_iff_getElem?.mp hr
    obtain ⟨spec, hspec, hcompile⟩ := (getElem?_of_compile h).mp hi
    exact hnone spec (List.mem_of_getElem? hspec) ⟨r, hcompile, habout⟩

/-- Then there is no place either. -/
theorem deciding?_eq_none (h : RuleSet.compile specs default = .ok s) :
    s.deciding? source target = none ↔ Unmatched specs source target := by
  rw [deciding?, Option.map_eq_none_iff, decidingRule?_eq_none_of_compile h]

/-- The policy is to deny exactly what offends. -/
theorem decide_eq_deny (h : RuleSet.compile specs default = .ok s) :
    s.decide source target = .deny ↔ Offends specs default source target := by
  have hdefault := (map_compile h).1
  rw [decide, Offends, ← decidingRule?_eq_none_of_compile h]
  simp only [decides_iff h]
  cases s.decidingRule? source target with
  | none => simp [hdefault]
  | some c =>
    obtain ⟨i, r⟩ := c
    simp

end Compiled

/-! ### Violations -/

/-- A violation is a dependency that the policy denies, with the index of the rule that decides. -/
theorem violation?_eq (s : RuleSet) (source target : String) :
    (s.violation? source target).map (fun v => (v.source, v.target, v.rule)) =
      if s.decide source target = .deny then some (source, target, s.deciding? source target)
      else none := by
  rw [violation?, decide, deciding?]
  cases s.decidingRule? source target with
  | none => cases s.default <;> rfl
  | some c => cases hpolicy : c.2.spec.policy <;> simp [hpolicy]

/-- Of rules that can be read, the one that decides is found, the policy denies exactly what
offends, and the violations of a graph are its offending edges, each once and in their order. -/
theorem violations_of_compile {specs : List RuleSpec} {default : Policy} {s : RuleSet}
    (h : RuleSet.compile specs default = .ok s) (g : ModuleGraph) :
    (∀ source target i, s.deciding? source target = some i ↔
      ∃ spec, Decides specs source target i spec) ∧
    (∀ source target, s.deciding? source target = none ↔ Unmatched specs source target) ∧
    (∀ source target, s.decide source target = .deny ↔ Offends specs default source target) ∧
    (s.violations g).map (fun v => (v.source, v.target, v.rule)) =
      (g.edges.filter fun e =>
        s.decide (g.displayName e.source) (g.displayName e.target) = .deny).map fun e =>
          (g.displayName e.source, g.displayName e.target,
            s.deciding? (g.displayName e.source) (g.displayName e.target)) := by
  refine ⟨fun _ _ _ => deciding?_eq_some h, fun _ _ => deciding?_eq_none h,
    fun _ _ => decide_eq_deny h, ?_⟩
  -- both sides go over the edges once, keeping those that are denied
  rw [violations, List.map_filterMap, ← List.filterMap_eq_filter, List.map_filterMap]
  refine congrArg (g.edges.filterMap ·) (funext fun e => ?_)
  rw [violation?_eq]
  split <;> rename_i hdeny <;> simp [Option.guard, hdeny]

/-- Three rules about imports from `ui` to `db`, of which the first two are as specific as each
other and the third is more specific. -/
theorem violations_of_compile_of_three :
    let specs : List RuleSpec :=
      [⟨.deny, "ui/*", "db/*", none⟩, ⟨.allow, "ui/*", "db/*", none⟩,
        ⟨.allow, "*", "db/open/*", none⟩]
    let node (id : String) : ModuleNode := { id := ⟨id⟩, language := "js" }
    let edge (source target : String) : Edge := { source := ⟨source⟩, target := ⟨target⟩ }
    let g := (["/p/ui/a", "/p/db/x", "/p/db/open/y"].map node).foldl ModuleGraph.addNode
      { root := ⟨"/p"⟩ }
    let g := g.pushEdge (edge "/p/ui/a" "/p/db/x") |>.pushEdge (edge "/p/ui/a" "/p/db/open/y")
    ∃ s, RuleSet.compile specs .allow = .ok s ∧
      Offends specs .allow "ui/a" "db/x" ∧ ¬ Offends specs .allow "ui/a" "db/open/y" ∧
      (s.violations g).map (fun v => (v.source, v.target, v.rule)) =
        [("ui/a", "db/x", some 0)] := by
  intro specs node edge g g
  obtain ⟨s, h⟩ : ∃ s, RuleSet.compile specs .allow = .ok s := ⟨_, rfl⟩
  obtain ⟨-, -, hdeny, hviolations⟩ := violations_of_compile h g
  obtain rfl : _ = s := Except.ok.inj h
  exact ⟨_, rfl, (hdeny "ui/a" "db/x").mp (by decide +kernel),
    fun hoff => absurd ((hdeny "ui/a" "db/open/y").mpr hoff) (by decide +kernel),
    hviolations.trans (by decide +kernel)⟩

end RuleSet

end ImportAtlas
