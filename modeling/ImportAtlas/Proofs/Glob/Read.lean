import ImportAtlas.Proofs.Glob.Match

/-!
# Reading globs piece by piece

Where the beginning of a pattern is read as some parts, the rest of it is read behind them.

* `Glob.Reading.behind`, `Glob.Reading.tokens_behind` — what is read behind some parts is what is
  read alone, with these parts in front of it, unless it begins with `**`;
* `Glob.escape`, `Glob.prefix_of_parse_escape` — an escaped text at the beginning of a pattern is
  read as its characters.

The first is an induction on the reading, with one case for each thing that may be read next.
-/

namespace ImportAtlas.Glob

/-- Groups that are open behind some more parts. -/
def behindGroups (front : List Token) : List OpenGroup → List OpenGroup
  | [] => []
  | [g] => [{ g with outside := g.outside ++ front }]
  | g :: gs => g :: behindGroups front gs

variable {front : List Token}

/-- Parts in front open no group. -/
theorem isEmpty_behindGroups (gs : List OpenGroup) :
    (behindGroups front gs).isEmpty = gs.isEmpty := by
  match gs with
  | [] | [_] | _ :: _ :: _ => rfl

namespace Reading

variable {s s' : Reading} {t : List Char}

/-! ### Single steps -/

/-- The characters that do not always stand for themselves. -/
def specials : List Char :=
  ['?', '*', '[', '\x7b', '\x7d', ',', '\\']

/-- A character that means nothing else stands for itself. -/
theorem read_cons_of_not_mem (hopen : s.openClass = none) {c : Char} (hc : c ∉ specials)
    (r : List Char) : s.read (c :: r) = (s.push c (.literal c)).read r := by
  simp only [specials, List.mem_cons, List.not_mem_nil, or_false, not_or] at hc
  obtain ⟨hany, hstar, hclass, hgroup, hclose, hcomma, hbackslash⟩ := hc
  rw [Reading.read.eq_def]
  simp only [hopen]
  split
  case h_10 => rfl
  all_goals contradiction

/-- A deep part is read with its last character, which is a star or a slash. -/
theorem last_pushDeep (s : Reading) (last : Char) (atEnd : Bool) :
    (s.pushDeep last atEnd).last = some last := by
  unfold pushDeep
  dsimp only
  split <;> rfl

/-- It opens no class. -/
theorem openClass_pushDeep (s : Reading) (last : Char) (atEnd : Bool) :
    (s.pushDeep last atEnd).openClass = s.openClass := by
  unfold pushDeep
  dsimp only
  split <;> rfl

/-- A character in a class closes it, or it stays open. -/
theorem inClass_eq_ok {k : OpenClass} {c : Char} (h : s.inClass k c = .ok s') :
    (c = ']' ∧ ∃ ranges, s' = { s.push ']' (.oneOf k.negated ranges) with openClass := none }) ∨
      ∃ k', s' = { s with openClass := some k' } := by
  unfold inClass at h
  dsimp only at h
  split at h
  · next hclose =>
    cases h
    exact .inl ⟨hclose.1, _, rfl⟩
  · split at h
    · split_ifs at h <;> cases h <;> exact .inr ⟨_, rfl⟩
    · cases h
      exact .inr ⟨_, rfl⟩

/-- Reading may end when neither a class nor a group is open. The parts are then those of the
branch, in order. -/
theorem finish_eq_ok {ks : List Token} :
    s.finish = .ok ks ↔ s.openClass = none ∧ s.groups = [] ∧ s.branch.reverse = ks := by
  rw [finish]
  cases s.openClass with
  | some k => simp
  | none => cases s.groups <;> simp

/-! ### Behind other parts -/

/-- A reading behind some more parts, which are given like a branch, the last one first. -/
def behind (front : List Token) (s : Reading) : Reading :=
  match s.groups with
  | [] => { s with branch := s.branch ++ front }
  | g :: gs => { s with groups := behindGroups front (g :: gs) }

/-- Something is read or open, so that no `**` stands in front of all else. -/
def IsBegun (s : Reading) : Prop :=
  s.branch ≠ [] ∨ s.groups ≠ [] ∨ s.openClass.isSome

theorem isBegun_push (s : Reading) (last : Char) (k : Token) : (s.push last k).IsBegun :=
  .inl (List.cons_ne_nil _ _)

/-- Behind a deep part something has been read. -/
theorem isBegun_pushDeep (s : Reading) (last : Char) (atEnd : Bool) :
    (s.pushDeep last atEnd).IsBegun := by
  unfold pushDeep
  dsimp only
  split <;> exact .inl (List.cons_ne_nil _ _)

/-- Within a class too, and behind one. -/
theorem isBegun_inClass {k : OpenClass} {c : Char} (h : s.inClass k c = .ok s') : s'.IsBegun := by
  obtain ⟨-, ranges, rfl⟩ | ⟨k', rfl⟩ := inClass_eq_ok h
  · exact .inl (List.cons_ne_nil _ _)
  · exact .inr (.inr rfl)

@[simp]
theorem last_behind (s : Reading) : (s.behind front).last = s.last := by
  unfold behind; split <;> rfl

@[simp]
theorem openClass_behind (s : Reading) : (s.behind front).openClass = s.openClass := by
  unfold behind; split <;> rfl

@[simp]
theorem plainBrackets_behind (s : Reading) : (s.behind front).plainBrackets = s.plainBrackets := by
  unfold behind; split <;> rfl

/-- Outside groups the parts in front are at the bottom of the branch. -/
theorem behind_of_groups_eq_nil (h : s.groups = []) :
    s.behind front = { s with branch := s.branch ++ front } := by
  unfold behind
  simp only [h]

theorem groups_behind (h : s.groups = []) : (s.behind front).groups = [] := by
  rw [behind_of_groups_eq_nil h, h]

/-- Parts in front do not change whether a group is open. -/
@[simp]
theorem isEmpty_groups_behind (s : Reading) :
    (s.behind front).groups.isEmpty = s.groups.isEmpty := by
  unfold behind
  split
  · rfl
  · next hgroups =>
    rw [hgroups]
    exact isEmpty_behindGroups _

/-- Putting one part on the branch is the same with parts in front. -/
@[simp]
theorem push_behind (s : Reading) (last : Char) (k : Token) :
    (s.behind front).push last k = (s.push last k).behind front := by
  unfold behind push
  cases s.groups <;> rfl

/-- Putting two stars on the branch is the same with parts in front. -/
@[simp]
theorem pushTwoStars_behind (s : Reading) :
    (s.behind front).pushTwoStars = s.pushTwoStars.behind front := by
  simp only [pushTwoStars, push_behind]

/-- Whether a component begins is asked of the last character and the groups only. -/
@[simp]
theorem atComponentStart_behind (s : Reading) :
    (s.behind front).atComponentStart = s.atComponentStart := by
  simp only [atComponentStart, last_behind, isEmpty_groups_behind]

/-- Parts in front make an empty branch one that is not, so something must have been read. -/
theorem isEmpty_branch_behind (h : s.IsBegun) (hopen : s.openClass = none) :
    (s.behind front).branch.isEmpty = s.branch.isEmpty := by
  unfold behind
  split
  · next hgroups =>
    have hbranch : s.branch ≠ [] := by simpa [IsBegun, hgroups, hopen] using h
    rw [List.isEmpty_eq_false_iff.mpr hbranch]
    exact List.isEmpty_eq_false_iff.mpr (List.append_ne_nil_of_left_ne_nil hbranch _)
  · rfl

/-- A deep part replaces the last part of the branch, which is not one of those in front. -/
theorem pushDeep_behind (hbranch : ¬ s.branch.isEmpty) (last : Char) (atEnd : Bool) :
    (s.behind front).pushDeep last atEnd = (s.pushDeep last atEnd).behind front := by
  obtain ⟨k, r, hk⟩ := List.exists_cons_of_ne_nil (by simpa using hbranch)
  unfold behind
  cases hgroups : s.groups with
  | nil => cases k <;> simp [pushDeep, hk, hgroups]
  | cons g gs => cases k <;> simp [pushDeep, hk, hgroups]

/-- A class is kept beside the branch. -/
theorem setClass_behind (s : Reading) (k : Option OpenClass) :
    (⟨(s.behind front).last, (s.behind front).branch, (s.behind front).groups, k,
      (s.behind front).plainBrackets⟩ : Reading) =
    behind front ⟨s.last, s.branch, s.groups, k, s.plainBrackets⟩ := by
  unfold behind
  cases s.groups <;> rfl

/-- A class is read in the same way with parts in front. -/
theorem inClass_behind (s : Reading) (k : OpenClass) (c : Char) :
    (s.behind front).inClass k c = (s.inClass k c).map (behind front) := by
  simp only [inClass]
  by_cases hclose : c = ']' ∧ k.ranges ≠ []
  · rw [if_pos hclose, if_pos hclose, push_behind, setClass_behind]
    rfl
  · rw [if_neg hclose, if_neg hclose]
    -- in the midst of the class, the four ways to go on change the class only
    split
    · split_ifs
      · rfl
      · rw [setClass_behind]
        rfl
      · rw [setClass_behind]
        rfl
      · rw [setClass_behind]
        rfl
    · rw [setClass_behind]
      rfl

/-- A pattern is read behind other parts as it is read alone. -/
theorem read_behind (h : s.IsBegun ∨ ¬ ['*', '*'] <+: t) :
    (s.behind front).read t = (s.read t).map (behind front) := by
  have hbegun {s : Reading} {r : List Char} (h : s.IsBegun ∨ ¬ ['*', '*'] <+: '*' :: '*' :: r) :
      s.IsBegun := h.resolve_right fun hno => hno ⟨r, rfl⟩
  fun_induction Reading.read s t
  case case1 => rfl
  -- inside a class
  case case2 s c r k hk ih =>
    rw [Reading.read.eq_def]
    simp only [openClass_behind, hk, inClass_behind]
    cases hclass : s.inClass k c with
    | error f => rfl
    | ok s' => exact ih s' (.inl (isBegun_inClass hclass))
  -- a part is read whatever stands before it
  case case3 hopen _ ih | case12 hopen _ _ ih | case23 hopen _ _ ih |
      case24 hopen _ _ _ _ _ _ _ _ _ _ _ ih =>
    rw [Reading.read.eq_def]
    simp only [openClass_behind, push_behind, *]
    exact ih (.inl (isBegun_push ..))
  case case13 hopen _ hplain ih =>
    rw [Reading.read.eq_def]
    simp only [openClass_behind, plainBrackets_behind, push_behind, hopen, hplain, if_true]
    exact ih (.inl (isBegun_push ..))
  case case20 hopen _ hgroups ih =>
    rw [Reading.read.eq_def]
    simp only [openClass_behind, hopen, groups_behind hgroups, push_behind]
    exact ih (.inl (isBegun_push ..))
  -- two stars: what they mean depends on whether something is read already
  case case4 hopen hbranch ih | case5 hopen hbranch _ ih =>
    rw [Reading.read.eq_def]
    simp only [openClass_behind, hopen, isEmpty_branch_behind (hbegun h) hopen, hbranch,
      push_behind, if_true]
    exact ih (.inl (isBegun_push ..))
  case case6 hopen hbranch _ _ _ ih =>
    rw [Reading.read.eq_def]
    simp only [openClass_behind, hopen, isEmpty_branch_behind (hbegun h) hopen, hbranch,
      pushTwoStars_behind, if_true]
    exact ih (.inl (isBegun_push ..))
  case case7 hopen hbranch hstart ih | case8 hopen hbranch hstart _ ih =>
    rw [Reading.read.eq_def]
    simp only [openClass_behind, hopen, isEmpty_branch_behind (hbegun h) hopen, hbranch,
      atComponentStart_behind, hstart, pushDeep_behind hbranch, if_true]
    exact ih (.inl (isBegun_pushDeep ..))
  case case9 hopen hbranch hstart _ _ _ hend ih =>
    rw [Reading.read.eq_def]
    simp only [openClass_behind, hopen, isEmpty_branch_behind (hbegun h) hopen, hbranch,
      atComponentStart_behind, hstart, isEmpty_groups_behind, hend, pushDeep_behind hbranch,
      if_true]
    exact ih (.inl (isBegun_pushDeep ..))
  case case10 hopen hbranch hstart _ _ _ hend ih =>
    rw [Reading.read.eq_def]
    simp only [openClass_behind, hopen, isEmpty_branch_behind (hbegun h) hopen, hbranch,
      atComponentStart_behind, hstart, isEmpty_groups_behind, hend, pushTwoStars_behind, if_true]
    exact ih (.inl (isBegun_push ..))
  case case11 hopen _ hbranch hstart ih =>
    rw [Reading.read.eq_def]
    simp only [openClass_behind, hopen, isEmpty_branch_behind (hbegun h) hopen, hbranch,
      atComponentStart_behind, hstart, pushTwoStars_behind]
    exact ih (.inl (isBegun_push ..))
  -- a class is opened
  case case14 s hopen hplain _ ih | case15 s hopen hplain _ ih | case16 s hopen hplain _ _ _ ih =>
    have hbrackets : ¬ (s.behind front).plainBrackets := by rwa [plainBrackets_behind]
    rw [Reading.read.eq_def]
    simp only [openClass_behind, hopen, if_neg hbrackets]
    rw [setClass_behind]
    exact ih (.inl (.inr (.inr rfl)))
  -- a group is opened or closed, or a branch of it ends
  case case17 s hopen _ ih =>
    obtain ⟨last, branch, groups, _, plain⟩ := s
    cases hopen
    rw [Reading.read.eq_def]
    cases groups <;> exact ih (.inl (.inr (.inl (List.cons_ne_nil _ _))))
  case case18 hopen _ hgroups =>
    rw [Reading.read.eq_def]
    simp only [openClass_behind, hopen, groups_behind hgroups]
    rfl
  case case19 s hopen _ g gs hgroups k ih =>
    obtain ⟨last, branch, groups, _, plain⟩ := s
    cases hopen
    cases hgroups
    rw [Reading.read.eq_def]
    cases gs <;> exact ih (.inl (.inl (List.cons_ne_nil _ _)))
  case case21 s hopen _ g gs hgroups ih =>
    obtain ⟨last, branch, groups, _, plain⟩ := s
    cases hopen
    cases hgroups
    rw [Reading.read.eq_def]
    cases gs <;> exact ih (.inl (.inr (.inl (List.cons_ne_nil _ _))))
  case case22 hopen =>
    rw [Reading.read.eq_def]
    simp only [openClass_behind, hopen]
    rfl

/-- At the end the parts in front come first. -/
theorem finish_behind (s : Reading) :
    (s.behind front).finish = s.finish.map (front.reverse ++ ·) := by
  rw [finish, finish, openClass_behind, isEmpty_groups_behind]
  split
  · rfl
  · split
    · next hgroups =>
      rw [behind_of_groups_eq_nil (List.isEmpty_iff.mp hgroups), List.reverse_append]
      rfl
    · rfl

/-- The parts of a pattern that is read behind others. -/
theorem tokens_behind (h : s.IsBegun ∨ ¬ ['*', '*'] <+: t) :
    ((s.behind front).read t).bind finish =
      ((s.read t).bind finish).map (front.reverse ++ ·) := by
  rw [read_behind h]
  cases s.read t with
  | error f => rfl
  | ok s' => exact finish_behind s'

end Reading

/-- A glob is what is read of its pattern to the end. -/
theorem parse_eq_ok {components : Bool} {pattern : String} {g : Glob}
    (h : parse components pattern = .ok g) :
    ∃ s, Reading.read {} pattern.toList = .ok s ∧ s.finish = .ok g.tokens ∧
      g = ⟨pattern, components, g.tokens⟩ := by
  rw [parse] at h
  cases hread : Reading.read {} pattern.toList with
  | error f =>
    rw [hread] at h
    cases h
  | ok s =>
    rw [hread, Except.bind] at h
    cases hfinish : s.finish with
    | error f =>
      rw [hfinish] at h
      cases h
    | ok ks =>
      rw [hfinish] at h
      cases h
      exact ⟨s, rfl, hfinish, rfl⟩

/-! ### Escaped texts -/

/-- The characters that a backslash makes stand for themselves. -/
def isMeta (c : Char) : Bool :=
  ['*', '?', '[', ']', '\x7b', '\x7d', '\\'].contains c

/-- A character as a pattern spells it: those with a meaning are escaped. -/
def escapeChar (c : Char) : List Char :=
  if isMeta c then ['\\', c] else [c]

/-- A text with a backslash in front of every character that needs one. -/
def escape (x : List Char) : List Char :=
  x.flatMap escapeChar

namespace Reading

variable {s : Reading}

/-- An escaped character is read as itself. -/
theorem read_escapeChar (hopen : s.openClass = none) (hgroups : s.groups = []) (c : Char)
    (r : List Char) : s.read (escapeChar c ++ r) = (s.push c (.literal c)).read r := by
  unfold escapeChar
  split
  · rw [List.cons_append, List.singleton_append, Reading.read.eq_def]
    simp only [hopen]
  · next hmeta =>
    rw [List.singleton_append]
    by_cases hcomma : c = ','
    · -- outside all groups a comma is a character like any other
      subst hcomma
      rw [Reading.read.eq_def]
      simp only [hopen, hgroups]
    · refine read_cons_of_not_mem hopen ?_ r
      simp only [isMeta, List.contains_iff_mem, List.mem_cons, List.not_mem_nil, or_false,
        not_or] at hmeta
      simp only [specials, List.mem_cons, List.not_mem_nil, or_false, not_or]
      tauto

/-- An escaped text is read as its characters. -/
theorem read_escape (hopen : s.openClass = none) (hgroups : s.groups = []) (x w : List Char) :
    s.read (escape x ++ w) =
      (behind ((x.map .literal).reverse ++ s.branch)
        { s with last := x.getLast?.or s.last, branch := [] }).read w := by
  induction x generalizing s with
  | nil =>
    rw [behind_of_groups_eq_nil (by exact hgroups)]
    rfl
  | cons c x ih =>
    -- each escaped character is read as a literal, by itself
    rw [escape, List.flatMap_cons, ← escape, List.append_assoc,
      read_escapeChar hopen hgroups, ih (by exact hopen) (by exact hgroups)]
    simp [push, List.getLast?_cons]

end Reading

variable {components : Bool} {g : Glob}

/-- The parts of a pattern that begins with an escaped text begin with the characters of it. -/
theorem prefix_of_parse_escape {pattern : String} {x w : List Char}
    (hpattern : pattern.toList = escape x ++ w) (hw : ¬ ['*', '*'] <+: w)
    (h : parse components pattern = .ok g) : x.map .literal <+: g.tokens := by
  obtain ⟨s, hread, hfinish, -⟩ := parse_eq_ok h
  -- what follows the escaped text puts its parts behind the literals
  have htokens : (Reading.read {} pattern.toList).bind (·.finish) = .ok g.tokens := by
    rw [hread]
    exact hfinish
  rw [hpattern, Reading.read_escape rfl rfl, Reading.tokens_behind (.inr hw),
    List.append_nil, List.reverse_reverse] at htokens
  generalize (Reading.read _ w).bind (·.finish) = rest at htokens
  cases rest with
  | error f => cases htokens
  | ok ks => exact ⟨ks, Except.ok.inj htokens⟩

end ImportAtlas.Glob
