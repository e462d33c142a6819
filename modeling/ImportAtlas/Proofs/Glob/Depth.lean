import ImportAtlas.Glob.Set
import ImportAtlas.Proofs.Text.Bytes
import ImportAtlas.Proofs.Text.Chars

/-!
# How deep a glob goes

A glob in which no part stands for slashes that it does not spell matches only texts with as few
slashes as its pattern has.

* `Glob.Token.slashes`, `Glob.Token.isShallow` — the slashes that a part spells, and whether it
  stands for no others: `**` may stand for many, and a class for one;
* `Glob.count_slash_of_matches` — a shallow glob matches no deeper than its pattern is.

What a part can match is bounded by the slashes it spells, and what the parts of a pattern spell by
the slashes of its text. The second is kept by every step of the reading, with what is still open
counted as well.
-/

namespace ImportAtlas.Glob

/-! ### The slashes of a part -/

mutual

/-- How many slashes a part spells. -/
def slashes : Token → Nat
  | .literal c => if c = '/' then 1 else 0
  | .group branches => slashesOfBranches branches
  | _ => 0

/-- As many slashes as a list of parts can match at most. -/
def slashesOfAll : List Token → Nat
  | [] => 0
  | k :: ks => slashes k + slashesOfAll ks

/-- As many as some branches can match at most, all of them together. -/
def slashesOfBranches : List (List Token) → Nat
  | [] => 0
  | b :: bs => slashesOfAll b + slashesOfBranches bs

end

mutual

/-- Whether a part stands for no slashes but those that it spells. -/
def isShallow : Token → Bool
  | .deepStart | .deepEnd | .deepMiddle => false
  | .oneOf negated ranges => ranges.any (inRange · slash) == negated
  | .group branches => areShallowBranches branches
  | _ => true

/-- All of some parts are shallow. -/
def areShallow : List Token → Bool
  | [] => true
  | k :: ks => isShallow k && areShallow ks

/-- All parts of some branches are. -/
def areShallowBranches : List (List Token) → Bool
  | [] => true
  | b :: bs => areShallow b && areShallowBranches bs

end

/-- The slashes of two lists of parts are added. -/
theorem slashesOfAll_append (ks ls : List Token) :
    slashesOfAll (ks ++ ls) = slashesOfAll ks + slashesOfAll ls := by
  induction ks with
  | nil => rw [List.nil_append, slashesOfAll, Nat.zero_add]
  | cons k ks ih => rw [List.cons_append, slashesOfAll, slashesOfAll, ih, Nat.add_assoc]

/-- The slashes of two lists of branches are added. -/
theorem slashesOfBranches_append (bs cs : List (List Token)) :
    slashesOfBranches (bs ++ cs) = slashesOfBranches bs + slashesOfBranches cs := by
  induction bs with
  | nil => rw [List.nil_append, slashesOfBranches, Nat.zero_add]
  | cons b bs ih =>
    rw [List.cons_append, slashesOfBranches, slashesOfBranches, ih, Nat.add_assoc]

/-- The parts are read in one order and kept in the other. -/
@[simp]
theorem slashesOfAll_reverse (ks : List Token) : slashesOfAll ks.reverse = slashesOfAll ks := by
  induction ks with
  | nil => rfl
  | cons k ks ih =>
    rw [List.reverse_cons, slashesOfAll_append, ih, slashesOfAll, slashesOfAll, slashesOfAll]
    omega

/-- The branches too. -/
@[simp]
theorem slashesOfBranches_reverse (bs : List (List Token)) :
    slashesOfBranches bs.reverse = slashesOfBranches bs := by
  induction bs with
  | nil => rfl
  | cons b bs ih =>
    rw [List.reverse_cons, slashesOfBranches_append, ih, slashesOfBranches, slashesOfBranches,
      slashesOfBranches]
    omega

/-! ### What a part matches -/

variable {t : Bytes}

/-- The slash is one byte, and no other character has it among its bytes. -/
theorem count_slash_utf8EncodeChar (c : Char) :
    (String.utf8EncodeChar c).count slash = if c = '/' then 1 else 0 :=
  count_utf8EncodeChar (d := '/') (by decide) c

theorem count_slash_bytesOf (t : List Char) : (bytesOf t).count slash = t.count '/' :=
  count_bytesOf (d := '/') (by decide) t

/-- A run that takes no slash leaves all of them behind. -/
theorem count_afterRun {r : Bytes} {accepts : UInt8 → Bool} (hslash : accepts slash = false)
    (hr : r ∈ afterRun accepts t) : t.count slash = r.count slash := by
  induction t with
  | nil =>
    rw [List.mem_singleton.mp hr]
  | cons x t ih =>
    rw [afterRun] at hr
    rcases List.mem_cons.mp hr with rfl | hr
    · rfl
    · split at hr
      · next haccepts =>
        -- what is taken is no slash
        have hx : x ≠ slash := by
          rintro rfl
          rw [hslash] at haccepts
          cases haccepts
        rw [List.count_cons_of_ne hx, ih hr]
      · cases hr

/-! The recursion is that of matching. Every step takes away a beginning of the text, and the
slashes in it are among those that the part spells; of a group at most those of one branch are
taken. -/

mutual

/-- **A shallow part takes no more slashes than it has.** Only a literal slash and a group can take
any. -/
theorem count_rests {k : Token} {t r : Bytes} (hk : isShallow k) (hr : r ∈ rests true k t) :
    t.count slash ≤ r.count slash + slashes k := by
  match k with
  | .literal c =>
    rw [rests, Option.mem_toList, Text.dropStart?_eq_some] at hr
    rw [hr, List.count_append, count_slash_utf8EncodeChar, slashes]
    omega
  | .any =>
    match t with
    | [] => cases hr
    | x :: t =>
      rw [rests, Bool.true_and] at hr
      split at hr
      · cases hr
      · -- a class that is not negated takes no slash, as the matcher sees to that
        next hx =>
        rw [List.mem_singleton.mp hr, List.count_cons_of_ne (by simpa using hx)]
        exact Nat.le_add_right _ _
  | .anyRun =>
    rw [rests] at hr
    rw [count_afterRun (by simp) hr]
    exact Nat.le_add_right _ _
  | .deepStart => cases hk
  | .deepEnd => cases hk
  | .deepMiddle => cases hk
  | .oneOf negated ranges =>
    match t with
    | [] => cases hr
    | x :: t =>
      rw [rests] at hr
      split at hr
      · next hx =>
        have hne : x ≠ slash := by
          rintro rfl
          rw [isShallow, beq_iff_eq] at hk
          rw [hk, bne_self_eq_false] at hx
          cases hx
        rw [List.mem_singleton.mp hr, List.count_cons_of_ne hne]
        exact Nat.le_add_right _ _
      · cases hr
  | .group branches =>
    rw [rests] at hr
    split at hr
    · rw [List.mem_singleton.mp hr]
      exact Nat.le_add_right _ _
    · exact count_restsOfBranches hk hr

/-- Parts one after the other: each takes its own slashes from what the one before has left. -/
theorem count_restsOfAll {ks : List Token} {ts : List Bytes} {r : Bytes} (hks : areShallow ks)
    (hr : r ∈ restsOfAll true ks ts) :
    ∃ t ∈ ts, t.count slash ≤ r.count slash + slashesOfAll ks := by
  match ks with
  | [] => exact ⟨r, hr, Nat.le_refl _⟩
  | k :: ks =>
    rw [areShallow, Bool.and_eq_true] at hks
    rw [restsOfAll] at hr
    obtain ⟨u, hu, hle⟩ := count_restsOfAll hks.2 hr
    rw [List.mem_eraseDups] at hu
    obtain ⟨t, ht, htu⟩ := List.mem_flatMap.mp hu
    -- `t` loses at most the slashes of `k`, and `u` at most those of the rest
    have hstep := count_rests hks.1 htu
    refine ⟨t, ht, ?_⟩
    rw [slashesOfAll]
    omega

/-- A text that a group takes is taken by one of its branches. -/
theorem count_restsOfBranches {bs : List (List Token)} {t r : Bytes}
    (hbs : areShallowBranches bs) (hr : r ∈ restsOfBranches true bs t) :
    t.count slash ≤ r.count slash + slashesOfBranches bs := by
  match bs with
  | [] => cases hr
  | b :: bs =>
    rw [areShallowBranches, Bool.and_eq_true] at hbs
    rw [restsOfBranches, List.mem_append] at hr
    rw [slashesOfBranches]
    rcases hr with hr | hr
    · -- the branch itself, which leaves the rest, or one of the others
      split at hr
      · cases hr
      · obtain ⟨u, hu, hle⟩ := count_restsOfAll hbs.1 hr
        rw [List.mem_singleton.mp hu] at hle
        omega
    · have hle := count_restsOfBranches hbs.2 hr
      omega

end

/-! ### What a pattern spells -/

/-- The slashes of the branches that stand around what is read, and of those before it. -/
def slashesOfGroups : List OpenGroup → Nat
  | [] => 0
  | g :: gs => slashesOfAll g.outside + slashesOfBranches g.branches + slashesOfGroups gs

namespace Reading

/-- The slashes of all parts that were read so far. -/
def weight (s : Reading) : Nat :=
  slashesOfAll s.branch + slashesOfGroups s.groups

variable {s s' : Reading}

/-- A part that is put on the branch counts with its slashes. -/
@[simp]
theorem weight_push (s : Reading) (last : Char) (k : Token) :
    (s.push last k).weight = slashes k + s.weight := by
  simp only [weight, push, slashesOfAll]
  omega

@[simp]
theorem weight_pushTwoStars (s : Reading) : s.pushTwoStars.weight = s.weight := by
  simp [pushTwoStars, slashes]

/-- `**` takes the place of a part, and spells nothing. -/
theorem weight_pushDeep (s : Reading) (last : Char) (atEnd : Bool) :
    (s.pushDeep last atEnd).weight ≤ s.weight := by
  -- the part that is put down has no slash of its own
  have hnew : slashes (if atEnd then .deepEnd else .deepMiddle) = 0 := by
    cases atEnd <;> rfl
  unfold pushDeep
  dsimp only
  split
  · simp [weight, *]
  · simp [weight, *]
  · next hbranch =>
    simp only [weight, hbranch, slashesOfAll, hnew]
    omega
  · next hbranch => simp [weight, hbranch, slashesOfAll, hnew]

/-- A class spells no slashes, whatever it admits. -/
theorem weight_inClass {k : OpenClass} {c : Char} (h : s.inClass k c = .ok s') :
    s'.weight = s.weight := by
  unfold inClass at h
  dsimp only at h
  split at h
  · -- closing the class puts it on the branch, where it counts for no slash
    cases h
    simp [weight, push, slashesOfAll, slashes]
  · split at h
    · split at h
      · split at h
        · cases h
        · cases h
          rfl
      · split at h <;> cases h <;> rfl
    · cases h
      rfl

/-- **Reading.** Each step spells at most the slashes that it takes from the text. -/
theorem weight_read {t : List Char} (h : s.read t = .ok s') :
    s'.weight ≤ s.weight + t.count '/' := by
  fun_induction Reading.read s t
  case case1 =>
    cases h
    exact Nat.le_add_right _ _
  case case18 | case22 => cases h
  -- inside a class
  case case2 s c r k hk ih =>
    cases hclass : s.inClass k c with
    | error _ =>
      rw [hclass] at h
      cases h
    | ok s₁ =>
      rw [hclass] at h
      have hle := ih s₁ h
      rw [weight_inClass hclass] at hle
      exact hle.trans (Nat.add_le_add_left ((List.sublist_cons_self c r).count_le '/') _)
  -- a part is read that is no slash
  case case3 ih | case4 ih | case5 ih | case6 ih | case10 ih | case11 ih | case12 ih | case13 ih |
      case20 ih =>
    refine (ih h).trans ?_
    simp [slashes]
  case case23 s _ d r ih =>
    refine (ih h).trans ?_
    simp only [weight_push, slashes, List.count_cons, beq_iff_eq]
    omega
  case case24 s _ c r _ _ _ _ _ _ _ _ _ ih =>
    refine (ih h).trans ?_
    simp only [weight_push, slashes, List.count_cons, beq_iff_eq]
    omega
  -- two stars between slashes
  case case7 ih => exact (ih h).trans (Nat.add_le_add (weight_pushDeep ..) (by simp))
  case case8 ih => exact (ih h).trans (Nat.add_le_add (weight_pushDeep ..) (by simp))
  case case9 ih => exact (ih h).trans (Nat.add_le_add (weight_pushDeep ..) (by simp))
  -- a class is opened
  case case14 ih | case15 ih | case16 ih =>
    refine (ih h).trans ?_
    simp [weight]
  -- a group is opened or closed, or a branch of it ends
  case case17 ih =>
    refine (ih h).trans ?_
    simp [weight, slashesOfGroups, slashesOfAll, slashesOfBranches]
  case case19 s _ r g gs hgroups t ih =>
    have ht : slashes t = slashesOfAll s.branch + slashesOfBranches g.branches := by
      rw [slashes, slashesOfBranches_reverse, slashesOfBranches, slashesOfAll_reverse]
    refine (ih h).trans ?_
    simp only [weight, slashesOfGroups, hgroups, slashesOfAll, ht, List.count_cons]
    omega
  case case21 s _ r g gs hgroups ih =>
    refine (ih h).trans ?_
    simp only [weight, slashesOfGroups, hgroups, slashesOfAll, slashesOfBranches,
      slashesOfAll_reverse, List.count_cons]
    omega

/-- At the end nothing is open, so what was read is the branch alone. -/
theorem slashesOfAll_finish {tokens : List Token} (h : s.finish = .ok tokens) :
    slashesOfAll tokens ≤ s.weight := by
  rw [finish] at h
  split at h
  · cases h
  · split at h
    · cases h
      rw [slashesOfAll_reverse]
      exact Nat.le_add_right _ _
    · cases h

end Reading

/-- The parts of a pattern spell at most the slashes of its text. -/
theorem slashesOfAll_parse {components : Bool} {pattern : String} {g : Glob}
    (h : parse components pattern = .ok g) :
    g.components = components ∧ slashesOfAll g.tokens ≤ pattern.toList.count '/' := by
  rw [parse] at h
  cases hread : Reading.read {} pattern.toList with
  | error _ =>
    rw [hread] at h
    cases h
  | ok s =>
    cases hfinish : s.finish with
    | error _ =>
      rw [hread, Except.bind, hfinish] at h
      cases h
    | ok tokens =>
      rw [hread, Except.bind, hfinish] at h
      cases h
      -- the slashes of the parts are at most what has been read, and that is the pattern
      refine ⟨rfl, (Reading.slashesOfAll_finish hfinish).trans ?_⟩
      simpa [Reading.weight, slashesOfAll, slashesOfGroups] using Reading.weight_read hread

/-- **Depth.** A text that a shallow glob matches has at most as many slashes as the pattern. -/
theorem count_slash_of_matches {pattern : String} {g : Glob} (h : parse true pattern = .ok g)
    (hshallow : areShallow g.tokens) {t : Bytes} (ht : g.matches t) :
    t.count slash ≤ pattern.toList.count '/' := by
  obtain ⟨hcomponents, hslashes⟩ := slashesOfAll_parse h
  rw [Glob.matches] at ht
  split at ht
  · -- a pattern that is a `**` alone is not shallow
    next htokens =>
    rw [htokens] at hshallow
    cases hshallow
  · rw [List.contains_iff_mem, hcomponents] at ht
    obtain ⟨u, hu, hle⟩ := count_restsOfAll hshallow ht
    rw [List.mem_singleton.mp hu, List.count_nil, Nat.zero_add] at hle
    exact hle.trans hslashes

end ImportAtlas.Glob
