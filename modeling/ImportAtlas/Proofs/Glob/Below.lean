import ImportAtlas.Proofs.Glob.Read

/-!
# Patterns below a directory

A text that ends with a slash, with a pattern behind it, is read in two pieces.

* `Glob.Reading.read_append` — such a text is read to its end before what follows it is looked at;
* `Glob.exists_isSlash` — its last part is one behind which a component begins (`Glob.IsSlash`);
* `Glob.exists_parse_append` — the pattern behind it has the same parts whether or not a `./` stands
  between them.

The first two are inductions on the reading. What the last part is, is said of every state of it
(`Glob.Reading.Settled`).
-/

namespace ImportAtlas.Glob

namespace Reading

variable {s s' : Reading} {t : List Char}

/-! ### One text behind another -/

/-- A reading with another text kept for the class that is open, if one is. -/
def withText (x : List Char) (s : Reading) : Reading :=
  { s with openClass := s.openClass.map ({ · with text := x }) }

/-- Outside a class there is no text to change. -/
theorem withText_of_none (h : s.openClass = none) (x : List Char) : s.withText x = s := by
  obtain ⟨last, branch, groups, k, plain⟩ := s
  cases h
  rfl

/-- What a class becomes does not depend on the text that it keeps for its errors: only the errors
and the text itself do. -/
theorem inClass_withText (s : Reading) (k : OpenClass) (c : Char) (x : List Char) :
    (s.withText x).inClass { k with text := x } c = (s.inClass k c).map (withText x) := by
  simp only [inClass]
  by_cases hclose : c = ']' ∧ k.ranges ≠ []
  · rw [if_pos hclose, if_pos hclose]
    rfl
  · rw [if_neg hclose, if_neg hclose]
    split
    · split_ifs <;> rfl
    · rfl

/-- A text that is empty or ends with a slash. -/
def Ended (t : List Char) : Prop :=
  ∀ c ∈ t.getLast?, c = '/'

/-- Whatever is left of a pattern ends as the pattern does. -/
theorem Ended.drop (h : Ended t) (n : Nat) : Ended (t.drop n) := by
  intro c hc
  refine h c ?_
  rw [← List.take_append_drop n t, List.getLast?_append, Option.mem_def.mp hc]
  rfl

/-- Behind a character that is not its last something follows. -/
theorem Ended.exists_cons {c : Char} {r : List Char} (h : Ended (c :: r)) (hc : c ≠ '/') :
    ∃ d r', r = d :: r' :=
  List.exists_cons_of_ne_nil fun hr => hc (h c (by rw [hr]; rfl))

/-- Outside of all classes a step does not depend on the text that would be kept for one. -/
theorem read_of_step {s₁ : Reading} {r u : List Char} (hopen : s.openClass = none)
    (hrest : (s₁.withText []).read (r ++ u) = s'.read u) (hopen₁ : s₁.openClass = none)
    (hstep : s.read (t ++ u) = s₁.read (r ++ u)) (x : List Char) :
    (s.withText x).read (t ++ u) = s'.read u := by
  rw [withText_of_none hopen₁] at hrest
  rw [withText_of_none hopen, hstep, hrest]

/-- A text that ends with a slash is read to its end before what follows it is looked at, up to the
text that is kept for a class. -/
theorem read_withText_append (h : s.read t = .ok s') (hclosed : s'.openClass = none)
    (hlast : Ended t) (u x : List Char) : (s.withText x).read (t ++ u) = s'.read u := by
  fun_induction Reading.read s t generalizing x
  case case1 =>
    cases h
    rw [withText_of_none hclosed]
    rfl
  -- inside a class
  case case2 s c r k hk ih =>
    have hk' : (s.withText x).openClass = some { k with text := x } := by
      rw [withText, hk]
      rfl
    rw [List.cons_append, Reading.read.eq_def]
    simp only [hk', inClass_withText]
    cases hclass : s.inClass k c with
    | error f =>
      rw [hclass] at h
      cases h
    | ok s₁ =>
      rw [hclass] at h
      exact ih s₁ h (hlast.drop 1) x
  -- a class is opened
  case case14 s hopen hplain r ih | case15 s hopen hplain r ih =>
    rw [withText_of_none hopen, List.cons_append, List.cons_append, Reading.read.eq_def]
    simp only [hopen, if_neg hplain]
    exact ih h (hlast.drop 2) _
  case case16 s hopen hplain r hnot hnot' ih =>
    obtain ⟨d, r, rfl⟩ := hlast.exists_cons (by decide)
    rw [withText_of_none hopen, List.cons_append, Reading.read.eq_def]
    simp only [hopen, if_neg hplain]
    split
    · next heq => exact absurd (List.cons.inj heq).1 fun hd => hnot r (by rw [hd])
    · next heq => exact absurd (List.cons.inj heq).1 fun hd => hnot' r (by rw [hd])
    · exact ih h (hlast.drop 1) _
  case case18 | case22 => cases h
  -- the text does not end between two stars and what is looked at behind them
  case case4 | case7 => exact absurd (hlast '*' rfl) (by decide)
  -- elsewhere no class is open
  case case3 s hopen r ih | case17 s hopen r ih =>
    refine read_of_step hopen (ih h (hlast.drop 1) []) hopen ?_ x
    rw [List.cons_append, Reading.read.eq_def]
    simp only [hopen]
  case case5 s hopen hbranch r ih =>
    refine read_of_step hopen (ih h (hlast.drop 3) []) hopen ?_ x
    simp only [List.cons_append]
    rw [Reading.read.eq_def]
    simp only [hopen, hbranch, if_true]
  case case6 s hopen hbranch r hnil hslash ih =>
    refine read_of_step hopen (ih h (hlast.drop 2) []) hopen ?_ x
    obtain ⟨d, r, rfl⟩ := (hlast.drop 1).exists_cons (by decide)
    simp only [List.cons_append]
    rw [Reading.read.eq_def]
    simp only [hopen, hbranch, if_true]
    split
    · next heq => cases heq
    · next heq => exact absurd (List.cons.inj heq).1 fun hd => hslash r (by rw [hd])
    · rfl
  case case8 s hopen hbranch hstart r ih =>
    have hopen' := (openClass_pushDeep s '/' false).trans hopen
    refine read_of_step hopen (ih h (hlast.drop 3) []) hopen' ?_ x
    simp only [List.cons_append]
    rw [Reading.read.eq_def]
    simp only [hopen, hbranch, hstart, if_true, Bool.false_eq_true, if_false]
  case case9 s hopen hbranch hstart d r hd hend ih =>
    have hopen' := (openClass_pushDeep s '*' true).trans hopen
    refine read_of_step hopen (ih h (hlast.drop 2) []) hopen' ?_ x
    simp only [List.cons_append]
    rw [Reading.read.eq_def]
    simp only [hopen, hbranch, hstart, hend, if_true, Bool.false_eq_true, if_false]
  case case10 s hopen hbranch hstart d r hd hend ih =>
    refine read_of_step hopen (ih h (hlast.drop 2) []) hopen ?_ x
    simp only [List.cons_append]
    rw [Reading.read.eq_def]
    simp only [hopen, hbranch, hstart, hend, if_true, Bool.false_eq_true, if_false]
  case case11 s hopen r hbranch hstart ih =>
    refine read_of_step hopen (ih h (hlast.drop 2) []) hopen ?_ x
    simp only [List.cons_append]
    rw [Reading.read.eq_def]
    simp only [hopen, hbranch, hstart, Bool.false_eq_true, if_false]
  case case12 s hopen r hstar ih =>
    refine read_of_step hopen (ih h (hlast.drop 1) []) hopen ?_ x
    obtain ⟨d, r, rfl⟩ := hlast.exists_cons (by decide)
    have hstar : ∀ w, d :: r ++ u = '*' :: w → False :=
      fun _ heq => hstar r (by rw [(List.cons.inj heq).1])
    rw [List.cons_append, Reading.read.eq_def]
    simp only [hopen]
  case case13 s hopen r hplain ih =>
    refine read_of_step hopen (ih h (hlast.drop 1) []) hopen ?_ x
    rw [List.cons_append, Reading.read.eq_def]
    simp only [hopen, hplain, if_true]
  case case19 s hopen r g gs hgroups group ih =>
    refine read_of_step hopen (ih h (hlast.drop 1) []) hopen ?_ x
    rw [List.cons_append, Reading.read.eq_def]
    simp only [hopen, hgroups, group]
  case case20 s hopen r hgroups ih | case21 s hopen r g gs hgroups ih =>
    refine read_of_step hopen (ih h (hlast.drop 1) []) hopen ?_ x
    rw [List.cons_append, Reading.read.eq_def]
    simp only [hopen, hgroups]
  case case23 s hopen d r ih =>
    refine read_of_step hopen (ih h (hlast.drop 2) []) hopen ?_ x
    simp only [List.cons_append]
    rw [Reading.read.eq_def]
    simp only [hopen]
  case case24 s hopen c r hany _ hstar hclass hgroup hclose hcomma hescape hescape' ih =>
    refine read_of_step hopen (ih h (hlast.drop 1) []) hopen ?_ x
    have hbackslash : c ≠ '\\' := by
      rintro rfl
      obtain ⟨d, r, rfl⟩ := hlast.exists_cons (by decide)
      exact hescape' d r rfl rfl
    refine read_cons_of_not_mem hopen ?_ (r ++ u)
    simp only [specials, List.mem_cons, List.not_mem_nil, or_false, not_or]
    exact ⟨hany, hstar, hclass, hgroup, hclose, hcomma, hbackslash⟩

/-- **Reading in two parts.** A pattern that is read to its end, with no class left open, is read on
from there. It has to end with a slash, since what another character means may depend on the next
one. -/
theorem read_append (hopen : s.openClass = none) (h : s.read t = .ok s')
    (hclosed : s'.openClass = none) (hended : Ended t) (u : List Char) :
    s.read (t ++ u) = s'.read u := by
  have hread := read_withText_append h hclosed hended u []
  rwa [withText_of_none hopen] at hread

/-! ### Behind a slash -/

/-- What the part that was read last says: behind a slash it is one that ends a component, a `**` at
the start stands alone, and no component follows one at the end. -/
structure Settled (s : Reading) : Prop where
  slash : s.last = some '/' → ∃ k r, s.branch = k :: r ∧ IsSlash k
  alone : ∀ r, s.branch = .deepStart :: r → r = []
  atEnd : ∀ r, s.branch = .deepEnd :: r → s.last = some '*'

/-- Most steps put one part on the branch, so that the part says whether the reading is settled. -/
theorem settled_cons {k : Token} {r : List Token} (hbranch : s.branch = k :: r)
    (hslash : s.last = some '/' → IsSlash k) (halone : k = .deepStart → r = [])
    (hend : k = .deepEnd → s.last = some '*') : s.Settled where
  slash hlast := ⟨k, r, hbranch, hslash hlast⟩
  alone r' hr' := by
    obtain ⟨hk, hr⟩ := List.cons.inj (hbranch.symm.trans hr')
    rw [← hr, halone hk]
  atEnd r' hr' := hend (List.cons.inj (hbranch.symm.trans hr')).1

/-- A part that is neither a slash nor one of the deep ones settles the reading. -/
theorem settled_other {k : Token} {r : List Token} (hbranch : s.branch = k :: r)
    (hlast : s.last ≠ some '/') (hstart : k ≠ .deepStart) (hend : k ≠ .deepEnd) : s.Settled :=
  settled_cons hbranch (absurd · hlast) (absurd · hstart) (absurd · hend)

/-- A branch that has just begun is settled, unless it begins behind a slash. -/
theorem settled_nil (hbranch : s.branch = []) (hlast : s.last ≠ some '/') : s.Settled where
  slash h := absurd h hlast
  alone r hr := by
    rw [hbranch] at hr
    cases hr
  atEnd r hr := by
    rw [hbranch] at hr
    cases hr

theorem settled_literal (s : Reading) (c : Char) : (s.push c (.literal c)).Settled :=
  settled_cons rfl (fun hc => .inl (by rw [Option.some.inj hc])) (by rintro ⟨⟩) (by rintro ⟨⟩)

/-- `**` takes the place of a part only where a component begins. -/
theorem Settled.pushDeep (h : s.Settled) (hbranch : ¬ s.branch.isEmpty)
    (hstart : s.atComponentStart) {last : Char} {atEnd : Bool}
    (hend : last = if atEnd then '*' else '/') : (s.pushDeep last atEnd).Settled := by
  obtain ⟨k, r, hk⟩ := List.exists_cons_of_ne_nil (by simpa using hbranch)
  unfold Reading.pushDeep
  rw [hk]
  dsimp only
  split
  · next heq =>
    -- the deep part takes the place of the one that the pattern begins with, which stands alone
    have hr := h.alone _ (hk.trans heq)
    exact settled_cons rfl (fun _ => .inr (.inl rfl)) (fun _ => hr) (by rintro ⟨⟩)
  · next heq =>
    -- behind a deep end the last character is a star, so that no component begins
    have hlast := h.atEnd _ (hk.trans heq)
    simp [atComponentStart, hlast] at hstart
  · cases atEnd with
    | true =>
      exact settled_cons rfl (fun hlast => by simp [hend] at hlast) (by rintro ⟨⟩)
        (fun _ => by rw [hend]; rfl)
    | false =>
      exact settled_cons rfl (fun _ => .inr (.inr rfl)) (by rintro ⟨⟩) (by rintro ⟨⟩)
  · next heq => cases heq

/-- Within a class nothing is put on the branch until the class is closed. -/
theorem Settled.inClass (h : s.Settled) {k : OpenClass} {c : Char}
    (hclass : s.inClass k c = .ok s') : s'.Settled := by
  obtain ⟨-, ranges, rfl⟩ | ⟨k', rfl⟩ := inClass_eq_ok hclass
  · exact settled_other rfl (by rintro ⟨⟩) (by rintro ⟨⟩) (by rintro ⟨⟩)
  · exact ⟨h.slash, h.alone, h.atEnd⟩

/-- **Reading keeps settled.** Each step puts a part on the branch for which the character that has
been read stands. -/
theorem Settled.read (hs : s.Settled) (h : s.read t = .ok s') : s'.Settled := by
  fun_induction Reading.read s t
  case case1 =>
    cases h
    exact hs
  case case2 s c r k hk ih =>
    cases hclass : s.inClass k c with
    | error f =>
      rw [hclass] at h
      cases h
    | ok s₁ =>
      rw [hclass] at h
      exact ih s₁ (hs.inClass hclass) h
  case case18 | case22 => cases h
  case case13 ih | case20 ih | case23 ih | case24 ih => exact ih (settled_literal ..) h
  case case3 ih | case6 ih | case10 ih | case11 ih | case12 ih =>
    exact ih (settled_other rfl (by rintro ⟨⟩) (by rintro ⟨⟩) (by rintro ⟨⟩)) h
  -- two stars in front of all else
  case case4 hbranch ih =>
    exact ih (settled_cons rfl (by rintro ⟨⟩) (fun _ => List.isEmpty_iff.mp hbranch)
      (by rintro ⟨⟩)) h
  case case5 hbranch _ ih =>
    exact ih (settled_cons rfl (fun _ => .inr (.inl rfl)) (fun _ => List.isEmpty_iff.mp hbranch)
      (by rintro ⟨⟩)) h
  -- two stars as a whole component
  case case7 hbranch hstart ih => exact ih (hs.pushDeep hbranch hstart rfl) h
  case case8 hbranch hstart _ ih => exact ih (hs.pushDeep hbranch hstart rfl) h
  case case9 hbranch hstart _ _ _ _ ih => exact ih (hs.pushDeep hbranch hstart rfl) h
  case case14 ih | case15 ih | case16 ih => exact ih ⟨hs.slash, hs.alone, hs.atEnd⟩ h
  case case19 group ih =>
    exact ih (settled_other rfl (by rintro ⟨⟩) (by simp [group]) (by simp [group])) h
  case case17 ih | case21 ih => exact ih (settled_nil rfl (by rintro ⟨⟩)) h

/-- A character within a class leaves the class open or is the last that has been read. -/
theorem last_inClass {k : OpenClass} {c : Char} (h : s.inClass k c = .ok s') :
    s'.openClass.isSome ∨ s'.last = some c := by
  obtain ⟨rfl, ranges, rfl⟩ | ⟨k', rfl⟩ := inClass_eq_ok h
  · exact .inr rfl
  · exact .inl rfl

/-- A class that is open is closed by some character. -/
theorem ne_nil_of_read (h : s.read t = .ok s') (hopen : s.openClass.isSome)
    (hclosed : s'.openClass = none) : t ≠ [] := by
  rintro rfl
  rw [Reading.read.eq_def] at h
  cases h
  rw [hclosed] at hopen
  cases hopen

/-- The last of some characters and what follows them. -/
theorem getLast?_append_or (x : List Char) {r : List Char} {y z : Option Char}
    (h : r ≠ [] ∨ y = x.getLast?.or z) : (x ++ r).getLast?.or z = r.getLast?.or y := by
  rw [List.getLast?_append]
  cases hr : r.getLast? with
  | none =>
    rw [h.resolve_left fun hne => hne (List.getLast?_eq_none_iff.mp hr)]
    rfl
  | some d => rfl

/-- When no class is open, the last character that was read is the last one of the text. -/
theorem last_read (h : s.read t = .ok s') (hclosed : s'.openClass = none) :
    s'.last = t.getLast?.or s.last := by
  fun_induction Reading.read s t
  case case1 =>
    cases h
    rfl
  case case2 s c r k hk ih =>
    cases hclass : s.inClass k c with
    | error f =>
      rw [hclass] at h
      cases h
    | ok s₁ =>
      rw [hclass] at h
      rw [ih s₁ h]
      refine (getLast?_append_or [c] ?_).symm
      exact (last_inClass hclass).imp_left fun hopen => ne_nil_of_read h hopen hclosed
  case case18 | case22 => cases h
  case case3 ih | case12 ih | case13 ih | case17 ih | case19 ih | case20 ih | case21 ih |
      case24 ih =>
    rw [ih h]
    exact (getLast?_append_or [_] (.inr rfl)).symm
  case case4 ih | case6 ih | case10 ih | case11 ih | case23 ih =>
    rw [ih h]
    exact (getLast?_append_or [_, _] (.inr rfl)).symm
  case case5 ih =>
    rw [ih h]
    exact (getLast?_append_or [_, _, _] (.inr rfl)).symm
  case case7 ih | case9 ih =>
    rw [ih h, last_pushDeep]
    exact (getLast?_append_or [_, _] (.inr rfl)).symm
  case case8 ih =>
    rw [ih h, last_pushDeep]
    exact (getLast?_append_or [_, _, _] (.inr rfl)).symm
  -- a class is opened: it is closed again behind it
  case case14 ih | case15 ih =>
    rw [ih h]
    exact (getLast?_append_or [_, _] (.inl (ne_nil_of_read h rfl hclosed))).symm
  case case16 ih =>
    rw [ih h]
    exact (getLast?_append_or [_] (.inl (ne_nil_of_read h rfl hclosed))).symm

end Reading

/-! ### Patterns below a directory -/

variable {components : Bool} {front : String} {g : Glob}

/-- The parts of a pattern that ends with a slash end with one behind which a component begins. -/
theorem exists_isSlash (h : parse components front = .ok g)
    (hslash : front.toList.getLast? = some '/') :
    ∃ ks k, g.tokens = ks ++ [k] ∧ IsSlash k ∧ (k = .deepStart → ks = []) := by
  obtain ⟨s, hread, hfinish, -⟩ := parse_eq_ok h
  obtain ⟨hclosed, -, hbranch⟩ := Reading.finish_eq_ok.mp hfinish
  have hsettled : s.Settled := (Reading.settled_nil rfl (by simp)).read hread
  have hlast : s.last = some '/' := by
    rw [Reading.last_read hread hclosed, hslash]
    rfl
  -- the last part read is the one of the slash
  obtain ⟨k, r, hk, hslash⟩ := hsettled.slash hlast
  refine ⟨r.reverse, k, by rw [← hbranch, hk, List.reverse_cons], hslash, ?_⟩
  rintro rfl
  rw [hsettled.alone r hk, List.reverse_nil]

/-- A pattern behind one that ends with a slash has the same parts whether or not a `./` stands
between them; that `./` is two parts of its own. -/
theorem exists_parse_append (h : parse components front = .ok g)
    (hslash : front.toList.getLast? = some '/') :
    ∃ below : String → Except Fault (List Token), ∀ p : String, ¬ ['*', '*'] <+: p.toList →
      parse components (front ++ p) =
          (below p).map (fun ks => ⟨front ++ p, components, g.tokens ++ ks⟩) ∧
        parse components (front ++ ("./" ++ p)) =
          (below p).map (fun ks => ⟨front ++ ("./" ++ p), components,
            g.tokens ++ ([.literal '.', .literal '/'] ++ ks)⟩) := by
  obtain ⟨s, hread, hfinish, -⟩ := parse_eq_ok h
  obtain ⟨hclosed, hgroups, hbranch⟩ := Reading.finish_eq_ok.mp hfinish
  have hlast : s.last = some '/' := by
    rw [Reading.last_read hread hclosed, hslash]
    rfl
  have hended : Reading.Ended front.toList := by
    intro c hc
    rw [hslash] at hc
    exact (Option.some.inj hc).symm
  -- the two texts end with the same slash, so only what stands in front differs
  let start : Reading := { s with branch := [] }
  have hself : s = start.behind s.branch := by
    rw [Reading.behind_of_groups_eq_nil (by exact hgroups)]
    rfl
  have hhere : (s.push '.' (.literal '.')).push '/' (.literal '/') =
      start.behind (.literal '/' :: .literal '.' :: s.branch) := by
    rw [Reading.behind_of_groups_eq_nil (by exact hgroups), Reading.push, ← hlast]
    rfl
  refine ⟨fun p => (start.read p.toList).bind (·.finish), fun p hp => ⟨?_, ?_⟩⟩
  all_goals beta_reduce
  · rw [parse, String.toList_append, Reading.read_append rfl hread hclosed hended, hself,
      Reading.tokens_behind (.inr hp), hbranch]
    cases (start.read p.toList).bind (·.finish) <;> rfl
  · have hdot : '.' ∉ Reading.specials := by decide
    have hslash : '/' ∉ Reading.specials := by decide
    rw [parse, String.toList_append, Reading.read_append rfl hread hclosed hended,
      String.toList_append]
    change Except.map _ ((s.read ('.' :: '/' :: p.toList)).bind _) = _
    rw [Reading.read_cons_of_not_mem hclosed hdot,
      Reading.read_cons_of_not_mem (by exact hclosed) hslash, hhere,
      Reading.tokens_behind (.inr hp), List.reverse_cons, List.reverse_cons, hbranch]
    cases (start.read p.toList).bind (·.finish) <;> simp [Except.map]

end ImportAtlas.Glob
