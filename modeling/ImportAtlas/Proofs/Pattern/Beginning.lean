import ImportAtlas.Proofs.Pattern
import Mathlib.Data.List.Forall2

/-!
# Matches in the beginning of a text

What follows the beginning of a text does not change what is found in the beginning, as long as no
match reaches beyond it.

* `Pattern.onward_of_mem_ends` — an end lies behind the place that it is reached from;
* `Place.Alike` — two places in a beginning that two texts have in common, with groups that have
  read the same;
* `Pattern.Local` — from such places a pattern has the same ends in the beginning, best first;
* `Pattern.Closes.exists_findAll` — where a pattern that ends with a certain character could match,
  a match is found that goes beyond that place;
* `Pattern.findAll_alike` — a pattern whose matches end with a character that neither text has
  behind the beginning finds the same in both.

The ends that lie beyond the beginning are left out of the comparison (`Pattern.within`): a run of
blanks may go on there in one text and not in the other. No end lies in front of its place, so what
was left out does not come back.
-/

namespace ImportAtlas

namespace Place

variable {p q e : Place}

/-- One place lies behind another one in the same text, or is that place. -/
def Onward (p e : Place) : Prop :=
  ∃ t, p.rest = t ++ e.rest ∧ e.offset = p.offset + t.length

theorem Onward.refl (p : Place) : p.Onward p :=
  ⟨[], rfl, rfl⟩

/-- Going on twice is going on. -/
theorem Onward.trans (hpq : p.Onward q) (hqe : q.Onward e) : p.Onward e := by
  obtain ⟨t, ht, htlen⟩ := hpq
  obtain ⟨u, hu, hulen⟩ := hqe
  refine ⟨t ++ u, by rw [ht, hu, List.append_assoc], ?_⟩
  rw [hulen, htlen, List.length_append, Nat.add_assoc]

/-- One does not go back. -/
theorem Onward.offset_le (h : p.Onward e) : p.offset ≤ e.offset := by
  obtain ⟨t, -, hlen⟩ := h
  omega

/-- Two groups of one name have read the same. -/
def AlikeGroups (g g' : String × Capture) : Prop :=
  g.1 = g'.1 ∧ g.2.text = g'.2.text

/-- Two places, equally far in two texts that have all in common up to `stop`. There the one text
goes on with `w` and the other with `w'`. -/
structure Alike (stop : Nat) (w w' : List Char) (p p' : Place) : Prop where
  before : p.before = p'.before
  offset : p.offset = p'.offset
  rest : ∃ u, p.rest = u ++ w ∧ p'.rest = u ++ w' ∧ p.offset + u.length = stop
  groups : List.Forall₂ AlikeGroups p.groups p'.groups

namespace Alike

variable {stop : Nat} {w w' : List Char} {p' : Place}

/-- Places that are alike lie in the beginning that the texts share. -/
theorem offset_le (h : Alike stop w w' p p') : p.offset ≤ stop := by
  obtain ⟨u, -, -, hlen⟩ := h.rest
  omega

/-- Groups that are alike have captured the same texts. -/
theorem lookup_alike {gs gs' : List (String × Capture)} (h : List.Forall₂ AlikeGroups gs gs')
    (name : String) : (gs.lookup name).map Capture.text = (gs'.lookup name).map Capture.text := by
  induction h with
  | nil => rfl
  | @cons g g' gs gs' hg _ ih =>
    rw [List.lookup_cons, List.lookup_cons, hg.1]
    cases name == g'.1 with
    | true => exact congrArg some hg.2
    | false => exact ih

theorem group?_eq (h : Alike stop w w' p p') (name : String) : p.group? name = p'.group? name :=
  lookup_alike h.groups name

theorem group_eq (h : Alike stop w w' p p') (name : String) : p.group name = p'.group name := by
  rw [group, group, h.group?_eq]

/-- The places behind one more character of the beginning. -/
theorem past {c : Char} {u : List Char} (h : Alike stop w w' p p') (hu : p.rest = c :: u ++ w) :
    Alike stop w w' (p.past [c] (u ++ w)) (p'.past [c] (u ++ w')) := by
  obtain ⟨v, hv, -, hlen⟩ := h.rest
  obtain rfl : v = c :: u := List.append_cancel_right (hv.symm.trans hu)
  rw [List.length_cons] at hlen
  refine ⟨rfl, congrArg (· + 1) h.offset, ⟨u, rfl, rfl, ?_⟩, h.groups⟩
  simp only [Place.past_offset, List.length_singleton]
  omega

end Alike

end Place

namespace Pattern

open Place (Alike)

variable {n n' stop offset skip : Nat} {before : Option Char} {w w' u t : List Char}
  {p p' e : Place} {a b : Pattern} {f : Char → Bool} {c : Char}

/-! ### Ends lie behind their places -/

/-- Repeating what goes on goes on. -/
theorem onward_of_mem_repeated {step : Place → List Place}
    (hstep : ∀ p, ∀ e ∈ step p, p.Onward e) (h : e ∈ repeated step n p) : p.Onward e := by
  induction n generalizing p with
  | zero =>
    obtain rfl := List.mem_singleton.mp h
    exact .refl e
  | succ n ih =>
    -- a step and then the others, or no step at all
    rcases List.mem_append.mp h with h | h
    · obtain ⟨q, hq, he⟩ := List.mem_flatMap.mp h
      exact (hstep p q (List.mem_of_mem_filter hq)).trans (ih he)
    · obtain rfl := List.mem_singleton.mp h
      exact .refl e

/-- A condition goes nowhere. -/
theorem onward_of_mem_ite {P : Prop} [Decidable P] (h : e ∈ if P then [p] else []) :
    p.Onward e := by
  split at h
  · obtain rfl := List.mem_singleton.mp h
    exact .refl e
  · cases h

/-- **Every pattern goes on** from where it begins: by induction on the pattern. -/
theorem onward_of_mem_ends (h : e ∈ ends n a p) : p.Onward e := by
  induction a generalizing p e with
  | empty =>
    obtain rfl := List.mem_singleton.mp h
    exact .refl e
  | one f =>
    obtain ⟨t, r, -, hr, rfl⟩ := (spans_one p e).mp h
    exact ⟨t, hr, rfl⟩
  | run f m =>
    obtain ⟨t, r, -, hr, rfl⟩ := (spans_run p e).mp h
    exact ⟨t, hr, rfl⟩
  | lineStart => exact onward_of_mem_ite h
  | textStart => exact onward_of_mem_ite h
  | textEnd => exact onward_of_mem_ite h
  | wordEdge => exact onward_of_mem_ite h
  | seq a b iha ihb =>
    obtain ⟨q, hq, he⟩ := mem_ends_seq.mp h
    exact (iha hq).trans (ihb he)
  | alt a b iha ihb => exact (List.mem_append.mp h).elim iha ihb
  | star a ih => exact onward_of_mem_repeated (fun _ _ => ih) h
  | group name a ih =>
    obtain ⟨q, hq, rfl⟩ := List.mem_map.mp h
    -- the group captures, which moves nothing
    exact ih (p := p) (e := q) hq

/-! ### Ends in the beginning -/

/-- The ends of a list that lie in front of `stop` or there. -/
def within (stop : Nat) (es : List Place) : List Place :=
  es.filter (·.offset ≤ stop)

/-- The places in the beginning, of two lists. -/
theorem within_append (stop : Nat) (es es' : List Place) :
    within stop (es ++ es') = within stop es ++ within stop es' :=
  List.filter_append es es'

/-- A place in the beginning is kept. -/
theorem within_cons_of_le (h : e.offset ≤ stop) (es : List Place) :
    within stop (e :: es) = e :: within stop es :=
  List.filter_cons_of_pos (decide_eq_true h)

/-- Behind `stop` no end is reached that does not lie there as well. -/
theorem within_ends_of_lt (h : stop < p.offset) : within stop (ends n a p) = [] := by
  rw [within, List.filter_eq_nil_iff]
  intro e he
  have hle := (onward_of_mem_ends he).offset_le
  simp only [decide_eq_true_eq]
  omega

/-- From like places in the common beginning of two texts the pattern has like ends there. -/
def Local (w w' : List Char) (a : Pattern) : Prop :=
  ∀ ⦃n n' stop p p'⦄, Alike stop w w' p p' →
    List.Forall₂ (Alike stop w w') (within stop (ends n a p)) (within stop (ends n' a p'))

/-- Places that are alike are kept or not, both of them. -/
theorem forall₂_within_singleton (h : Alike stop w w' p p') :
    List.Forall₂ (Alike stop w w') (within stop [p]) (within stop [p']) := by
  rw [within_cons_of_le h.offset_le, within_cons_of_le (h.offset ▸ h.offset_le)]
  exact .cons h .nil

theorem local_empty : Local w w' empty := fun _ _ _ _ _ h => forall₂_within_singleton h

/-- Whether a line begins depends on the character before. -/
theorem local_lineStart : Local w w' lineStart := by
  intro n n' stop p p' h
  rw [ends_lineStart, ends_lineStart, h.before]
  split
  · exact forall₂_within_singleton h
  · exact .nil

/-- One character is the same in both texts, or it is outside the beginning. -/
theorem local_one : Local w w' (one f) := by
  intro n n' stop p p' h
  obtain ⟨u, hu, hu', hlen⟩ := h.rest
  cases u with
  | nil =>
    -- a character behind the beginning ends beyond it
    have hbeyond : ∀ {m} {q : Place}, q.offset = stop → within stop (ends m (one f) q) = [] := by
      intro m q hq
      rw [within, List.filter_eq_nil_iff]
      intro e he
      obtain ⟨t, r, ⟨d, -, rfl⟩, -, rfl⟩ := (spans_one q e).mp he
      simp [hq]
    rw [hbeyond hlen, hbeyond (h.offset ▸ hlen)]
    exact .nil
  | cons d u =>
    rw [ends_one, ends_one, hu, hu']
    simp only [List.cons_append]
    split
    · exact forall₂_within_singleton (h.past hu)
    · exact .nil

/-- A run that has left the beginning ends beyond it. -/
theorem within_runEnds_of_lt {groups : List (String × Capture)} {shorter : List Place}
    (h : stop < offset) :
    within stop (runEnds f before offset groups shorter t) = within stop shorter := by
  -- a place behind the stop is left out
  have hhere : ∀ t, within stop (⟨before, offset, t, groups⟩ :: shorter) = within stop shorter :=
    fun t => List.filter_cons_of_neg (by simpa using h)
  induction t generalizing before offset shorter with
  | nil => exact hhere []
  | cons d t ih =>
    rw [runEnds]
    split
    · exact (ih (by omega) fun t => List.filter_cons_of_neg (by simp; omega)).trans (hhere _)
    · exact hhere _

/-- A run that has come to the end of the beginning has no more ends there. -/
theorem within_runEnds_stop {groups : List (String × Capture)} {shorter : List Place} :
    within stop (runEnds f before stop groups shorter t) =
      ⟨before, stop, t, groups⟩ :: within stop shorter := by
  cases t with
  | nil => exact within_cons_of_le (Nat.le_refl stop) _
  | cons d t =>
    rw [runEnds]
    split
    · rw [within_runEnds_of_lt (Nat.lt_succ_self stop)]
      exact within_cons_of_le (Nat.le_refl stop) _
    · exact within_cons_of_le (Nat.le_refl stop) _

/-- The ends of runs in the beginning are alike, when those found before are. -/
theorem forall₂_runEnds {shorter shorter' : List Place} (h : Alike stop w w' p p')
    (hshorter : List.Forall₂ (Alike stop w w') (within stop shorter) (within stop shorter')) :
    List.Forall₂ (Alike stop w w')
      (within stop (runEnds f p.before p.offset p.groups shorter p.rest))
      (within stop (runEnds f p'.before p'.offset p'.groups shorter' p'.rest)) := by
  obtain ⟨u, hu, hu', hlen⟩ := h.rest
  -- by induction on what is left of the common beginning
  induction u generalizing p p' shorter shorter' with
  | nil =>
    -- at its end the run may go on, but no end behind it counts
    have hstop : p.offset = stop := hlen
    have hstop' : p'.offset = stop := h.offset ▸ hlen
    rw [hstop, hstop', within_runEnds_stop, within_runEnds_stop]
    have hp : (⟨p.before, stop, p.rest, p.groups⟩ : Place) = p := by rw [← hstop]
    have hp' : (⟨p'.before, stop, p'.rest, p'.groups⟩ : Place) = p' := by rw [← hstop']
    rw [hp, hp']
    exact .cons h hshorter
  | cons d u ih =>
    have hp : (⟨p.before, p.offset, d :: (u ++ w), p.groups⟩ : Place) = p := by
      rw [← List.cons_append, ← hu]
    have hp' : (⟨p'.before, p'.offset, d :: (u ++ w'), p'.groups⟩ : Place) = p' := by
      rw [← List.cons_append, ← hu']
    have hlater : List.Forall₂ (Alike stop w w') (within stop (p :: shorter))
        (within stop (p' :: shorter')) := by
      rw [within_cons_of_le h.offset_le, within_cons_of_le (h.offset ▸ h.offset_le)]
      exact .cons h hshorter
    rw [hu, hu', List.cons_append, List.cons_append, runEnds, runEnds, hp, hp']
    split
    · -- the run goes on behind the character
      have hnext := h.past hu
      obtain ⟨-, -, -, hnextlen⟩ := hnext.rest
      exact ih hnext hlater rfl rfl (by rw [List.length_cons] at hlen; simp; omega)
    · exact hlater

/-- A run goes over the same characters as long as it stays in the beginning. -/
theorem local_run {m : Bool} : Local w w' (run f m) := by
  intro n n' stop p p' h
  have hends := @forall₂_runEnds _ _ _ _ _ f [] [] h .nil
  rw [ends_run, ends_run]
  cases m with
  | true => exact hends
  | false =>
    simp only [Bool.false_eq_true, ↓reduceIte, within, List.filter_reverse]
    exact List.forall₂_reverse_iff.mpr hends

/-- Parts that do not see beyond the beginning do not when they follow each other: nothing comes
back from behind it. -/
theorem Local.seq (ha : Local w w' a) (hb : Local w w' b) : Local w w' (.seq a b) := by
  intro n n' stop p p' h
  -- only the ends of the first part that lie in the beginning have ends there
  have hends : ∀ {m} {es : List Place}, within stop (es.flatMap (ends m b)) =
      (within stop es).flatMap fun q => within stop (ends m b q) := by
    intro m es
    induction es with
    | nil => rfl
    | cons q es ih =>
      rw [List.flatMap_cons, within_append, ih]
      by_cases hq : q.offset ≤ stop
      · rw [within_cons_of_le hq, List.flatMap_cons]
      · rw [within_ends_of_lt (by omega), within, within,
          List.filter_cons_of_neg (by simpa using hq), List.nil_append]
  rw [ends_seq, ends_seq, hends, hends]
  exact List.rel_flatMap (ha h) (fun q q' hq => hb hq)

/-- Parts that do not see beyond the beginning do not when they stand beside each other. -/
theorem Local.alt (ha : Local w w' a) (hb : Local w w' b) : Local w w' (.alt a b) := by
  intro n n' stop p p' h
  rw [ends_alt, ends_alt, within_append, within_append]
  exact List.rel_append (ha h) (hb h)

/-- What is read up to a place in the beginning is the same in both texts. -/
theorem take_eq_of_alike {q q' : Place} (h : Alike stop w w' p p') (hq : Alike stop w w' q q') :
    p.rest.take (q.offset - p.offset) = p'.rest.take (q'.offset - p'.offset) := by
  obtain ⟨u, hu, hu', hlen⟩ := h.rest
  have hle := hq.offset_le
  rw [hu, hu', ← h.offset, ← hq.offset, List.take_append_of_le_length (by omega),
    List.take_append_of_le_length (by omega)]

/-- A group captures the same text in both. -/
theorem Local.group (ha : Local w w' a) (name : String) : Local w w' (.group name a) := by
  intro n n' stop p p' h
  rw [ends_group, ends_group, within, within, List.filter_map, List.filter_map,
    List.forall₂_map_left_iff, List.forall₂_map_right_iff]
  refine (ha h).imp fun q q' hq => ?_
  exact ⟨hq.before, hq.offset, hq.rest, .cons ⟨rfl, take_eq_of_alike h hq⟩ hq.groups⟩

/-! ### What is found -/

/-- Every match of the pattern ends with the character. -/
def Closes (c : Char) (a : Pattern) : Prop :=
  ∀ ⦃n p e⦄, e ∈ ends n a p → ∃ t, p.rest = t ++ c :: e.rest ∧ e.offset = p.offset + t.length + 1

/-- A character ends with itself. -/
theorem closes_one (c : Char) : Closes c (one (· == c)) := by
  intro n p e he
  obtain ⟨t, r, ⟨d, hd, rfl⟩, hr, rfl⟩ := (spans_one p e).mp he
  obtain rfl : d = c := by simpa using hd
  exact ⟨[], hr, rfl⟩

/-- What ends with a character does so behind anything. -/
theorem Closes.seq (h : Closes c b) (a : Pattern) : Closes c (.seq a b) := by
  intro n p e he
  obtain ⟨q, hq, he⟩ := mem_ends_seq.mp he
  obtain ⟨t, ht, htlen⟩ := onward_of_mem_ends hq
  obtain ⟨u, hu, hulen⟩ := h he
  exact ⟨t ++ u, by rw [ht, hu, List.append_assoc], by rw [hulen, htlen, List.length_append]; omega⟩

/-- Where the character does not occur, nothing is found. -/
theorem Closes.findFrom_eq_nil (h : Closes c a) (ht : c ∉ t) :
    findFrom n a before offset skip t = [] := by
  -- there is no match at any place, since the character that would end it is missing
  have hnone : ∀ before offset t, c ∉ t → ends n a ⟨before, offset, t, []⟩ = [] := by
    intro before offset t ht
    refine List.eq_nil_iff_forall_not_mem.mpr fun e he => ht ?_
    obtain ⟨u, hu, -⟩ := h he
    have hrest : t = u ++ c :: e.rest := hu
    simp [hrest]
  induction t generalizing before offset with
  | nil => rw [findFrom, hnone _ _ _ ht]; simp
  | cons d t ih =>
    have hlater : c ∉ t := fun hmem => ht (.tail _ hmem)
    rw [findFrom, hnone _ _ _ ht]
    simp [ih hlater]

/-- A match from the beginning ends in the beginning, when the character does not occur behind. -/
theorem Closes.within_eq (h : Closes c a) (hw : c ∉ w) (hu : p.rest = u ++ w)
    (hlen : p.offset + u.length = stop) : within stop (ends n a p) = ends n a p := by
  rw [within, List.filter_eq_self]
  intro e he
  obtain ⟨t, ht, htlen⟩ := h he
  -- the closing character does not stand in `w`, so the end comes before it
  have hle : t.length < u.length := by
    rcases List.append_eq_append_iff.mp (ht.symm.trans hu) with ⟨v, hv, hrest⟩ | ⟨v, -, hrest⟩
    · cases v with
      | nil => exact absurd (by rw [← List.nil_append w, ← hrest]; exact .head _) hw
      | cons d v => simp [hv]
    · exact absurd (by rw [hrest]; simp) hw
  simp only [decide_eq_true_eq]
  omega

/-- Where a match could begin, one is found that goes beyond that place. It begins there, or before
and then has the place within it. -/
theorem Closes.exists_findFrom (h : Closes c a) (x : List Char)
    (hends : ends n a ⟨x.getLast?.or before, offset + x.length, t, []⟩ ≠ [])
    (hskip : skip ≤ offset + x.length) :
    ∃ m ∈ findFrom n a before offset skip (x ++ t), ∃ b u v, x = u ++ v ∧
      m.finish ∈ ends n a ⟨b, offset + u.length, v ++ t, []⟩ ∧
        offset + x.length < m.finish.offset := by
  -- by what is left before the place; a match that goes beyond it is the one
  induction x generalizing before offset skip with
  | nil =>
    obtain ⟨e, he⟩ := Option.isSome_iff_exists.mp (List.isSome_head?.mpr hends)
    have hmem : e ∈ ends n a ⟨before, offset, t, []⟩ := List.mem_of_head? he
    obtain ⟨u, hu, hlen⟩ := h hmem
    have hlater : offset < e.offset := by
      rw [hlen]
      exact Nat.lt_succ_of_le (Nat.le_add_right _ _)
    refine ⟨⟨offset, e⟩, ?_, before, [], [], rfl, hmem, hlater⟩
    cases t with
    | nil => simp at hu
    | cons d t =>
      have hhead : (ends n a ⟨before, offset, d :: t, []⟩).head? = some e := he
      rw [List.nil_append, findFrom, if_neg (by simpa using hskip), hhead]
      exact .head _
  | cons d x ih =>
    rw [getLast?_cons_or, List.length_cons, Nat.add_comm x.length 1, ← Nat.add_assoc] at hends
    rw [List.length_cons] at hskip ⊢
    have hgo : ∀ {skip}, skip ≤ offset + 1 + x.length →
        ∃ m ∈ findFrom n a (some d) (offset + 1) skip (x ++ t), ∃ b u v, d :: x = u ++ v ∧
          m.finish ∈ ends n a ⟨b, offset + u.length, v ++ t, []⟩ ∧
            offset + (x.length + 1) < m.finish.offset := by
      intro skip hskip
      obtain ⟨m, hm, b, u, v, hx, hfinish, hbeyond⟩ := ih hends hskip
      refine ⟨m, hm, b, d :: u, v, by rw [hx]; rfl, ?_, by omega⟩
      rwa [List.length_cons, Nat.add_comm u.length 1, ← Nat.add_assoc]
    rw [List.cons_append, findFrom]
    split
    · exact hgo (by omega)
    · cases he : (ends n a ⟨before, offset, d :: (x ++ t), []⟩).head? with
      | none => exact hgo (by omega)
      | some e =>
        by_cases hreach : offset + (x.length + 1) < e.offset
        · exact ⟨⟨offset, e⟩, .head _, before, [], d :: x, rfl, List.mem_of_head? he, hreach⟩
        · obtain ⟨m, hm, hrest⟩ := @hgo e.offset (by omega)
          exact ⟨m, .tail _ hm, hrest⟩

/-- Where a match could begin there is one, or one that begins before goes beyond. -/
theorem Closes.exists_findAll (h : Closes c a) (x : List Char)
    (hends : ∀ n, ends n a ⟨x.getLast?, x.length, t, []⟩ ≠ []) :
    ∃ m ∈ findAll a (x ++ t), ∃ n b u v, x = u ++ v ∧
      m.finish ∈ ends n a ⟨b, u.length, v ++ t, []⟩ ∧ x.length < m.finish.offset := by
  have hfrom := @Closes.exists_findFrom (x ++ t).length 0 0 none t a c h x
  simp only [Option.or_none, Nat.zero_add] at hfrom
  obtain ⟨m, hm, hrest⟩ := hfrom (hends _) (Nat.zero_le _)
  exact ⟨m, hm, _, hrest⟩

/-- Two matches that begin and end at like places of the common beginning. -/
structure Found.Alike (stop : Nat) (w w' : List Char) (m m' : Found) : Prop where
  offset : m.offset = m'.offset
  offset_le : m.offset ≤ stop
  finish : Place.Alike stop w w' m.finish m'.finish

section Search

variable (hc : Closes c a) (ha : Local w w' a) (hw : c ∉ w) (hw' : c ∉ w')

include hc ha hw hw'

/-- **Searching in the beginning.** Two texts that begin alike have the same matches there, as long
as what follows in each does not contain the character that matches end with. -/
theorem findFrom_alike (n n' : Nat) (u : List Char) (hlen : offset + u.length = stop) :
    List.Forall₂ (Found.Alike stop w w') (findFrom n a before offset skip (u ++ w))
      (findFrom n' a before offset skip (u ++ w')) := by
  induction u generalizing before offset skip with
  | nil =>
    rw [List.nil_append, List.nil_append, hc.findFrom_eq_nil hw, hc.findFrom_eq_nil hw']
    exact .nil
  | cons d u ih =>
    have hnext : offset + 1 + u.length = stop := by
      rw [List.length_cons] at hlen
      omega
    -- matches that end with `c` end in the beginning, since what follows has none
    have hends : List.Forall₂ (Alike stop w w') (ends n a ⟨before, offset, d :: (u ++ w), []⟩)
        (ends n' a ⟨before, offset, d :: (u ++ w'), []⟩) := by
      have hlocal := @ha n n' stop ⟨before, offset, d :: u ++ w, []⟩
        ⟨before, offset, d :: u ++ w', []⟩ ⟨rfl, rfl, ⟨d :: u, rfl, rfl, hlen⟩, .nil⟩
      rwa [hc.within_eq hw rfl hlen, hc.within_eq hw' rfl hlen] at hlocal
    rw [List.cons_append, List.cons_append, findFrom, findFrom]
    split
    · exact ih hnext
    · generalize ends n a _ = es at hends ⊢
      generalize ends n' a _ = es' at hends ⊢
      cases hends with
      | nil => exact ih hnext
      | cons he _ =>
        have hle : offset ≤ stop := by omega
        simp only [List.head?_cons, he.offset]
        exact .cons ⟨rfl, hle, he⟩ (ih hnext)

/-- **What is found in the beginning of a text** does not depend on what follows, when the matches
end with a character that does not occur there. -/
theorem findAll_alike (t : List Char) : List.Forall₂ (Found.Alike t.length w w')
    (findAll a (t ++ w)) (findAll a (t ++ w')) :=
  findFrom_alike hc ha hw hw' _ _ t (Nat.zero_add _)

end Search

end Pattern

end ImportAtlas
