import ImportAtlas.Graph.Basic

/-!
# The order of paths

Paths are compared by their steps, so two paths that are the same as `Path.same` has it may still be
different texts. Everything that is decided by comparing is stable under that: `Path.order` is a
linear order up to `Path.same`, and `Path.distinct` is the ascending list of the paths of a list.

* `Path.order_eq_iff`, `Path.order_gt_iff`, `Path.order_lt_trans`: the laws of the order.
* `Path.Ascending`: a list in order, each path once.
* `Path.among_distinct`, `Path.ascending_distinct`: what `Path.distinct` makes of a list.
-/

namespace ImportAtlas

open Std (TransCmp TransOrd OrientedCmp LawfulEqOrd)

/-! ### Sorting by a comparison -/

section Sorting

variable {α : Type} (cmp : α → α → Ordering)

/-- Of two elements one is at most the other. -/
theorem isLE_total [OrientedCmp cmp] (a b : α) : (cmp a b).isLE || (cmp b a).isLE := by
  have hswap : cmp b a = (cmp a b).swap := OrientedCmp.eq_swap
  rw [hswap]
  cases cmp a b <;> rfl

/-- Sorting sorts. -/
theorem pairwise_mergeSort_isLE [TransCmp cmp] (xs : List α) :
    (xs.mergeSort fun a b => (cmp a b).isLE).Pairwise fun a b => (cmp a b).isLE :=
  List.pairwise_mergeSort (fun _ _ _ => TransCmp.isLE_trans) (isLE_total cmp) xs

end Sorting

/-! ### The order of steps -/

namespace Component

instance : TransOrd Component :=
  inferInstanceAs (TransCmp (compareLex (compareOn rank) (compareOn label)))

instance : LawfulEqOrd Component where
  eq_of_compare {a b} h := by
    have h' : (compareOn rank a b).then (compareOn label a b) = .eq := h
    rw [Ordering.then_eq_eq] at h'
    have hrank : a.rank = b.rank := LawfulEqOrd.eq_of_compare h'.1
    have hlabel : a.label = b.label := LawfulEqOrd.eq_of_compare h'.2
    -- the rank tells all kinds apart, and the label tells names apart
    cases a <;> cases b <;> simp_all [rank, label]

end Component

namespace Path

variable {p q r : Path}

/-! ### Being the same -/

theorem same_iff : p.same q ↔ p.components = q.components := by
  simp [same]

@[simp] theorem same_refl (p : Path) : p.same p := by
  simp [same]

theorem same_comm (p q : Path) : p.same q = q.same p := by
  rw [Bool.eq_iff_iff, same_iff, same_iff, eq_comm]

theorem same_symm (h : p.same q) : q.same p := by
  rwa [same_comm]

/-- Being the same is transitive. -/
theorem same_trans (hpq : p.same q) (hqr : q.same r) : p.same r := by
  rw [same_iff] at *
  exact hpq.trans hqr

/-- Paths that are the same are the same as the same others. -/
theorem same_congr_left (h : p.same q) (r : Path) : p.same r = q.same r := by
  rw [same_iff] at h
  simp only [same, h]

theorem same_congr_right (h : p.same q) (r : Path) : r.same p = r.same q := by
  rw [same_comm r p, same_comm r q, same_congr_left h]

/-! ### The order -/

instance : TransCmp order :=
  inferInstanceAs (TransCmp (compareOn components))

theorem order_eq_iff : p.order q = .eq ↔ p.same q := by
  simp [order, same]

theorem order_gt_iff : p.order q = .gt ↔ q.order p = .lt :=
  OrientedCmp.gt_iff_lt

theorem order_lt_trans (hpq : p.order q = .lt) (hqr : q.order r = .lt) : p.order r = .lt :=
  TransCmp.lt_trans hpq hqr

theorem order_congr_left (h : p.same q) (r : Path) : p.order r = q.order r := by
  simp only [order, same_iff.mp h]

/-- What comes before a path is not the same. -/
theorem not_same_of_lt (h : p.order q = .lt) : ¬ p.same q := by
  rw [← order_eq_iff, h]
  simp

/-- What comes behind a path is not the same. -/
theorem not_same_of_gt (h : p.order q = .gt) : ¬ p.same q := by
  rw [← order_eq_iff, h]
  simp

theorem not_lt_self (p : Path) : p.order p ≠ .lt :=
  fun h => not_same_of_lt h (same_refl p)

theorem not_lt_of_lt (h : p.order q = .lt) : q.order p ≠ .lt :=
  fun h' => not_lt_self p (order_lt_trans h h')

/-! ### Being among the paths of a list -/

theorem among_iff {ps : List Path} : p.among ps ↔ ∃ q ∈ ps, q.same p := by
  simp [among]

theorem among_congr (h : p.same q) (ps : List Path) : p.among ps = q.among ps := by
  simp only [among, same_congr_right h]

theorem among_of_mem {ps : List Path} (h : p ∈ ps) : p.among ps :=
  among_iff.mpr ⟨p, h, same_refl p⟩

@[simp] theorem among_nil (p : Path) : p.among [] = false := rfl

@[simp] theorem among_cons (p q : Path) (ps : List Path) :
    p.among (q :: ps) = (q.same p || p.among ps) := rfl

/-- A path is among two lists when it is among one of them. -/
@[simp] theorem among_append (p : Path) (ps qs : List Path) :
    p.among (ps ++ qs) = (p.among ps || p.among qs) := by
  simp [among]

/-- All that is the same is taken out, and nothing else. -/
theorem among_filter_not_same (p q : Path) (ps : List Path) :
    p.among (ps.filter (!·.same q)) = (!p.same q && p.among ps) := by
  rw [Bool.eq_iff_iff, Bool.and_eq_true, among_iff, among_iff]
  constructor
  · rintro ⟨r, hr, hrp⟩
    obtain ⟨hr, hrq⟩ := List.mem_filter.mp hr
    exact ⟨same_congr_left hrp q ▸ hrq, r, hr, hrp⟩
  · rintro ⟨hpq, r, hr, hrp⟩
    exact ⟨r, List.mem_filter.mpr ⟨hr, (same_congr_left hrp q).symm ▸ hpq⟩, hrp⟩

/-- Once a path more has been seen, fewer of some are left that have not been. -/
theorem length_unseen_lt {α : Type} {f : α → Path} {xs : List α} {x : α} {seen seen' : List Path}
    (hseen' : ∀ q : Path, q.among seen' = (p.same q || q.among seen)) (hx : x ∈ xs)
    (hp : p.same (f x)) (hnew : ¬ p.among seen) :
    (xs.filter fun x => !(f x).among seen').length <
      (xs.filter fun x => !(f x).among seen).length := by
  have hfilter : xs.filter (fun x => !(f x).among seen') =
      (xs.filter fun x => !(f x).among seen).filter fun x => !p.same (f x) := by
    simp [List.filter_filter, hseen']
  -- what stands for the path itself was left before
  rw [hfilter, List.length_filter_lt_length_iff_exists]
  refine ⟨x, List.mem_filter.mpr ⟨hx, ?_⟩, by simp [hp]⟩
  rw [← among_congr hp]
  simpa using hnew

/-! ### Ascending lists -/

/-- The paths of a list stand in their order, and none of them twice. -/
def Ascending (ps : List Path) : Prop :=
  ps.Pairwise fun p q => p.order q = .lt

namespace Ascending

theorem nil : Ascending [] :=
  List.Pairwise.nil

/-- Of an ascending list a path is the same as one member at most. -/
theorem eq_of_same {ps : List Path} (h : Ascending ps) (hp : p ∈ ps) (hq : q ∈ ps)
    (hpq : p.same q) : p = q := by
  induction h with
  | nil => simp at hp
  | cons hlt _ ih =>
    rcases List.mem_cons.mp hp with rfl | hp' <;> rcases List.mem_cons.mp hq with rfl | hq'
    · rfl
    -- the first of the list is smaller than all others
    · exact absurd hpq (not_same_of_lt (hlt _ hq'))
    · exact absurd (same_symm hpq) (not_same_of_lt (hlt _ hp'))
    · exact ih hp' hq'

/-- Sorted paths are different ones. -/
theorem nodup {ps : List Path} (h : Ascending ps) : ps.Nodup := by
  refine List.Pairwise.imp ?_ h
  rintro p q hlt rfl
  exact not_lt_self p hlt

/-- An ascending list is determined by its members. -/
theorem eq_of_mem_iff {ps qs : List Path} (hps : Ascending ps) (hqs : Ascending qs)
    (h : ∀ p, p ∈ ps ↔ p ∈ qs) : ps = qs := by
  have hperm := (List.perm_ext_iff_of_nodup hps.nodup hqs.nodup).mpr h
  exact hperm.eq_of_pairwise (fun _ _ _ _ hpq hqp => absurd hqp (not_lt_of_lt hpq)) hps hqs

end Ascending

/-- The paths of an insertion are those of the list and the new one, which takes the place of one
that is the same. -/
theorem mem_insert {ps : List Path} (h : q ∈ distinct.insert p ps) : q = p ∨ q ∈ ps := by
  induction ps with
  | nil => simpa [distinct.insert] using h
  | cons a ps ih =>
    simp only [distinct.insert] at h
    split at h
    · simpa using h
    · rcases List.mem_cons.mp h with rfl | h
      · exact .inl rfl
      · exact .inr (List.mem_cons_of_mem _ h)
    · rcases List.mem_cons.mp h with rfl | h
      · exact .inr List.mem_cons_self
      · exact (ih h).imp id (List.mem_cons_of_mem _)

/-- The path is put in, and the others stay. -/
theorem among_insert (r p : Path) (ps : List Path) :
    r.among (distinct.insert p ps) = (p.same r || r.among ps) := by
  induction ps with
  | nil => rfl
  | cons a ps ih =>
    simp only [distinct.insert]
    split
    · rfl
    · next h =>
      -- `p` has taken the place of `a`, which is the same
      rw [among_cons, among_cons, same_congr_left (order_eq_iff.mp h)]
      cases a.same r <;> rfl
    · rw [among_cons, ih, among_cons]
      cases a.same r <;> cases p.same r <;> rfl

/-- Putting a path in keeps the order. -/
theorem ascending_insert {ps : List Path} (h : Ascending ps) (p : Path) :
    Ascending (distinct.insert p ps) := by
  induction h with
  | nil => simp [distinct.insert, Ascending]
  | @cons a ps hlt hps ih =>
    simp only [distinct.insert]
    split
    · next hpa =>
      refine List.pairwise_cons.mpr ⟨?_, List.pairwise_cons.mpr ⟨hlt, hps⟩⟩
      intro b hb
      rcases List.mem_cons.mp hb with rfl | hb
      · exact hpa
      · exact order_lt_trans hpa (hlt b hb)
    · next hpa =>
      refine List.pairwise_cons.mpr ⟨fun b hb => ?_, hps⟩
      -- it takes the place of the one that is the same
      rw [order_congr_left (order_eq_iff.mp hpa)]
      exact hlt b hb
    · next hpa =>
      refine List.pairwise_cons.mpr ⟨fun b hb => ?_, ih⟩
      -- it comes somewhere behind the first
      rcases mem_insert hb with rfl | hb
      · exact order_gt_iff.mp hpa
      · exact hlt b hb

private theorem foldl_insert (ps qs : List Path) :
    (Ascending qs → Ascending (ps.foldl (fun set p => distinct.insert p set) qs)) ∧
      (∀ r : Path, r.among (ps.foldl (fun set p => distinct.insert p set) qs)
        = (r.among ps || r.among qs)) ∧
      ∀ r ∈ ps.foldl (fun set p => distinct.insert p set) qs, r ∈ ps ∨ r ∈ qs := by
  induction ps generalizing qs with
  | nil => exact ⟨id, fun r => rfl, fun r => .inr⟩
  | cons a ps ih =>
    -- the first path is put in, and the others after it
    obtain ⟨hasc, hamong, hmem⟩ := ih (distinct.insert a qs)
    refine ⟨fun h => hasc (ascending_insert h a), fun r => ?_, fun r hr => ?_⟩
    · rw [List.foldl_cons, hamong, among_insert, among_cons]
      cases a.same r <;> cases r.among ps <;> rfl
    · rcases hmem r hr with h | h
      · exact .inl (List.mem_cons_of_mem _ h)
      · rcases mem_insert h with rfl | h
        · exact .inl List.mem_cons_self
        · exact .inr h

theorem ascending_distinct (ps : List Path) : Ascending (distinct ps) :=
  (foldl_insert ps []).1 .nil

theorem among_distinct (r : Path) (ps : List Path) : r.among (distinct ps) = r.among ps := by
  rw [distinct, (foldl_insert ps []).2.1, among_nil, Bool.or_false]

theorem mem_of_mem_distinct {r : Path} {ps : List Path} (h : r ∈ distinct ps) : r ∈ ps :=
  ((foldl_insert ps []).2.2 r h).resolve_right (by simp)

/-- Only from no paths nothing is left. -/
theorem distinct_eq_nil {ps : List Path} : distinct ps = [] ↔ ps = [] := by
  constructor
  · intro h
    refine List.eq_nil_iff_forall_not_mem.mpr fun p hp => ?_
    have hamong := among_of_mem hp
    rw [← among_distinct, h] at hamong
    exact Bool.false_ne_true hamong
  · rintro rfl
    rfl

end Path

end ImportAtlas
