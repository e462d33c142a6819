import ImportAtlas.Proofs.Path.Order
import Mathlib.Data.List.Induction

/-!
# Tables by path

What is kept where after a table has been written to, for tables whose paths ascend.

* `Keyed.Ascending`: the paths of a table stand in order, each once.
* `Keyed.value?_alter`, `Keyed.value?_update`: the values after a change.
* `Keyed.ascending_alter`, `Keyed.ascending_update`: a change keeps the order.
-/

namespace ImportAtlas

namespace Keyed

variable {α : Type} {m : Keyed α} {p q : Path}

/-- The paths of a table stand in their order, and none of them twice. -/
def Ascending (m : Keyed α) : Prop :=
  Path.Ascending (m.map (·.1))

theorem Ascending.nil : Ascending ([] : Keyed α) :=
  List.Pairwise.nil

/-- A table is sorted when its first key is before the others and these are sorted. -/
theorem ascending_cons {k : Path} {a : α} :
    Ascending ((k, a) :: m) ↔ (∀ b ∈ m, k.order b.1 = .lt) ∧ m.Ascending := by
  simp [Ascending, Path.Ascending]

@[simp] theorem value?_nil (p : Path) : value? ([] : Keyed α) p = none := rfl

/-- The value of a path is that of the first key which is the same. -/
theorem value?_cons (k : Path) (a : α) (m : Keyed α) (p : Path) :
    value? ((k, a) :: m) p = if k.same p then some a else m.value? p := by
  simp only [value?, List.find?_cons]
  cases k.same p <;> rfl

theorem holds_cons (k : Path) (a : α) (m : Keyed α) (p : Path) :
    holds ((k, a) :: m) p = (k.same p || m.holds p) := rfl

theorem holds_eq (m : Keyed α) (p : Path) : m.holds p = (m.value? p).isSome := by
  rw [holds, value?, Option.isSome_map, List.isSome_find?]

/-- A table holds what is among its keys. -/
theorem holds_iff_among (m : Keyed α) (p : Path) : m.holds p = p.among (m.map (·.1)) := by
  simp only [holds, Path.among, List.any_map]
  rfl

theorem value?_congr (h : p.same q) (m : Keyed α) : m.value? p = m.value? q := by
  simp only [value?, Path.same_congr_right h]

theorem holds_congr (h : p.same q) (m : Keyed α) : m.holds p = m.holds q := by
  rw [holds_eq, holds_eq, value?_congr h]

/-- A path in front of all of a table is none of it. -/
theorem value?_of_lt (hlt : ∀ b ∈ m, p.order b.1 = .lt) : m.value? p = none := by
  rw [value?, Option.map_eq_none_iff, List.find?_eq_none]
  intro b hb hsame
  exact Path.not_same_of_lt (hlt b hb) (Path.same_symm hsame)

/-- A value stands in the table, under a key that is the same. -/
theorem mem_of_value? {a : α} (h : m.value? p = some a) : ∃ k, k.same p ∧ (k, a) ∈ m := by
  obtain ⟨⟨k, b⟩, hfind, rfl⟩ := Option.map_eq_some_iff.mp h
  have hsame : k.same p := by simpa using List.find?_some hfind
  exact ⟨k, hsame, List.mem_of_find?_eq_some hfind⟩

/-- What stands in a sorted table is found by its key. -/
theorem value?_of_mem (hm : m.Ascending) {k : Path} {a : α} (h : (k, a) ∈ m) :
    m.value? k = some a := by
  induction m with
  | nil => simp at h
  | cons b m ih =>
    obtain ⟨hlt, hasc⟩ := ascending_cons.mp hm
    rw [value?_cons]
    rcases List.mem_cons.mp h with rfl | h
    · simp
    · have hne : ¬ b.1.same k := Path.not_same_of_lt (hlt (k, a) h)
      rw [if_neg hne, ih hasc h]

/-! ### Writing a value -/

/-- The paths of a written table are those of the table and the one that is written at. -/
theorem fst_mem_alter {f : Option α → α} {b : Path × α} (h : b ∈ m.alter p f) :
    b.1 = p ∨ b.1 ∈ m.map (·.1) := by
  induction m with
  | nil =>
    simp only [alter, List.mem_singleton] at h
    exact .inl (congrArg Prod.fst h)
  | cons c m ih =>
    simp only [alter] at h
    -- the new key comes before the first, takes its place or comes behind it
    split at h
    · rcases List.mem_cons.mp h with rfl | h
      · exact .inl rfl
      · exact .inr (List.mem_map_of_mem h)
    · rcases List.mem_cons.mp h with rfl | h
      · exact .inr (by simp)
      · exact .inr (List.mem_map_of_mem (List.mem_cons_of_mem _ h))
    · rcases List.mem_cons.mp h with rfl | h
      · exact .inr (by simp)
      · exact (ih h).imp id (by simp_all)

/-- An altered table is sorted. -/
theorem ascending_alter (hm : m.Ascending) (p : Path) (f : Option α → α) :
    (m.alter p f).Ascending := by
  induction m with
  | nil => simp [alter, Ascending, Path.Ascending]
  | cons c m ih =>
    obtain ⟨hlt, hasc⟩ := ascending_cons.mp hm
    simp only [alter]
    -- the path goes in front of the first entry, to it, or somewhere behind it
    split
    · next hpc =>
      refine ascending_cons.mpr ⟨fun b hb => ?_, hm⟩
      rcases List.mem_cons.mp hb with rfl | hb
      · exact hpc
      · exact Path.order_lt_trans hpc (hlt b hb)
    · exact ascending_cons.mpr ⟨hlt, hasc⟩
    · next hpc =>
      refine ascending_cons.mpr ⟨fun b hb => ?_, ih hasc⟩
      rcases fst_mem_alter hb with hbp | hb
      · rw [hbp]
        exact Path.order_gt_iff.mp hpc
      · obtain ⟨d, hd, hdb⟩ := List.mem_map.mp hb
        rw [← hdb]
        exact hlt d hd

/-- What is kept after a value has been written. -/
theorem value?_alter (hm : m.Ascending) (p : Path) (f : Option α → α) (q : Path) :
    (m.alter p f).value? q = if p.same q then some (f (m.value? p)) else m.value? q := by
  induction m with
  | nil => rw [alter, value?_cons, value?_nil, value?_nil]
  | cons c m ih =>
    obtain ⟨k, a⟩ := c
    obtain ⟨hlt, hasc⟩ := ascending_cons.mp hm
    simp only [alter]
    split
    · next hpk =>
      -- `p` stands in front of the whole table, so nothing is kept there yet
      have hnone : value? ((k, a) :: m) p = none := by
        refine value?_of_lt fun b hb => ?_
        rcases List.mem_cons.mp hb with rfl | hb
        · exact hpk
        · exact Path.order_lt_trans hpk (hlt b hb)
      rw [hnone, value?_cons p]
    · next hpk =>
      -- `p` is the first path of the table, though it may be another text
      have hsame := Path.order_eq_iff.mp hpk
      rw [value?_cons, value?_cons, value?_cons, ← Path.same_congr_left hsame,
        if_pos (Path.same_symm hsame)]
      split <;> rfl
    · next hpk =>
      -- `p` is written further down, so what is kept at the first path stays
      have hne : ¬ k.same p := fun h => Path.not_same_of_gt hpk (Path.same_symm h)
      rw [value?_cons, ih hasc, value?_cons, value?_cons, if_neg hne]
      by_cases hkq : k.same q
      · have hpq : ¬ p.same q := fun h => hne (Path.same_trans hkq (Path.same_symm h))
        rw [if_pos hkq, if_neg hpq, if_pos hkq]
      · rw [if_neg hkq, if_neg hkq]

/-- It holds the new key and the old ones. -/
theorem holds_alter (hm : m.Ascending) (p : Path) (f : Option α → α) (q : Path) :
    (m.alter p f).holds q = (p.same q || m.holds q) := by
  rw [holds_eq, value?_alter hm, holds_eq]
  cases p.same q <;> rfl

/-- Written at for the first time, a path is one entry more. -/
theorem perm_alter_of_new (hnew : ¬ m.holds p) (f : Option α → α) :
    (m.alter p f).Perm ((p, f none) :: m) := by
  induction m with
  | nil => exact .refl _
  | cons c m ih =>
    obtain ⟨k, a⟩ := c
    -- the key is the same as none of those that are kept
    have hk : ¬ k.same p := fun h => hnew (by rw [holds_cons, h, Bool.true_or])
    have hm : ¬ holds m p := fun h => hnew (by rw [holds_cons, h, Bool.or_true])
    simp only [alter]
    split
    · exact .refl _
    · next hpk => exact absurd (Path.same_symm (Path.order_eq_iff.mp hpk)) hk
    · exact ((ih hm).cons _).trans (.swap _ _ _)

/-- Written at behind all others, a path is the last entry. -/
theorem alter_of_forall_lt (hlt : ∀ b ∈ m, b.1.order p = .lt) (f : Option α → α) :
    m.alter p f = m ++ [(p, f none)] := by
  induction m with
  | nil => rfl
  | cons c m ih =>
    obtain ⟨hc, hm⟩ := List.forall_mem_cons.mp hlt
    simp only [alter, Path.order_gt_iff.mpr hc, ih hm, List.cons_append]

/-- A table is what its entries make when they are written in their order. -/
theorem foldl_alter_of_ascending (hm : m.Ascending) :
    m.foldl (fun kept b => alter b.1 (fun _ => b.2) kept) [] = m := by
  induction m using List.reverseRecOn with
  | nil => rfl
  | append_singleton m b ih =>
    rw [Ascending, Path.Ascending, List.map_append, List.pairwise_append] at hm
    obtain ⟨hm, -, hlt⟩ := hm
    rw [List.foldl_append, ih hm, List.foldl_cons, List.foldl_nil]
    exact alter_of_forall_lt (fun c hc => hlt c.1 (List.mem_map_of_mem hc) b.1 (by simp)) _

/-! ### Changing a value -/

/-- Updating keeps the keys. -/
theorem map_fst_update (p : Path) (f : α → α) (m : Keyed α) :
    (m.update p f).map (·.1) = m.map (·.1) := by
  simp only [update, List.map_map]
  refine List.map_congr_left fun b _ => ?_
  simp only [Function.comp]
  split <;> rfl

/-- Changing the value of a key keeps the keys in order. -/
theorem ascending_update (hm : m.Ascending) (p : Path) (f : α → α) :
    (m.update p f).Ascending := by
  rwa [Ascending, map_fst_update]

/-- Changing the value of a key leaves the same keys. -/
theorem holds_update (m : Keyed α) (p : Path) (f : α → α) (q : Path) :
    (m.update p f).holds q = m.holds q := by
  rw [holds_iff_among, map_fst_update, holds_iff_among]

/-- What is kept after a value has been changed. -/
theorem value?_update (m : Keyed α) (p : Path) (f : α → α) (q : Path) :
    (m.update p f).value? q = if p.same q then (m.value? q).map f else m.value? q := by
  induction m with
  | nil => simp [update]
  | cons c m ih =>
    obtain ⟨k, a⟩ := c
    have hcons : update p f ((k, a) :: m)
        = (if k.same p then (k, f a) else (k, a)) :: update p f m := rfl
    rw [hcons, value?_cons]
    -- the first key is the one that is looked for, or the rest decides
    by_cases hkq : k.same q
    · rw [Path.same_comm p q, ← Path.same_congr_left hkq]
      by_cases hkp : k.same p
      · rw [if_pos hkp, value?_cons, if_pos hkq, if_pos hkp, if_pos hkq, Option.map_some]
      · rw [if_neg hkp, value?_cons, if_pos hkq, if_neg hkp, if_pos hkq]
    · have hfst : (if k.same p then (k, f a) else (k, a)).1 = k := by split <;> rfl
      rw [← Prod.eta (if k.same p then (k, f a) else (k, a)), hfst, value?_cons, if_neg hkq,
        if_neg hkq, ih]

end Keyed

end ImportAtlas
