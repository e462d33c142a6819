import ImportAtlas.Import
import Mathlib.Data.List.Induction

/-!
# Sets of names

A set is kept as an ascending list that has each element once. Whatever the order in which elements
come, the list has exactly these, in its own order.

* `mem_insertOnce`, `pairwise_insertOnce`: an insertion adds its element and keeps the order.
* `NameSet.mem_ofList`, `NameSet.ascending_ofList`: the set of the names of a list.
* `NameSet.ofList_of_ascending`, `NameSet.Ascending.eq_of_mem_iff`: a set is the list of its names
  and is determined by them.
-/

namespace ImportAtlas

open Std (TransCmp TransOrd OrientedCmp LawfulEqCmp LawfulEqOrd)

/-! ### Insertion -/

section Insertion

variable {α : Type} {cmp : α → α → Ordering} {x y : α} {xs ys : List α}

/-- The element is put in, and the others stay. -/
theorem mem_insertOnce [LawfulEqCmp cmp] : y ∈ insertOnce cmp x xs ↔ y = x ∨ y ∈ xs := by
  induction xs with
  | nil => simp [insertOnce]
  | cons a xs ih =>
    simp only [insertOnce]
    split
    · exact List.mem_cons
    · next heq => simp [LawfulEqCmp.eq_of_compare heq]
    · simp only [List.mem_cons, ih]
      exact or_left_comm

/-- All elements of a list are put in. -/
theorem mem_foldl_insertOnce [LawfulEqCmp cmp] :
    y ∈ xs.foldl (fun set x => insertOnce cmp x set) ys ↔ y ∈ xs ∨ y ∈ ys := by
  induction xs generalizing ys with
  | nil => simp
  | cons x xs ih =>
    rw [List.foldl_cons, ih, mem_insertOnce, List.mem_cons]
    -- the three ways to be an element, in the other order
    constructor
    · rintro (h | rfl | h)
      · exact .inl (.inr h)
      · exact .inl (.inl rfl)
      · exact .inr h
    · rintro ((rfl | h) | h)
      · exact .inr (.inl rfl)
      · exact .inl h
      · exact .inr (.inr h)

/-- Putting an element in keeps the order. -/
theorem pairwise_insertOnce [TransCmp cmp] [LawfulEqCmp cmp]
    (h : xs.Pairwise fun a b => cmp a b = .lt) (x : α) :
    (insertOnce cmp x xs).Pairwise fun a b => cmp a b = .lt := by
  induction h with
  | nil => simp [insertOnce]
  | @cons a xs hlt hxs ih =>
    simp only [insertOnce]
    -- the element goes in front of the first one, is that one, or goes somewhere behind it
    split
    · next hxa =>
      refine List.pairwise_cons.mpr ⟨fun b hb => ?_, List.pairwise_cons.mpr ⟨hlt, hxs⟩⟩
      rcases List.mem_cons.mp hb with rfl | hb
      · exact hxa
      · exact TransCmp.lt_trans hxa (hlt b hb)
    · exact List.pairwise_cons.mpr ⟨hlt, hxs⟩
    · next hxa =>
      refine List.pairwise_cons.mpr ⟨fun b hb => ?_, ih⟩
      rcases mem_insertOnce.mp hb with rfl | hb
      · exact OrientedCmp.gt_iff_lt.mp hxa
      · exact hlt b hb

/-- An element that is larger than all others goes to the end. -/
theorem insertOnce_of_forall_lt [OrientedCmp cmp] (h : ∀ a ∈ xs, cmp a x = .lt) :
    insertOnce cmp x xs = xs ++ [x] := by
  induction xs with
  | nil => rfl
  | cons a xs ih =>
    obtain ⟨ha, hxs⟩ := List.forall_mem_cons.mp h
    simp only [insertOnce, OrientedCmp.gt_iff_lt.mpr ha, ih hxs, List.cons_append]

end Insertion

/-! ### Names -/

instance : TransOrd ImportedName :=
  inferInstanceAs
    (TransCmp (compareLex (compareOn ImportedName.name) (compareOn ImportedName.rename)))

instance : LawfulEqOrd ImportedName where
  eq_of_compare {m n} h := by
    have h' : (compareOn ImportedName.name m n).then (compareOn ImportedName.rename m n) = .eq := h
    rw [Ordering.then_eq_eq] at h'
    have hname : m.name = n.name := LawfulEqOrd.eq_of_compare h'.1
    have hrename : m.rename = n.rename := LawfulEqOrd.eq_of_compare h'.2
    cases m
    cases n
    simp_all

namespace NameSet

variable {n : ImportedName} {s names : List ImportedName}

/-- The names of a set stand in their order, each once. -/
def Ascending (s : NameSet) : Prop :=
  s.Pairwise fun m n => compare m n = .lt

theorem mem_insert {m : ImportedName} : n ∈ NameSet.insert m s ↔ n = m ∨ n ∈ s :=
  mem_insertOnce

theorem ascending_insert (h : Ascending s) (n : ImportedName) : Ascending (NameSet.insert n s) :=
  pairwise_insertOnce h n

/-- The last name is put into the set of the others. -/
theorem ofList_concat (names : List ImportedName) (n : ImportedName) :
    ofList (names ++ [n]) = NameSet.insert n (ofList names) := by
  rw [ofList, List.foldl_append]
  rfl

/-- The set of the names of a list has these and no others. -/
theorem mem_ofList : n ∈ ofList names ↔ n ∈ names :=
  mem_foldl_insertOnce.trans (or_iff_left List.not_mem_nil)

/-- The set of any names is sorted. -/
theorem ascending_ofList (names : List ImportedName) : Ascending (ofList names) := by
  induction names using List.reverseRecOn with
  | nil => exact .nil
  | append_singleton names n ih =>
    rw [ofList_concat]
    exact ascending_insert ih n

/-- A set is the set of its own names. -/
theorem ofList_of_ascending (h : Ascending s) : ofList s = s := by
  induction s using List.reverseRecOn with
  | nil => rfl
  | append_singleton s n ih =>
    obtain ⟨hs, -, hlt⟩ := List.pairwise_append.mp h
    rw [ofList_concat, ih hs]
    exact insertOnce_of_forall_lt fun a ha => hlt a ha n (List.mem_singleton_self n)

theorem Ascending.nodup (h : Ascending s) : s.Nodup :=
  h.imp fun hlt heq => by simp [heq] at hlt

/-- A set is determined by its names. -/
theorem Ascending.eq_of_mem_iff {t : NameSet} (hs : Ascending s) (ht : Ascending t)
    (h : ∀ n, n ∈ s ↔ n ∈ t) : s = t := by
  have hperm := (List.perm_ext_iff_of_nodup hs.nodup ht.nodup).mpr h
  have hanti : ∀ m n : ImportedName, m ∈ s → n ∈ t → compare m n = .lt → compare n m = .lt →
      m = n := fun m n _ _ hlt hgt => absurd hgt (OrientedCmp.not_lt_of_lt hlt)
  exact hperm.eq_of_pairwise hanti hs ht

end NameSet

end ImportAtlas
