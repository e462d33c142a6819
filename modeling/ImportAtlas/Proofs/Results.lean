import Mathlib.Data.List.Basic
import Mathlib.Data.List.Forall2

/-!
# Lists of results

A list whose members are read one after another.

* `mapM_eq_ok_iff` — it is read when each of its members is;
* `mapM_eq_of_forall₂` — lists whose members give the same, one by one, give the same.
-/

namespace ImportAtlas

variable {ε α β : Type} {f : α → Except ε β} {xs : List α} {ys : List β}

/-- The results of a list are those of its members, none of which is an error. -/
theorem mapM_eq_ok_iff : xs.mapM f = .ok ys ↔ xs.map f = ys.map .ok := by
  induction xs generalizing ys with
  | nil => cases ys <;> simp [pure, Except.pure]
  | cons x xs ih =>
    rw [List.mapM_cons, List.map_cons]
    cases ys with
    | nil =>
      -- the first member alone would give a result
      rcases f x with - | y <;> rcases xs.mapM f with - | zs <;>
        simp [bind, Except.bind, pure, Except.pure]
    | cons z zs =>
      rw [List.map_cons, List.cons.injEq, ← ih]
      rcases f x with - | y <;> rcases xs.mapM f with - | us <;>
        simp [bind, Except.bind, pure, Except.pure]

/-- Lists whose members give the same, one by one, give the same. -/
theorem mapM_eq_of_forall₂ {γ : Type} {R : α → γ → Prop} {g : γ → Except ε β} {zs : List γ}
    (hfg : ∀ x z, R x z → f x = g z) (h : List.Forall₂ R xs zs) : xs.mapM f = zs.mapM g := by
  induction h with
  | nil => rfl
  | cons hxz _ ih => rw [List.mapM_cons, List.mapM_cons, hfg _ _ hxz, ih]

end ImportAtlas
