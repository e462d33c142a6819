import ImportAtlas.Proofs.Build.ReExport

/-!
# Where a symbol is declared

A symbol is declared by the module at which the hops of its name come to an end, whatever modules
they pass (`ReExportTable.Way`). `ReExportTable.follow` gives up at a module that it has passed
before, under whatever name. So it finds the declaration exactly when the hops before it start from
different modules (`ReExportTable.follow_eq_iff`).

* `Way.follows` — a way of different modules is followed to its end;
* `Way.cut` — on any other way the module at which `follow` gives up passes the name on.

Both are stated for the modules that have been passed already, which grow from hop to hop. The
second one separates the two ends: a declaration does not pass its name on.
-/

namespace ImportAtlas

namespace ReExportTable

/-- The way of a name, hop by hop: it starts from the modules `passed`, in their order, and has come
to `r`. Modules may be passed any number of times. -/
inductive Way (table : ReExportTable) : Path → String → List Path → Path × String → Prop where
  | here {id : Path} {name : String} : Way table id name [] (id, name)
  | hop {id next : Path} {name inner : String} {passed : List Path} {r : Path × String}
    (hhop : table.hop? id name = some (next, inner)) (hrest : Way table next inner passed r) :
    Way table id name (id :: passed) r

variable {table : ReExportTable} {seen passed : List Path} {id : Path} {name : String}
  {r r' : Path × String}

/-- A way is followed to its end when its hops start from different modules. -/
theorem Way.follows (h : table.Way id name passed r) (hend : table.hop? r.1 r.2 = none)
    (hpassed : passed.Pairwise fun p q => ¬ p.same q) (hseen : ∀ p ∈ passed, ¬ p.among seen) :
    table.Follows seen id name r := by
  induction h generalizing seen with
  | @here id name =>
    -- the end may have been passed before: the way does not go on from there anyhow
    by_cases hback : id.among seen
    · exact .back hback
    · exact .declared hback hend
  | @hop id next name inner passed r hhop _ ih =>
    obtain ⟨hid, hrest⟩ := List.pairwise_cons.mp hpassed
    obtain ⟨hid_seen, hrest_seen⟩ := List.forall_mem_cons.mp hseen
    refine .hop hid_seen hhop (ih hend hrest fun p hp hmem => ?_)
    rw [Path.among_cons, Bool.or_eq_true] at hmem
    rcases hmem with hsame | hmem
    · exact hid p hp hsame
    · exact hrest_seen p hp hmem

/-- On any other way the module at which it is given up has been passed, and passes the name on. -/
theorem Way.cut (h : table.Way id name passed r) (hfollows : table.Follows seen id name r')
    (htwice : ¬ ((passed.Pairwise fun p q => ¬ p.same q) ∧ ∀ p ∈ passed, ¬ p.among seen)) :
    (∃ before after, passed = before ++ r'.1 :: after ∧ table.Way id name before r' ∧
      r'.1.among (before ++ seen)) ∧ (table.hop? r'.1 r'.2).isSome := by
  induction h generalizing seen with
  | here => exact absurd ⟨.nil, by simp⟩ htwice
  | @hop id next name inner passed r hhop _ ih =>
    cases hfollows with
    | back hback => exact ⟨⟨[], passed, rfl, .here, hback⟩, by rw [hhop]; rfl⟩
    | declared _ hnone => rw [hhop] at hnone; cases hnone
    | hop hid_seen hhop' hrest =>
      obtain ⟨rfl, rfl⟩ : next = _ ∧ inner = _ := by
        simpa [hhop] using hhop'
      -- this module was new, so what is passed twice comes later, or is this module again
      have htwice' : ¬ ((passed.Pairwise fun p q => ¬ p.same q) ∧
          ∀ p ∈ passed, ¬ p.among (id :: seen)) := by
        rintro ⟨hpassed, hnew⟩
        refine htwice ⟨List.pairwise_cons.mpr ⟨fun p hp hsame => hnew p hp ?_, hpassed⟩,
          List.forall_mem_cons.mpr ⟨hid_seen, fun p hp hmem => hnew p hp ?_⟩⟩
        · rw [Path.among_cons, hsame, Bool.true_or]
        · rw [Path.among_cons, hmem, Bool.or_true]
      obtain ⟨⟨before, after, heq, hway, hmem⟩, hsome⟩ := ih hrest htwice'
      refine ⟨⟨id :: before, after, by rw [heq]; rfl, .hop hhop hway, ?_⟩, hsome⟩
      simp only [Path.among_append, Path.among_cons, List.cons_append, Bool.or_eq_true] at hmem ⊢
      tauto

/-- **Where a symbol is declared.** Let the hops of a name come to an end. Then `follow` gives this
end, module and name, exactly when no two of the hops start from one module. Otherwise it gives up
at a module that it has passed under another name, and that passes the name on. -/
theorem follow_eq_iff (hway : table.Way id name passed r) (hend : table.hop? r.1 r.2 = none) :
    let stop := table.follow id name
    (stop = r ↔ passed.Pairwise fun p q => ¬ p.same q) ∧
    (stop ≠ r → ∃ before after, passed = before ++ stop.1 :: after ∧
      table.Way id name before stop ∧ stop.1.among before ∧
      (table.hop? stop.1 stop.2).isSome) := by
  intro stop
  have hfollow : table.Follows [] id name stop := follows_iff.mpr rfl
  have hfar : (passed.Pairwise fun p q => ¬ p.same q) → stop = r := fun hpassed =>
    (follows_iff.mp (hway.follows hend hpassed fun _ _ => Bool.false_ne_true)).symm
  have hcut := fun htwice => hway.cut hfollow (mt And.left htwice)
  refine ⟨⟨fun heq => ?_, hfar⟩, fun hne => ?_⟩
  · -- a declaration does not pass its name on
    by_contra htwice
    have hsome := (hcut htwice).2
    rw [heq, hend] at hsome
    exact Bool.false_ne_true hsome
  · obtain ⟨⟨before, after, heq, hbefore, hmem⟩, hsome⟩ := hcut (mt hfar hne)
    rw [List.append_nil] at hmem
    exact ⟨before, after, heq, hbefore, hmem, hsome⟩

/-- Three modules that pass a symbol on under names of their own, and the one that declares it. -/
theorem follow_eq_iff_of_three :
    let a : Path := ⟨"/p/a.js"⟩
    let b : Path := ⟨"/p/b.js"⟩
    let c : Path := ⟨"/p/c.js"⟩
    let d : Path := ⟨"/p/d.js"⟩
    let table : ReExportTable :=
      [(a, [⟨b, [⟨"y", some "x"⟩]⟩]), (b, [⟨c, [⟨"z", some "y"⟩]⟩]),
        (c, [⟨a, [⟨"other", none⟩]⟩, ⟨d, [⟨"z", none⟩]⟩])]
    table.Way a "x" [a, b, c] (d, "z") ∧ table.hop? d "z" = none ∧
      table.follow a "x" = (d, "z") := by
  intro a b c d table
  have hab : table.hop? a "x" = some (b, "y") := by decide
  have hbc : table.hop? b "y" = some (c, "z") := by decide
  have hcd : table.hop? c "z" = some (d, "z") := by decide
  -- the modules on the way are three different ones, so that the end is found
  have hway : table.Way a "x" [a, b, c] (d, "z") := .hop hab (.hop hbc (.hop hcd .here))
  have hend : table.hop? d "z" = none := by decide
  exact ⟨hway, hend, (follow_eq_iff hway hend).1.mpr (by decide)⟩

/-- A symbol that passes a module twice: the first module has `x` from the second one, which has it
from the first one as `z`, and that is declared by the third one as `w`. The way is given up at the
first module. -/
theorem follow_passedTwice :
    let a : Path := ⟨"/p/a.js"⟩
    let b : Path := ⟨"/p/b.js"⟩
    let c : Path := ⟨"/p/c.js"⟩
    let table : ReExportTable :=
      [(a, [⟨b, [⟨"y", some "x"⟩]⟩, ⟨c, [⟨"w", some "z"⟩]⟩]), (b, [⟨a, [⟨"z", some "y"⟩]⟩])]
    table.Way a "x" [a, b, a] (c, "w") ∧ table.hop? c "w" = none ∧
      table.follow a "x" = (a, "z") ∧ table.follow a "x" ≠ (c, "w") := by
  intro a b c table
  have hab : table.hop? a "x" = some (b, "y") := by decide
  have hba : table.hop? b "y" = some (a, "z") := by decide
  have hac : table.hop? a "z" = some (c, "w") := by decide
  -- the way has a third hop, which `follow` does not take
  exact ⟨.hop hab (.hop hba (.hop hac .here)), by decide, by decide, by decide⟩

end ReExportTable

end ImportAtlas
