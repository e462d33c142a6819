import ImportAtlas.Proofs.Build.File

/-!
# What a build asks about files that are left out

A build asks only about the paths that modules are known by, whether they are left out. So two
exclusions that agree on these give the same graph (`Builder.build_congr`).
-/

namespace ImportAtlas.Builder

variable {b : Builder} {e : Exclusion}

/-- Two exclusions agree on the paths that modules are known by. -/
def Agrees (b : Builder) (e : Exclusion) : Prop :=
  ∀ p, e.excludes (b.resolver.disk.canonical p) =
    b.exclusion.excludes (b.resolver.disk.canonical p)

namespace Agrees

/-- An exclusion is asked about the target of a resolved import only. That is a canonical path, on
which the two agree. -/
theorem addRecord (h : b.Agrees e) :
    Builder.addRecord { b with exclusion := e } = b.addRecord := by
  funext r record
  rw [Builder.addRecord, Builder.addRecord]
  cases hresolve : b.resolver.resolve record r.id with
  | error u => rfl
  | ok target? =>
    cases target? with
    | none => rfl
    | some target =>
      -- what a record resolves to is a canonical path, and on these the exclusions agree
      obtain ⟨p, rfl⟩ := Resolver.exists_canonical hresolve
      simp only [h p]

/-- A file is read record by record, and nothing else of reading asks the exclusion. -/
theorem read (h : b.Agrees e) : Builder.read { b with exclusion := e } = b.read := by
  funext id isEntry
  simp only [Builder.read, Builder.readContent, h.addRecord]
  rfl

/-- The turns are the same function, so the runs are. -/
theorem run (h : b.Agrees e) : Builder.run { b with exclusion := e } = b.run := by
  have hturn : Builder.turn { b with exclusion := e } = b.turn := by
    funext entries id s
    simp only [Builder.turn, h.read]
  have hstep : Builder.step { b with exclusion := e } = b.step := by
    funext c entries s
    simp only [Builder.step, hturn]
  funext c entries s
  simp only [Builder.run, hstep]

/-- The entries are canonical paths too. -/
theorem entriesOf (h : b.Agrees e) :
    Builder.entriesOf { b with exclusion := e } = b.entriesOf := by
  funext files
  simp only [Builder.entriesOf]
  congr 1
  refine List.filter_congr fun p hp => ?_
  obtain ⟨file, -, rfl⟩ := List.mem_map.mp hp
  rw [h file]

end Agrees

/-- Exclusions that agree on the paths of modules give the same graph. -/
theorem build_congr (h : b.Agrees e) (c : Schedule) (generatedAt : String) (files : List Path) :
    Builder.build { b with exclusion := e } c generatedAt files = b.build c generatedAt files := by
  simp only [Builder.build, h.entriesOf, h.run]
  rfl

/-- The patterns of a project reach nothing of its builder but the exclusion. -/
theorem exists_ofProject {d : Disk} (l : Language) {p : Project} {xs ys : List String}
    {e e' : Exclusion} (h : { p with excludePatterns := xs : Project }.exclusion = .ok e)
    (h' : { p with excludePatterns := ys : Project }.exclusion = .ok e') :
    ∃ b, ofProject d l { p with excludePatterns := xs } = .ok b ∧
      ofProject d l { p with excludePatterns := ys } = .ok { b with exclusion := e' } ∧
      b.exclusion = e ∧ b.resolver.disk = d := by
  refine ⟨⟨Resolver.ofProject d l p, e, p.root, p.unwrapReExports⟩, ?_, ?_, rfl, rfl⟩
  · rw [ofProject, h]
    rfl
  · rw [ofProject, h']
    rfl

end ImportAtlas.Builder
