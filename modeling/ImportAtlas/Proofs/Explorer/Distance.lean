import ImportAtlas.Proofs.Explorer.Layout
import ImportAtlas.Proofs.Graph.Cycles
import Mathlib.Order.Bounds.Defs

/-!
# Rows and distances

A layout lists what can be reached, the nearest first. What that means is said here without a queue:

* `Layout.Way` — a way of a number of steps along edges, the modules between its ends being open;
* `Layout.Pass` — rows for what can be reached from a start and has not been listed, each module at
  the length of a shortest way to it;
* `Layout.Passes` — passes from one module after the other that has not been listed, as long as
  there is one.

In focus the layout is one pass, in the overview it is a pass and then passes (`visible_passes`).

That a walk makes a pass rests on three facts about its rows. The queue is the beginning of them,
and what follows is what has been seen (`exists_walk_eq`), as far as the bound of the walk reaches.
The queue never spans more than two distances, so the rows are in order (`InBands`, `sorted_walk`).
And a dependency of an open row is seen already, or has a row one step further at most
(`closed_walk`). From the last one it follows that no way is shorter than the distance of a row
(`exists_row_of_way`).
-/

namespace ImportAtlas

namespace Layout

variable {g : ModuleGraph} {isOpen : Path → Nat → Bool} {opened : Path → Prop} {n : Nat}
  {queue rows : List (Path × Nat)} {seen : List Path} {p q s : Path}

/-! ### Ways -/

/-- There is a way of a number of steps along edges from a module to another. All modules between
its ends are open. -/
inductive Way (g : ModuleGraph) (opened : Path → Prop) (s : Path) : Nat → Path → Prop where
  | here {p : Path} (h : s.same p) : Way g opened s 0 p
  | step {n : Nat} {p q : Path} (h : Way g opened s n p) (hopen : n = 0 ∨ opened p)
    (hpq : g.Leads p q) : Way g opened s (n + 1) q

/-- A way leads to whatever is the same as its end. -/
theorem Way.congr (h : Way g opened s n p) (hpq : p.same q) : Way g opened s n q := by
  cases h with
  | here h => exact .here (Path.same_trans h hpq)
  | step h hopen hlead => exact .step h hopen (hlead.congr (Path.same_refl _) hpq)

/-- A way begins at whatever is the same as its start. -/
theorem Way.congr_start {s' : Path} (h : Way g opened s n p) (hs : s.same s') :
    Way g opened s' n p := by
  induction h with
  | here h => exact .here (Path.same_trans (Path.same_symm hs) h)
  | step _ hopen hlead ih => exact .step ih hopen hlead

/-- What can be reached can be reached on a shortest way. -/
theorem Way.exists_isLeast (h : Way g opened s n p) :
    ∃ m, IsLeast {m | Way g opened s m p} m := by
  classical
  have hex : ∃ m, Way g opened s m p := ⟨n, h⟩
  exact ⟨Nat.find hex, Nat.find_spec hex, fun m hm => Nat.find_min' hex hm⟩

theorem leads_iff (hg : g.Joined) : g.Leads p q ↔ q.among (g.dependencies p) :=
  (hg.among_dependencies p q).symm

/-! ### The bound of a walk -/

/-- How many edges lead to a module that has not been seen. -/
def unseen (g : ModuleGraph) (seen : List Path) : Nat :=
  (g.edges.filter fun e => !e.target.among seen).length

/-- Each new module that is a target takes an edge from those that lead to something unseen. -/
theorem unseen_append {new : List Path} (hnew : new.Pairwise fun p q => ¬ p.same q)
    (htarget : ∀ p ∈ new, ∃ e ∈ g.edges, e.target.same p) (hunseen : ∀ p ∈ new, ¬ p.among seen) :
    new.length + unseen g (seen ++ new) ≤ unseen g seen := by
  induction new generalizing seen with
  | nil => simp
  | cons p new ih =>
    obtain ⟨hp, hnew⟩ := List.pairwise_cons.mp hnew
    obtain ⟨⟨e, he, hep⟩, htarget⟩ := List.forall_mem_cons.mp htarget
    obtain ⟨hp_unseen, hunseen⟩ := List.forall_mem_cons.mp hunseen
    have hone : unseen g (seen ++ [p]) < unseen g seen := by
      refine Path.length_unseen_lt (fun q => ?_) he (Path.same_symm hep) hp_unseen
      simp [Bool.or_comm]
    -- the others are not the same as the first one
    have hunseen' : ∀ q ∈ new, ¬ q.among (seen ++ [p]) := fun q hq => by
      simp [hunseen q hq, hp q hq]
    have hrest := ih hnew htarget hunseen'
    rw [List.append_assoc, List.singleton_append] at hrest
    rw [List.length_cons]
    omega

/-- A bound that reaches for the queue and all that is unseen reaches for the rest of the walk. -/
theorem reaches_fresh (isOpen : Path → Nat → Bool) (hg : g.Joined) {id : Path} {depth : Nat}
    (hn : ((id, depth) :: queue).length + unseen g seen ≤ n + 1) :
    (queue ++ (fresh g isOpen id depth seen).map (·, depth + 1)).length +
      unseen g (seen ++ fresh g isOpen id depth seen) ≤ n := by
  have hunseen : ∀ p ∈ fresh g isOpen id depth seen, ¬ p.among seen :=
    fun p hp => (mem_fresh.mp hp).2.2
  have htarget : ∀ p ∈ fresh g isOpen id depth seen, ∃ e ∈ g.edges, e.target.same p := by
    intro p hp
    obtain ⟨e, he, -, hsame⟩ :=
      (hg.among_dependencies id p).mp (Path.among_of_mem (mem_fresh.mp hp).2.1)
    exact ⟨e, he, hsame⟩
  -- what is new was unseen, so that the queue grows by no more than the unseen get fewer
  have hle := unseen_append (fresh_spread g isOpen id depth seen) htarget hunseen
  rw [List.length_cons] at hn
  rw [List.length_append, List.length_map]
  omega

/-- **Completeness of a walk.** The queue is the beginning of the rows, and what the walk has found
besides is what it has seen. -/
theorem exists_walk_eq (isOpen : Path → Nat → Bool) (hg : g.Joined)
    (hn : queue.length + unseen g seen ≤ n) :
    ∃ found : List (Path × Nat),
      walk g isOpen n queue seen = (queue ++ found, seen ++ found.map (·.1)) := by
  induction n generalizing queue seen with
  | zero =>
    -- the bound is used up, so nothing waits
    have hqueue : queue = [] := List.eq_nil_of_length_eq_zero (by omega)
    subst hqueue
    exact ⟨[], by simp [walk]⟩
  | succ n ih =>
    cases queue with
    | nil => exact ⟨[], by simp [walk]⟩
    | cons first queue =>
      -- the first is done; what it leads to waits behind the others
      obtain ⟨id, depth⟩ := first
      obtain ⟨found, heq⟩ := ih (reaches_fresh isOpen hg hn)
      refine ⟨(fresh g isOpen id depth seen).map (·, depth + 1) ++ found, ?_⟩
      rw [walk_cons, heq]
      simp [Function.comp_def]

/-! ### The order of the rows -/

/-- What waits is in the order of its distances, and these are two at most. -/
structure InBands (queue : List (Path × Nat)) : Prop where
  sorted : queue.Pairwise fun r t => r.2 ≤ t.2
  near : ∀ r ∈ queue, ∀ t ∈ queue, t.2 ≤ r.2 + 1

/-- One module alone is a band. -/
theorem InBands.single (p : Path) (d : Nat) : InBands [(p, d)] where
  sorted := List.pairwise_singleton _ _
  near := by simp

/-- What is behind the first of the queue is not nearer, and neither is what is put there. -/
theorem InBands.le {id : Path} {depth : Nat} (h : InBands ((id, depth) :: queue))
    (new : List Path) : ∀ r ∈ queue ++ new.map (·, depth + 1), depth ≤ r.2 := by
  intro r hr
  rcases List.mem_append.mp hr with hr | hr
  · exact (List.pairwise_cons.mp h.sorted).1 r hr
  · obtain ⟨p, -, rfl⟩ := List.mem_map.mp hr
    exact Nat.le_succ depth

/-- Taking the first off the queue and putting what it leads to behind the others keeps the
bands. -/
theorem InBands.next {id : Path} {depth : Nat} (h : InBands ((id, depth) :: queue))
    (new : List Path) : InBands (queue ++ new.map (·, depth + 1)) := by
  -- all that waits is one step behind the first at most
  have hle : ∀ r ∈ queue ++ new.map (·, depth + 1), r.2 ≤ depth + 1 := by
    intro r hr
    rcases List.mem_append.mp hr with hr | hr
    · exact h.near (id, depth) List.mem_cons_self r (List.mem_cons_of_mem _ hr)
    · obtain ⟨p, -, rfl⟩ := List.mem_map.mp hr
      exact Nat.le_refl _
  refine ⟨List.pairwise_append.mpr ⟨(List.pairwise_cons.mp h.sorted).2, ?_, ?_⟩, ?_⟩
  · exact List.pairwise_map.mpr (List.pairwise_of_forall fun _ _ => Nat.le_refl _)
  · intro r hr t ht
    obtain ⟨p, -, rfl⟩ := List.mem_map.mp ht
    exact hle r (List.mem_append_left _ hr)
  · intro r hr t ht
    exact Nat.le_trans (hle t ht) (Nat.succ_le_succ (h.le new r hr))

/-- The rows after the first of the queue are not nearer than it. -/
theorem le_of_mem_walk {id : Path} {depth : Nat} (h : InBands ((id, depth) :: queue))
    (new : List Path) :
    ∀ r ∈ (walk g isOpen n (queue ++ new.map (·, depth + 1)) seen).1, depth ≤ r.2 :=
  mem_walk (P := fun _ d => depth ≤ d) (fun _ _ hle _ _ _ => Nat.le_succ_of_le hle) (h.le new)

/-- The rows are in the order of their distances. -/
theorem sorted_walk (h : InBands queue) :
    (walk g isOpen n queue seen).1.Pairwise fun r t => r.2 ≤ t.2 := by
  induction n generalizing queue seen with
  | zero => simp [walk]
  | succ n ih =>
    cases queue with
    | nil => simp [walk]
    | cons first queue =>
      obtain ⟨id, depth⟩ := first
      rw [walk_cons]
      exact List.pairwise_cons.mpr ⟨le_of_mem_walk h _, ih (h.next _)⟩

/-! ### Dependencies of rows -/

/-- A dependency of an open row had been seen, or has a row one step further at most. -/
theorem closed_walk (hg : g.Joined) (hn : queue.length + unseen g seen ≤ n) (h : InBands queue) :
    let rows := (walk g isOpen n queue seen).1
    ∀ r ∈ rows, isOpen r.1 r.2 → ∀ q ∈ g.dependencies r.1,
      q.among seen ∨ ∃ t ∈ rows, t.1.same q ∧ t.2 ≤ r.2 + 1 := by
  induction n generalizing queue seen with
  | zero => simp [walk]
  | succ n ih =>
    cases queue with
    | nil => simp [walk]
    | cons first queue =>
      obtain ⟨id, depth⟩ := first
      rw [walk_cons]
      have hn' := reaches_fresh isOpen hg hn
      have hrest := ih hn' (h.next _)
      obtain ⟨found, hfound⟩ := exists_walk_eq isOpen hg hn'
      -- what the first row puts into the queue has a row at the next distance
      have hnew : ∀ q ∈ fresh g isOpen id depth seen, (q, depth + 1) ∈
          (walk g isOpen n (queue ++ (fresh g isOpen id depth seen).map (·, depth + 1))
            (seen ++ fresh g isOpen id depth seen)).1 := by
        intro q hq
        rw [hfound]
        exact List.mem_append_left _ (List.mem_append_right _ (List.mem_map_of_mem hq))
      intro rows r hr hopen q hq
      rcases List.mem_cons.mp hr with rfl | hr
      · by_cases hseen : q.among seen
        · exact .inl hseen
        · have hmem := hnew q (mem_fresh.mpr ⟨hopen, hq, hseen⟩)
          exact .inr ⟨_, List.mem_cons_of_mem _ hmem, Path.same_refl q, Nat.le_refl _⟩
      · rcases hrest r hr hopen q hq with hseen | ⟨t, ht, hsame, hlt⟩
        · rw [Path.among_append, Bool.or_eq_true] at hseen
          rcases hseen with hseen | hseen
          · exact .inl hseen
          · -- the first row has found it, and is not further away than this one
            obtain ⟨q', hq', hsame⟩ := Path.among_iff.mp hseen
            refine .inr ⟨_, List.mem_cons_of_mem _ (hnew q' hq'), hsame, ?_⟩
            exact Nat.succ_le_succ (le_of_mem_walk h _ r hr)
        · exact .inr ⟨t, List.mem_cons_of_mem _ ht, hsame, hlt⟩

/-! ### Passes -/

/-- Rows of a pass from a start: it is the first of them, and each module has one. They are for what
can be reached and has not been listed, at the length of a shortest way, the nearest first. -/
structure Pass (g : ModuleGraph) (opened : Path → Prop) (listed : List Path) (s : Path)
    (rows : List (Path × Nat)) : Prop where
  first : ∃ p rest, rows = (p, 0) :: rest ∧ p.same s
  spread : Spread rows
  sorted : rows.Pairwise fun r t => r.2 ≤ t.2
  exists_row_iff : ∀ p n, (∃ r ∈ rows, r.1.same p ∧ r.2 = n) ↔
    ¬ p.among listed ∧ IsLeast {m | Way g opened s m p} n

/-- Passes along all edges, each from the first module in the order of the graph that has not been
listed, until all are. -/
inductive Passes (g : ModuleGraph) : (listed : List Path) → (rows : List (Path × Nat)) → Prop where
  | done {listed : List Path} (hall : ∀ p, g.contains p → p.among listed) : Passes g listed []
  | pass {listed : List Path} {s : Path} {rows rest : List (Path × Nat)} (hs : g.contains s)
    (hnew : ¬ s.among listed)
    (hleast : ∀ p, g.contains p → ¬ p.among listed → (s.order p).isLE)
    (h : Pass g (fun _ => True) listed s rows)
    (hrest : Passes g (listed ++ rows.map (·.1)) rest) : Passes g listed (rows ++ rest)

/-- A pass may be said to start from whatever is the same as its start. -/
theorem Pass.congr_start {listed : List Path} {s' : Path} (h : Pass g opened listed s rows)
    (hs : s.same s') : Pass g opened listed s' rows where
  first := by
    obtain ⟨p, rest, heq, hp⟩ := h.first
    exact ⟨p, rest, heq, Path.same_trans hp hs⟩
  spread := h.spread
  sorted := h.sorted
  exists_row_iff p n := by
    -- the ways from both starts have the same lengths
    have hways : {m | Way g opened s' m p} = {m | Way g opened s m p} := by
      ext m
      exact ⟨(·.congr_start (Path.same_symm hs)), (·.congr_start hs)⟩
    rw [h.exists_row_iff, hways]

/-- Nothing that has been listed leads out of it. -/
def Closed (g : ModuleGraph) (listed : List Path) : Prop :=
  ∀ p q, p.among listed → g.Leads p q → q.among listed

/-- A pass along all edges leaves nothing out that it leads to. -/
theorem Pass.closed {listed : List Path} (h : Pass g (fun _ => True) listed s rows)
    (hlisted : Closed g listed) : Closed g (listed ++ rows.map (·.1)) := by
  intro p q hp hpq
  rw [Path.among_append, Bool.or_eq_true] at hp ⊢
  rcases hp with hp | hp
  · exact .inl (hlisted p q hp hpq)
  · by_cases hq : q.among listed
    · exact .inl hq
    · obtain ⟨_, hmem, hsame⟩ := Path.among_iff.mp hp
      obtain ⟨r, hr, rfl⟩ := List.mem_map.mp hmem
      -- a row stands for a way, which goes on
      have hway := ((h.exists_row_iff p r.2).mp ⟨r, hr, hsame, rfl⟩).2.1
      obtain ⟨m, hm⟩ := (Way.step hway (.inr trivial) hpq).exists_isLeast
      obtain ⟨t, ht, htq, -⟩ := (h.exists_row_iff q m).mpr ⟨hq, hm⟩
      exact .inr (Path.among_iff.mpr ⟨t.1, List.mem_map_of_mem ht, htq⟩)

/-! ### A walk makes a pass -/

/-- The walk from a start. -/
def walkFrom (g : ModuleGraph) (isOpen : Path → Nat → Bool) (seen : List Path) (s : Path) :
    List (Path × Nat) × List Path :=
  walk g isOpen (bound g) [(s, 0)] (seen ++ [s])

/-- The bound of a walk from a start reaches for all of it. -/
theorem reaches_start (g : ModuleGraph) (seen : List Path) (s : Path) :
    [(s, 0)].length + unseen g (seen ++ [s]) ≤ bound g := by
  have hle := List.length_filter_le (fun e => !e.target.among (seen ++ [s])) g.edges
  rw [List.length_singleton, bound, Nat.add_comm]
  exact Nat.succ_le_succ hle

/-- A walk from a start begins there, and remembers its rows. -/
theorem exists_walkFrom_eq (hg : g.Joined) (isOpen : Path → Nat → Bool) (seen : List Path)
    (s : Path) : ∃ found, walkFrom g isOpen seen s =
      ((s, 0) :: found, seen ++ ((s, 0) :: found).map (·.1)) := by
  obtain ⟨found, hwalk⟩ := exists_walk_eq isOpen hg (reaches_start g seen s)
  exact ⟨found, by rw [walkFrom, hwalk]; simp⟩

/-- No row of a walk is for a module that had been seen before. -/
theorem spread_walkFrom (g : ModuleGraph) (isOpen : Path → Nat → Bool) (hs : ¬ s.among seen) :
    Spread (walkFrom g isOpen seen s).1 ∧
      ∀ r ∈ (walkFrom g isOpen seen s).1, ¬ r.1.among seen := by
  have hone : Spread [(s, 0)] := List.pairwise_singleton _ _
  have hqueue : ∀ q ∈ [(s, 0)], q.1.among (seen ++ [s]) := by simp
  obtain ⟨hspread, -, hrows⟩ := walk_spread g isOpen (bound g) hone hqueue
  refine ⟨hspread, fun r hr hmem => ?_⟩
  rcases (hrows r hr).2 with ⟨q, hq, hsame⟩ | hnot
  · rw [List.mem_singleton.mp hq] at hsame
    exact hs (Path.among_congr hsame seen ▸ hmem)
  · exact hnot (by rw [Path.among_append, hmem, Bool.true_or])

variable (hopen : ∀ p d, isOpen p d ↔ d = 0 ∨ opened p)
include hopen

/-- Each row is at the end of a way that is as long as its distance. -/
theorem way_of_mem_walkFrom (hg : g.Joined) :
    ∀ r ∈ (walkFrom g isOpen seen s).1, Way g opened s r.2 r.1 := by
  refine mem_walk (P := fun p d => Way g opened s d p) ?_ ?_
  · intro p d hp hpd q hq
    exact .step hp ((hopen p d).mp hpd) ((leads_iff hg).mpr (Path.among_of_mem hq))
  · intro q hq
    obtain rfl := List.mem_singleton.mp hq
    exact .here (Path.same_refl s)

/-- A way leads to what had been seen, or to a row that is not further away than the way is long. -/
theorem exists_row_of_way (hg : g.Joined) (hopened : ∀ p q, p.same q → opened p → opened q)
    (hseen : Closed g seen) (h : Way g opened s n p) :
    p.among seen ∨ ∃ r ∈ (walkFrom g isOpen seen s).1, r.1.same p ∧ r.2 ≤ n := by
  obtain ⟨found, hwalk⟩ := exists_walkFrom_eq hg isOpen seen s
  have hstart : (s, 0) ∈ (walkFrom g isOpen seen s).1 := by
    rw [hwalk]
    exact List.mem_cons_self
  induction h with
  | here h => exact .inr ⟨(s, 0), hstart, h, Nat.le_refl 0⟩
  | @step n p q _ hway hpq ih =>
    rcases ih with hp | ⟨r, hr, hrp, hle⟩
    · exact .inl (hseen p q hp hpq)
    · have hr_open : isOpen r.1 r.2 := by
        rw [hopen]
        rcases hway with rfl | hway
        · exact .inl (Nat.le_zero.mp hle)
        · exact .inr (hopened p r.1 (Path.same_symm hrp) hway)
      obtain ⟨q', hq', hsame⟩ := Path.among_iff.mp
        ((leads_iff hg).mp (hpq.congr (Path.same_symm hrp) (Path.same_refl q)))
      rcases closed_walk hg (reaches_start g seen s) (.single s 0) r hr hr_open q' hq' with
        hq | ⟨t, ht, htq, hlt⟩
      · rw [Path.among_congr hsame, Path.among_append, Bool.or_eq_true] at hq
        -- the start itself had not been seen, but is a row
        refine hq.imp id fun hq => ⟨(s, 0), hstart, ?_, Nat.zero_le _⟩
        rwa [Path.among_cons, Path.among_nil, Bool.or_false] at hq
      · exact .inr ⟨t, ht, Path.same_trans htq hsame, by omega⟩

/-- **Correctness of a walk.** A walk from a module that has not been seen makes a pass, if what has
been seen leads to nothing else. -/
theorem pass_walkFrom (hg : g.Joined) (hopened : ∀ p q, p.same q → opened p → opened q)
    (hseen : Closed g seen) (hs : ¬ s.among seen) :
    Pass g opened seen s (walkFrom g isOpen seen s).1 := by
  obtain ⟨hspread, hunseen⟩ := spread_walkFrom g isOpen hs
  have hway : ∀ r ∈ (walkFrom g isOpen seen s).1, Way g opened s r.2 r.1 :=
    way_of_mem_walkFrom hopen hg
  refine ⟨?_, hspread, sorted_walk (.single s 0), fun p n => ⟨?_, ?_⟩⟩
  · obtain ⟨found, hwalk⟩ := exists_walkFrom_eq hg isOpen seen s
    exact ⟨s, found, by rw [hwalk], Path.same_refl s⟩
  · rintro ⟨r, hr, hrp, rfl⟩
    have hp : ¬ p.among seen := Path.among_congr hrp seen ▸ hunseen r hr
    refine ⟨hp, (hway r hr).congr hrp, fun m hm => ?_⟩
    -- a shorter way would lead to another row of the module
    obtain ⟨t, ht, htp, hle⟩ := (exists_row_of_way hopen hg hopened hseen hm).resolve_left hp
    obtain rfl : r = t := hspread.eq_of_same hr ht (Path.same_trans hrp (Path.same_symm htp))
    exact hle
  · rintro ⟨hp, hleast⟩
    obtain ⟨r, hr, hrp, hle⟩ := (exists_row_of_way hopen hg hopened hseen hleast.1).resolve_left hp
    exact ⟨r, hr, hrp, Nat.le_antisymm hle (hleast.2 ((hway r hr).congr hrp))⟩

omit hopen

/-! ### The views -/

/-- A module that is listed already begins no pass. -/
theorem walkAll_cons_of_among {ps : List Path} (h : p.among seen) :
    walkAll g isOpen seen (p :: ps) = walkAll g isOpen seen ps :=
  if_pos h

/-- One that is not begins a pass, and the others begin theirs with what that has listed. -/
theorem walkAll_cons (hg : g.Joined) (isOpen : Path → Nat → Bool) {ps : List Path}
    (h : ¬ p.among seen) :
    walkAll g isOpen seen (p :: ps) = (walkFrom g isOpen seen p).1 ++
      walkAll g isOpen (seen ++ (walkFrom g isOpen seen p).1.map (·.1)) ps := by
  obtain ⟨found, hwalk⟩ := exists_walkFrom_eq hg isOpen seen p
  rw [walkAll, if_neg h]
  change (walkFrom g isOpen seen p).1 ++ walkAll g isOpen (walkFrom g isOpen seen p).2 ps = _
  rw [hwalk]

/-- In ascending order the first of what is left to list is the least of it. -/
theorem isLE_order_of_among {ids : List Path} (hids : Path.Ascending (s :: ids))
    (hp : p.among (s :: ids)) : (s.order p).isLE := by
  obtain ⟨hs, -⟩ := List.pairwise_cons.mp hids
  rw [Path.among_cons, Bool.or_eq_true] at hp
  -- the first of an ascending list is the same as `p`, or before it
  rcases hp with hsame | hp
  · rw [Path.order_eq_iff.mpr hsame]
    rfl
  · obtain ⟨q, hq, hqp⟩ := Path.among_iff.mp hp
    have hlt : s.order p = .lt :=
      Std.TransCmp.lt_of_lt_of_eq (hs q hq) (Path.order_eq_iff.mpr hqp)
    rw [hlt]
    rfl

/-- A pass lists its start, so that only the others are left. -/
theorem Pass.among_or_among (h : Pass g opened seen s rows) {ids : List Path}
    (hp : p.among seen ∨ p.among (s :: ids)) :
    p.among (seen ++ rows.map (·.1)) ∨ p.among ids := by
  rw [Path.among_append, Bool.or_eq_true]
  rcases hp with hp | hp
  · exact .inl (.inl hp)
  · rw [Path.among_cons, Bool.or_eq_true] at hp
    refine hp.imp_left fun hsp => .inr ?_
    obtain ⟨p', rest, heq, hp'⟩ := h.first
    rw [heq, List.map_cons, Path.among_cons, Path.same_trans hp' hsp, Bool.true_or]

/-- The walks from the nodes in their order are passes, until all nodes are listed. -/
theorem passes_walkAll (hg : g.Joined) (hopen : ∀ p d, isOpen p d) {ids : List Path}
    (hids : Path.Ascending ids) (hnodes : ∀ p ∈ ids, g.contains p) (hseen : Closed g seen)
    (hrest : ∀ p, g.contains p → p.among seen ∨ p.among ids) :
    Passes g seen (walkAll g isOpen seen ids) := by
  induction ids generalizing seen with
  | nil => exact .done fun p hp => (hrest p hp).resolve_right (by simp)
  | cons s ids ih =>
    have hrest_asc : Path.Ascending ids := (List.pairwise_cons.mp hids).2
    obtain ⟨hnode, hnodes⟩ := List.forall_mem_cons.mp hnodes
    by_cases hlisted : s.among seen
    · rw [walkAll_cons_of_among hlisted]
      -- the start is listed, so it is among those listed that are the same
      refine ih hrest_asc hnodes hseen fun p hp => ?_
      rcases hrest p hp with hp | hp
      · exact .inl hp
      · rw [Path.among_cons, Bool.or_eq_true] at hp
        exact hp.imp_left fun hsp => Path.among_congr hsp seen ▸ hlisted
    · rw [walkAll_cons hg isOpen hlisted]
      have hpass : Pass g (fun _ => True) seen s (walkFrom g isOpen seen s).1 :=
        pass_walkFrom (fun p d => by simp [hopen p d]) hg (fun _ _ _ h => h) hseen hlisted
      -- the modules stand in order, so the start is the least that is not listed
      have hleast : ∀ p, g.contains p → ¬ p.among seen → (s.order p).isLE := fun p hp hnot =>
        isLE_order_of_among hids ((hrest p hp).resolve_left hnot)
      have hclosed : Closed g (seen ++ (walkFrom g isOpen seen s).1.map (·.1)) :=
        hpass.closed hseen
      exact .pass hnode hlisted hleast hpass
        (ih hrest_asc hnodes hclosed fun p hp => hpass.among_or_among (hrest p hp))

/-- Passes list what had not been listed. -/
theorem Passes.among {listed : List Path} (h : Passes g listed rows) (hp : g.contains p) :
    p.among (listed ++ rows.map (·.1)) := by
  induction h with
  | done hall => rw [Path.among_append, hall p hp, Bool.true_or]
  | pass _ _ _ _ _ ih => rwa [List.map_append, ← List.append_assoc]

variable {expanded : List Path} {root : Path}

/-- In the focused view the root is open, and what has been expanded. -/
theorem isOpen_focus (expanded : List Path) (p : Path) (d : Nat) :
    Layout.isOpen .focus expanded p d ↔ d = 0 ∨ p.among expanded := by
  simp [Layout.isOpen]

/-- In the overview everything is open. -/
theorem isOpen_overview (expanded : List Path) (p : Path) (d : Nat) :
    Layout.isOpen .overview expanded p d := by
  simp [Layout.isOpen]

/-- Nothing is listed before the first pass. -/
theorem closed_nil (g : ModuleGraph) : Closed g [] :=
  fun _ _ hp => absurd hp (by simp)

/-- The layout in focus is one walk. -/
theorem visible_focus (hg : g.Joined) (expanded : List Path) {node : ModuleNode}
    (hnode : g.node? root = some node) : visible g .focus expanded root =
      (walkFrom g (Layout.isOpen .focus expanded) [] node.id).1 := by
  unfold visible
  rw [hnode]
  exact (walkAll_cons hg _ (by simp)).trans (List.append_nil _)

/-- The overview is a walk from the module in focus, and then walks from all nodes. -/
theorem visible_overview (hg : g.Joined) (expanded : List Path) {node : ModuleNode}
    (hnode : g.node? root = some node) :
    let first := (walkFrom g (Layout.isOpen .overview expanded) [] node.id).1
    visible g .overview expanded root =
      first ++ walkAll g (Layout.isOpen .overview expanded) (first.map (·.1))
        (g.nodes.map (·.1)) := by
  have hids : g.nodes.map (·.2.id) = g.nodes.map (·.1) := List.map_congr_left hg.keyed
  unfold visible
  rw [hnode]
  dsimp only
  rw [hids]
  exact walkAll_cons hg _ (by simp)

/-- The overview has a row for each node, and no others. -/
theorem among_overview_iff (hg : g.Joined) {first rest : List (Path × Nat)}
    (hrows : visible g .overview expanded root = first ++ rest)
    (hrest : Passes g (first.map (·.1)) rest) :
    p.among ((visible g .overview expanded root).map (·.1)) ↔ g.contains p := by
  constructor
  · intro hp
    obtain ⟨_, hmem, hrp⟩ := Path.among_iff.mp hp
    obtain ⟨r, hr, rfl⟩ := List.mem_map.mp hmem
    rw [← ModuleGraph.contains_congr hrp]
    exact contains_of_mem_visible hg r hr
  · intro hp
    rw [hrows, List.map_append]
    exact hrest.among hp

/-- **The rows of a view.** In focus, the layout is the pass from the module in focus along ways
whose inner modules are expanded. In the overview it has one row for each node of the graph, and no
others. It is the pass from the module in focus along all edges, and then passes from the nodes that
have not been listed, each from the first of them in their order. -/
theorem visible_passes (hg : g.Joined) (hroot : g.contains root) (expanded : List Path) :
    Pass g (fun p => p.among expanded) [] root (visible g .focus expanded root) ∧
    Spread (visible g .overview expanded root) ∧
    (∀ p : Path, p.among ((visible g .overview expanded root).map (·.1)) ↔ g.contains p) ∧
    ∃ first rest, visible g .overview expanded root = first ++ rest ∧
      Pass g (fun _ => True) [] root first ∧ Passes g (first.map (·.1)) rest := by
  rw [ModuleGraph.contains, Keyed.holds_eq] at hroot
  obtain ⟨node, hnode⟩ := Option.isSome_iff_exists.mp hroot
  have hsame : node.id.same root := (mem_of_node? hg.toIndexed hnode).2
  have hnew : ¬ node.id.among [] := by simp
  -- in the focused view one walk opens what is expanded
  have hfocus : Pass g (fun p => p.among expanded) [] node.id
      (walkFrom g (Layout.isOpen .focus expanded) [] node.id).1 :=
    pass_walkFrom (isOpen_focus expanded) hg
      (fun p q hpq hp => Path.among_congr hpq expanded ▸ hp) (closed_nil g) hnew
  -- in the overview the walk from the root opens everything, and the others go on from what it has
  -- seen
  have hfirst : Pass g (fun _ => True) [] node.id
      (walkFrom g (Layout.isOpen .overview expanded) [] node.id).1 :=
    pass_walkFrom (fun p d => by simp [isOpen_overview]) hg (fun _ _ _ h => h) (closed_nil g) hnew
  have hrest := passes_walkAll hg (isOpen_overview expanded) hg.ascending
    (fun p hp => by
      rw [ModuleGraph.contains, Keyed.holds_iff_among]
      exact Path.among_of_mem hp)
    (hfirst.closed (closed_nil g))
    (fun p hp => .inr (by rwa [← Keyed.holds_iff_among]))
  have hoverview := visible_overview hg expanded hnode
  refine ⟨?_, spread_visible g .overview expanded root, fun p => ?_, _, _, hoverview, ?_, hrest⟩
  · rw [visible_focus hg expanded hnode]
    exact hfocus.congr_start hsame
  · exact among_overview_iff hg hoverview hrest
  · exact hfirst.congr_start hsame

/-- A chain of three modules, the middle one expanded, and a fourth module that takes from the last
one and from a fifth. -/
theorem visible_passes_of_five :
    let a : Path := ⟨"/p/a"⟩
    let b : Path := ⟨"/p/b"⟩
    let c : Path := ⟨"/p/c"⟩
    let d : Path := ⟨"/p/d"⟩
    let e : Path := ⟨"/p/e"⟩
    let g := ModuleGraph.ofChanges ⟨"/p"⟩ [.addNode { id := a, language := "python" },
      .addNode { id := b, language := "python" }, .addNode { id := c, language := "python" },
      .addNode { id := d, language := "python" }, .addNode { id := e, language := "python" },
      .addEdge { source := a, target := b }, .addEdge { source := b, target := c },
      .addEdge { source := d, target := c }, .addEdge { source := d, target := e }]
    g.Joined ∧ g.contains a ∧
    visible g .focus [b] a = [(a, 0), (b, 1), (c, 2)] ∧
    Pass g (fun p => p.among [b]) [] a (visible g .focus [b] a) ∧
    visible g .overview [b] a = [(a, 0), (b, 1), (c, 2), (d, 0), (e, 1)] ∧
    ∃ first rest, visible g .overview [b] a = first ++ rest ∧
      Pass g (fun _ => True) [] a first ∧ Passes g (first.map (·.1)) rest := by
  intro a b c d e g
  have hg : g.Joined := (ModuleGraph.sound_ofChanges _ _).toJoined
  have ha : g.contains a := by decide
  obtain ⟨hfocus, -, -, hoverview⟩ := visible_passes hg ha [b]
  exact ⟨hg, ha, by decide, hfocus, by decide, hoverview⟩

end Layout

end ImportAtlas
