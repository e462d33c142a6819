import ImportAtlas.Graph.Cycles
import ImportAtlas.Proofs.Graph.Components
import ImportAtlas.Proofs.Graph.Invariant
import ImportAtlas.Proofs.Names
import Mathlib.Data.List.Forall2

/-!
# The cycles of a graph

`ModuleGraph.cycles` says of every graph that changes can build which modules are on a cycle, and
which of them are on one together (`cycles_ofChanges`).

The search runs on the places of the nodes. What it finds is carried to the modules in three steps:

* `Indexed.mem_neighbours` — the relation on the places is `Leads`, read through `ids`;
* `Joined.transGen_iff` — so are the ways along it, since edges end at nodes only;
* `Joined.exists_cycle_iff` — two modules are in one cycle exactly if each leads to the other.

A list in strict order is determined by its members. This holds of the modules in a cycle and of the
cycles among themselves (`forall₂_of_pairwise_lt`), so graphs with the same modules and the same
edges have the same cycles.
-/

namespace ImportAtlas

open Relation
open Std (TransCmp OrientedCmp)

/-! ### Lists in strict order -/

/-- Two lists in strict order with the same members have them at the same places. -/
theorem forall₂_of_pairwise_lt {α : Type} {cmp : α → α → Ordering} [TransCmp cmp] {xs ys : List α}
    (hx : xs.Pairwise fun a b => cmp a b = .lt) (hy : ys.Pairwise fun a b => cmp a b = .lt)
    (hxy : ∀ x ∈ xs, ∃ y ∈ ys, cmp x y = .eq) (hyx : ∀ y ∈ ys, ∃ x ∈ xs, cmp x y = .eq) :
    List.Forall₂ (fun a b => cmp a b = .eq) xs ys := by
  induction hx generalizing ys with
  | nil =>
    rw [List.forall₂_nil_left_iff, List.eq_nil_iff_forall_not_mem]
    intro y hmem
    obtain ⟨x, hx, -⟩ := hyx y hmem
    exact List.not_mem_nil hx
  | @cons x xs hlt _ ih =>
    match ys with
    | [] =>
      obtain ⟨y, hmem, -⟩ := hxy x List.mem_cons_self
      exact absurd hmem List.not_mem_nil
    | y :: ys =>
      obtain ⟨hlt', hys⟩ := List.pairwise_cons.mp hy
      -- the first of each list can only be the first of the other
      have heq : cmp x y = .eq := by
        obtain ⟨y₀, hy₀, hxy₀⟩ := hxy x List.mem_cons_self
        obtain ⟨x₀, hx₀, hxy₁⟩ := hyx y List.mem_cons_self
        rcases List.mem_cons.mp hy₀ with rfl | hy₀
        · exact hxy₀
        · rcases List.mem_cons.mp hx₀ with rfl | hx₀
          · exact hxy₁
          · have hyx₁ : cmp y x = .lt :=
              TransCmp.lt_of_lt_of_eq (hlt' y₀ hy₀) (OrientedCmp.eq_symm hxy₀)
            have hyx₀ := TransCmp.lt_trans hyx₁ (hlt x₀ hx₀)
            rw [OrientedCmp.eq_symm hxy₁] at hyx₀
            contradiction
      refine .cons heq (ih hys ?_ ?_)
      · -- a partner of what comes later is not the first one, being larger
        intro x' hx'
        obtain ⟨y', hy', heq'⟩ := hxy x' (List.mem_cons_of_mem _ hx')
        rcases List.mem_cons.mp hy' with rfl | hy'
        · have hxx' := TransCmp.eq_trans heq (OrientedCmp.eq_symm heq')
          rw [hlt x' hx'] at hxx'
          contradiction
        · exact ⟨y', hy', heq'⟩
      · intro y' hy'
        obtain ⟨x', hx', heq'⟩ := hyx y' (List.mem_cons_of_mem _ hy')
        rcases List.mem_cons.mp hx' with rfl | hx'
        · have hyy' := TransCmp.eq_trans (OrientedCmp.eq_symm heq) heq'
          rw [hlt' y' hy'] at hyy'
          contradiction
        · exact ⟨x', hx', heq'⟩

namespace ModuleGraph

/-- Lists of paths are ordered by their first difference. -/
theorem listOrder_eq_compareLex : listOrder = List.compareLex Path.order := by
  funext ps qs
  induction ps generalizing qs with
  | nil => cases qs <;> rfl
  | cons p ps ih =>
    cases qs with
    | nil => rfl
    | cons q qs => rw [listOrder, ih, List.compareLex_cons_cons]

instance : TransCmp listOrder := by
  rw [listOrder_eq_compareLex]
  infer_instance

/-- Lists of paths compare as equal when they have the same paths at the same places. -/
theorem listOrder_eq_iff {ps qs : List Path} :
    listOrder ps qs = .eq ↔ List.Forall₂ (fun p q => p.same q) ps qs := by
  induction ps generalizing qs with
  | nil => cases qs <;> simp [listOrder]
  | cons p ps ih => cases qs <;> simp [listOrder, ih, Path.order_eq_iff]

/-! ### Ways along edges -/

/-- An edge leads from one module to another. -/
def Leads (g : ModuleGraph) (p q : Path) : Prop :=
  ∃ e ∈ g.edges, e.source.same p ∧ e.target.same q

/-- One or more edges lead from one module to another. -/
def LeadsOn (g : ModuleGraph) : Path → Path → Prop :=
  TransGen g.Leads

variable {g : ModuleGraph} {p p' q q' : Path}

/-- An edge leads between all paths that are the same as its ends. -/
theorem Leads.congr (h : g.Leads p q) (hp : p.same p') (hq : q.same q') : g.Leads p' q' := by
  obtain ⟨e, he, hsource, htarget⟩ := h
  exact ⟨e, he, Path.same_trans hsource hp, Path.same_trans htarget hq⟩

/-- A way may begin at any path that is the same as its first one. -/
theorem LeadsOn.congr_left (h : g.LeadsOn p q) (hp : p.same p') : g.LeadsOn p' q := by
  obtain ⟨r, hpr, hrq⟩ := TransGen.head'_iff.mp h
  exact TransGen.head' (hpr.congr hp (Path.same_refl r)) hrq

/-- A way may end at any path that is the same as its last one. -/
theorem LeadsOn.congr_right (h : g.LeadsOn p q) (hq : q.same q') : g.LeadsOn p q' := by
  obtain ⟨r, hpr, hrq⟩ := TransGen.tail'_iff.mp h
  exact TransGen.tail' hpr (hrq.congr (Path.same_refl r) hq)

/-- Ways depend on nothing but the pairs of modules that edges lead between. -/
theorem LeadsOn.of_leads {h : ModuleGraph} (hleads : ∀ p q, g.Leads p q ↔ h.Leads p q)
    (hpq : g.LeadsOn p q) : h.LeadsOn p q :=
  TransGen.mono (fun p q => (hleads p q).mp) _ _ hpq

/-! ### Nodes and their places -/

variable {u v : Fin g.ids.size}

/-- The path of the node at a place. -/
abbrev pathAt (g : ModuleGraph) (u : Fin g.ids.size) : Path :=
  g.ids.toVector.get u

/-- The identifiers of the nodes are their keys. -/
theorem Indexed.ids_eq (h : Indexed g) : g.ids.toList = g.nodes.map (·.1) := by
  simp only [ids, nodeList, List.map_map]
  exact List.map_congr_left h.keyed

/-- They are sorted, each once. -/
theorem Indexed.ids_ascending (h : Indexed g) : Path.Ascending g.ids.toList := by
  rw [h.ids_eq]
  exact h.ascending

theorem ids_mem (u : Fin g.ids.size) : g.pathAt u ∈ g.ids.toList := by
  simp

/-- A node has one place. -/
theorem Indexed.eq_of_same (h : Indexed g) (huv : (g.pathAt u).same (g.pathAt v)) : u = v := by
  have heq := h.ids_ascending.eq_of_same (ids_mem u) (ids_mem v) huv
  have hnodup := h.ids_ascending.nodup
  have hplaces : g.ids.toList[(u : Nat)] = g.ids.toList[(v : Nat)] := by
    rw [Array.getElem_toList, Array.getElem_toList]
    exact heq
  exact Fin.ext ((List.getElem_inj hnodup).mp hplaces)

/-- A node has a number. -/
theorem Indexed.contains_iff (h : Indexed g) :
    g.contains p ↔ ∃ u : Fin g.ids.size, (g.pathAt u).same p := by
  rw [contains, Keyed.holds_iff_among, ← h.ids_eq, Path.among_iff]
  constructor
  · rintro ⟨q, hq, hqp⟩
    obtain ⟨i, hi, rfl⟩ := List.getElem_of_mem hq
    exact ⟨⟨i, by simpa using hi⟩, by simpa using hqp⟩
  · rintro ⟨u, hu⟩
    exact ⟨g.pathAt u, ids_mem u, hu⟩

/-- A place that is found for a path has it. -/
theorem same_of_index? (h : g.index? p = some u) : (g.pathAt u).same p :=
  List.find?_some (p := fun i : Fin g.ids.size => (g.pathAt i).same p) h

/-- The number of a module is that of the only node that is the same. -/
theorem Indexed.index?_eq_some (h : Indexed g) : g.index? p = some u ↔ (g.pathAt u).same p := by
  constructor
  · exact same_of_index?
  · intro hu
    have hsome : (g.index? p).isSome := by
      rw [index?, List.find?_isSome]
      exact ⟨u, by simp, hu⟩
    obtain ⟨w, hw⟩ := Option.isSome_iff_exists.mp hsome
    rw [hw, h.eq_of_same (Path.same_trans (same_of_index? hw) (Path.same_symm hu))]

/-- The ends of an edge by their numbers. -/
theorem Indexed.ends?_eq_some (h : Indexed g) (e : Edge) :
    g.ends? e = some (u, v) ↔ (g.pathAt u).same e.source ∧ (g.pathAt v).same e.target := by
  rw [← h.index?_eq_some, ← h.index?_eq_some, ends?]
  cases g.index? e.source <;> cases g.index? e.target <;> simp

/-- The neighbours of a place are the places that edges lead to. -/
theorem Indexed.mem_neighbours (h : Indexed g) :
    v ∈ g.neighbours.get u ↔ g.Leads (g.pathAt u) (g.pathAt v) := by
  simp only [neighbours, Vector.get_ofFn, mem_foldl_insertOnce, List.not_mem_nil, or_false,
    List.mem_map, List.mem_filter, List.mem_filterMap]
  constructor
  · -- the neighbours are the other ends of edges whose one end is the node
    rintro ⟨⟨a, b⟩, ⟨⟨e, he, hends⟩, ha⟩, rfl⟩
    obtain rfl : a = u := by simpa using ha
    obtain ⟨hsource, htarget⟩ := (h.ends?_eq_some e).mp hends
    exact ⟨e, he, Path.same_symm hsource, Path.same_symm htarget⟩
  · rintro ⟨e, he, hsource, htarget⟩
    have hends := (h.ends?_eq_some e).mpr ⟨Path.same_symm hsource, Path.same_symm htarget⟩
    exact ⟨(u, v), ⟨⟨e, he, hends⟩, by simp⟩, rfl⟩

/-- The relation of neighbours on the places. -/
abbrev Next (g : ModuleGraph) (u v : Fin g.ids.size) : Prop :=
  v ∈ g.neighbours.get u

/-- Every way from a node goes through nodes. -/
theorem Joined.transGen_iff (h : Joined g) :
    TransGen g.Next u v ↔ g.LeadsOn (g.pathAt u) (g.pathAt v) := by
  constructor
  · intro huv
    exact TransGen.lift (p := g.Leads) g.pathAt (fun a b hab => h.mem_neighbours.mp hab) _ _ huv
  · intro huv
    -- the other end is only known to be a path on the way, so the statement is about any such
    suffices hway : ∀ p, g.LeadsOn (g.pathAt u) p →
        ∃ w : Fin g.ids.size, (g.pathAt w).same p ∧ TransGen g.Next u w by
      obtain ⟨w, hw, huw⟩ := hway _ huv
      rwa [h.eq_of_same hw] at huw
    intro p hp
    have hnext : ∀ a q, g.Leads (g.pathAt a) q →
        ∃ w : Fin g.ids.size, (g.pathAt w).same q ∧ g.Next a w := by
      intro a q haq
      obtain ⟨e, he, -, htarget⟩ := id haq
      obtain ⟨w, hw⟩ := h.contains_iff.mp (h.target_mem e he)
      have hwq := Path.same_trans hw htarget
      have haw := haq.congr (Path.same_refl _) (Path.same_symm hwq)
      exact ⟨w, hwq, h.mem_neighbours.mpr haw⟩
    -- the induction is along the way; each edge ends at a node
    induction hp with
    | single hq =>
      obtain ⟨w, hwq, huw⟩ := hnext u _ hq
      exact ⟨w, hwq, .single huw⟩
    | tail _ hq ih =>
      obtain ⟨a, ha, hua⟩ := ih
      obtain ⟨w, hwq, haw⟩ := hnext a _ (hq.congr (Path.same_symm ha) (Path.same_refl _))
      exact ⟨w, hwq, hua.tail haw⟩

/-! ### Cycles -/

/-- A component is circular when one of its nodes, and so each, leads back to itself. -/
theorem isCircular_iff {n : Nat} {adj : Fin n → List (Fin n)} {c : List (Fin n)}
    (hc : c ∈ components adj) {x : Fin n} (hx : x ∈ c) :
    isCircular adj c ↔ TransGen (fun a b => b ∈ adj a) x x := by
  obtain ⟨-, hnodup, -, hiff⟩ := components_spec adj
  match c with
  | [] => simp at hx
  | [y] =>
    obtain rfl := List.mem_singleton.mp hx
    simp only [isCircular, List.contains_iff_mem]
    constructor
    · exact fun hself => .single hself
    · -- a way back to the only node of a component does not leave the node
      intro hloop
      obtain ⟨z, hxz, hzx⟩ := TransGen.head'_iff.mp hloop
      have hz := (hiff [x] hc x hx z).mpr ⟨.single hxz, hzx⟩
      rwa [List.mem_singleton.mp hz] at hxz
  | y :: z :: rest =>
    refine ⟨fun _ => ?_, fun _ => rfl⟩
    have hyz : y ≠ z := by
      have hnodup' := (List.nodup_flatten.mp hnodup).1 _ hc
      exact fun heq => (List.nodup_cons.mp hnodup').1 (heq ▸ List.mem_cons_self)
    -- some other node is in the component, and the way there and back is not empty
    obtain ⟨w, hw, hwx⟩ : ∃ w ∈ y :: z :: rest, w ≠ x := by
      by_cases hyx : y = x
      · exact ⟨z, by simp, fun heq => hyz (hyx.trans heq.symm)⟩
      · exact ⟨y, by simp, hyx⟩
    obtain ⟨hxw, hback⟩ := (hiff _ hc x hx w).mp hw
    exact ((reflTransGen_iff_eq_or_transGen.mp hxw).resolve_left hwx).trans_left hback

/-- The modules of a component, in order. -/
def modules (g : ModuleGraph) (c : List (Fin g.ids.size)) : List Path :=
  (c.mergeSort fun u v => u ≤ v).map g.pathAt

/-- The cycles are the components that are circular, each with its modules in order. -/
theorem mem_cycles {c : List Path} :
    c ∈ g.cycles ↔ ∃ d ∈ components g.neighbours.get,
      isCircular g.neighbours.get d ∧ g.modules d = c := by
  simp only [cycles, modules, List.mem_mergeSort, List.mem_map, List.mem_filter, and_assoc]
  rfl

/-- The modules of a list of numbers. -/
theorem among_modules {c : List (Fin g.ids.size)} :
    p.among (g.modules c) ↔ ∃ u ∈ c, (g.pathAt u).same p := by
  simp [modules, Path.among_iff]

/-- The places of the nodes are in the order of their paths. -/
theorem Indexed.order_of_lt (h : Indexed g) (huv : u < v) :
    (g.pathAt u).order (g.pathAt v) = .lt := by
  have hlt := List.pairwise_iff_getElem.mp h.ids_ascending u v (by simp) (by simp) huv
  rwa [Array.getElem_toList, Array.getElem_toList] at hlt

/-- A cycle is sorted, each module once: the numbers are in the order of the paths. -/
theorem Indexed.ascending_cycle (h : Indexed g) {c : List Path} (hc : c ∈ g.cycles) :
    Path.Ascending c := by
  obtain ⟨d, hd, -, rfl⟩ := mem_cycles.mp hc
  obtain ⟨-, hnodup, -⟩ := components_spec g.neighbours.get
  have hd' : (d.mergeSort fun u v => u ≤ v).Nodup :=
    (List.mergeSort_perm d _).nodup_iff.mpr ((List.nodup_flatten.mp hnodup).1 d hd)
  -- a cycle is sorted by the numbers of its modules, and these follow the order of their paths
  have hsorted : (d.mergeSort fun u v => u ≤ v).Pairwise fun u v => decide (u ≤ v) = true :=
    List.pairwise_mergeSort (fun a b c => by simpa using Fin.le_trans)
      (fun a b => by simpa using Fin.le_total a b) d
  refine List.pairwise_map.mpr ((hsorted.and hd').imp ?_)
  rintro a b ⟨hle, hne⟩
  exact h.order_of_lt (Fin.lt_iff_le_and_ne.mpr ⟨of_decide_eq_true hle, hne⟩)

/-- No cycle is empty. -/
theorem cycle_ne_nil {c : List Path} (hc : c ∈ g.cycles) : c ≠ [] := by
  obtain ⟨d, hd, -, rfl⟩ := mem_cycles.mp hc
  obtain ⟨-, -, hne, -⟩ := components_spec g.neighbours.get
  intro hnil
  have hd' : (d.mergeSort fun u v => u ≤ v) = [] := List.map_eq_nil_iff.mp hnil
  exact hne d hd (List.perm_nil.mp (hd' ▸ (List.mergeSort_perm d _).symm))

/-- A way begins at a node. -/
theorem Joined.contains_of_leadsOn (h : Joined g) (hpq : g.LeadsOn p q) : g.contains p := by
  obtain ⟨_, ⟨e, he, hsource, -⟩, -⟩ := TransGen.head'_iff.mp hpq
  exact contains_congr hsource ▸ h.source_mem e he

/-- A cycle is made of the modules that lead to one of its members and are led to from it. -/
theorem Joined.among_cycle_iff (h : Joined g) {c : List Path} (hc : c ∈ g.cycles)
    (hp : p.among c) : q.among c ↔ g.LeadsOn p q ∧ g.LeadsOn q p := by
  obtain ⟨d, hd, hcirc, rfl⟩ := mem_cycles.mp hc
  obtain ⟨-, -, -, hiff⟩ := components_spec g.neighbours.get
  obtain ⟨u, hu, hup⟩ := among_modules.mp hp
  have hloop : TransGen g.Next u u := (isCircular_iff hd hu).mp hcirc
  rw [among_modules]
  constructor
  · -- the loop at `u` makes the ways of the component non-empty
    rintro ⟨v, hv, hvq⟩
    obtain ⟨huv, hvu⟩ := (hiff d hd u hu v).mp hv
    exact ⟨((h.transGen_iff.mp (hloop.trans_left huv)).congr_left hup).congr_right hvq,
      ((h.transGen_iff.mp (TransGen.trans_right hvu hloop)).congr_left hvq).congr_right hup⟩
  · rintro ⟨hpq, hqp⟩
    obtain ⟨v, hv⟩ := h.contains_iff.mp (h.contains_of_leadsOn hqp)
    have huv := h.transGen_iff.mpr
      ((hpq.congr_left (Path.same_symm hup)).congr_right (Path.same_symm hv))
    have hvu := h.transGen_iff.mpr
      ((hqp.congr_left (Path.same_symm hv)).congr_right (Path.same_symm hup))
    exact ⟨v, (hiff d hd u hu v).mpr ⟨huv.to_reflTransGen, hvu.to_reflTransGen⟩, hv⟩

/-- The modules on a cycle are those that lead back to themselves. -/
theorem Joined.exists_cycle (h : Joined g) : (∃ c ∈ g.cycles, p.among c) ↔ g.LeadsOn p p := by
  constructor
  · rintro ⟨c, hc, hp⟩
    exact ((h.among_cycle_iff hc hp).mp hp).1
  · intro hp
    obtain ⟨u, hu⟩ := h.contains_iff.mp (h.contains_of_leadsOn hp)
    obtain ⟨hall, -⟩ := components_spec g.neighbours.get
    obtain ⟨d, hd, hud⟩ := List.mem_flatten.mp (hall u)
    -- the number of the module lies on a way back to itself, so its component is circular
    have hloop := h.transGen_iff.mpr
      ((hp.congr_left (Path.same_symm hu)).congr_right (Path.same_symm hu))
    exact ⟨g.modules d, mem_cycles.mpr ⟨d, hd, (isCircular_iff hd hud).mpr hloop, rfl⟩,
      among_modules.mpr ⟨u, hud, hu⟩⟩

/-- Two modules are in one cycle exactly if each leads to the other. -/
theorem Joined.exists_cycle_iff (h : Joined g) :
    (∃ c ∈ g.cycles, p.among c ∧ q.among c) ↔ g.LeadsOn p q ∧ g.LeadsOn q p := by
  constructor
  · rintro ⟨c, hc, hp, hq⟩
    exact (h.among_cycle_iff hc hp).mp hq
  · rintro ⟨hpq, hqp⟩
    obtain ⟨c, hc, hp⟩ := h.exists_cycle.mpr (hpq.trans hqp)
    exact ⟨c, hc, hp, (h.among_cycle_iff hc hp).mpr ⟨hpq, hqp⟩⟩

/-- A module is a cycle by itself when it has an edge to itself and is on no longer cycle. -/
theorem Joined.exists_singleton_iff (h : Joined g) :
    (∃ c ∈ g.cycles, p.among c ∧ c.length = 1) ↔
      g.Leads p p ∧ ∀ q, g.LeadsOn p q → g.LeadsOn q p → p.same q := by
  constructor
  · rintro ⟨c, hc, hp, hlen⟩
    have hsame : ∀ q, g.LeadsOn p q → g.LeadsOn q p → p.same q := by
      intro q hpq hqp
      have hq := (h.among_cycle_iff hc hp).mpr ⟨hpq, hqp⟩
      obtain ⟨a, rfl⟩ := List.length_eq_one_iff.mp hlen
      simp only [Path.among_cons, Path.among_nil, Bool.or_false] at hp hq
      exact Path.same_trans (Path.same_symm hp) hq
    refine ⟨?_, hsame⟩
    -- the first edge of a way back to `p` leads to `p` already
    have hloop := ((h.among_cycle_iff hc hp).mp hp).1
    obtain ⟨q, hpq, hqp⟩ := TransGen.head'_iff.mp hloop
    rcases reflTransGen_iff_eq_or_transGen.mp hqp with rfl | hqp
    · exact hpq
    · exact hpq.congr (Path.same_refl p) (Path.same_symm (hsame q (.single hpq) hqp))
  · rintro ⟨hloop, hsame⟩
    obtain ⟨c, hc, hp⟩ := h.exists_cycle.mpr (.single hloop)
    -- all members of its cycle are the same as `p`, and an ascending list has no two of these
    refine ⟨c, hc, hp, ?_⟩
    have hall : ∀ a ∈ c, p.same a := by
      intro a ha
      obtain ⟨hpa, hap⟩ := (h.among_cycle_iff hc hp).mp (Path.among_of_mem ha)
      exact hsame a hpa hap
    have hasc := h.ascending_cycle hc
    match c with
    | [] => simp at hp
    | [a] => rfl
    | a :: b :: rest =>
      have hab : a.order b = .lt := (List.pairwise_cons.mp hasc).1 b List.mem_cons_self
      have hsame' := Path.same_trans (Path.same_symm (hall a (by simp))) (hall b (by simp))
      exact absurd hsame' (Path.not_same_of_lt hab)

/-- No module is in two cycles. -/
theorem Indexed.disjoint_cycles (h : Indexed g) :
    g.cycles.Pairwise fun c d => ∀ p : Path, ¬ (p.among c ∧ p.among d) := by
  obtain ⟨-, hnodup, -⟩ := components_spec g.neighbours.get
  have hsymm : ∀ {c d : List Path}, (∀ p : Path, ¬ (p.among c ∧ p.among d)) →
      ∀ p : Path, ¬ (p.among d ∧ p.among c) := fun hcd p hp => hcd p hp.symm
  -- sorting the cycles does not matter, and they are some of the components
  refine ((List.mergeSort_perm _ _).pairwise_iff hsymm).mpr (List.pairwise_map.mpr ?_)
  refine ((List.nodup_flatten.mp hnodup).2.sublist List.filter_sublist).imp ?_
  rintro c d hdisj p ⟨hc, hd⟩
  obtain ⟨u, hu, hup⟩ := among_modules.mp hc
  obtain ⟨v, hv, hvp⟩ := among_modules.mp hd
  have huv := h.eq_of_same (Path.same_trans hup (Path.same_symm hvp))
  exact hdisj hu (huv ▸ hv)

/-- The cycles stand in strict order. -/
theorem Indexed.cycles_lt (h : Indexed g) :
    g.cycles.Pairwise fun c d => listOrder c d = .lt := by
  have hsorted : g.cycles.Pairwise fun c d => (listOrder c d).isLE :=
    pairwise_mergeSort_isLE listOrder _
  refine (hsorted.and h.disjoint_cycles).imp_of_mem ?_
  rintro c d hc - ⟨hle, hdisj⟩
  refine (Ordering.isLE_iff_eq_lt_or_eq_eq.mp hle).resolve_right fun heq => ?_
  -- lists that compare as equal share a module
  match c, d, listOrder_eq_iff.mp heq with
  | [], _, _ => exact cycle_ne_nil hc rfl
  | p :: _, _ :: _, .cons hpq _ =>
    exact hdisj p ⟨Path.among_of_mem List.mem_cons_self, by simp [Path.same_symm hpq]⟩

/-- The cycles are sorted by their smallest members. -/
theorem Indexed.cycles_ascending (h : Indexed g) :
    g.cycles.Pairwise fun c d => ∀ p ∈ c.head?, ∀ q ∈ d.head?, p.order q = .lt := by
  refine (h.cycles_lt.and h.disjoint_cycles).imp ?_
  rintro c d ⟨hlt, hdisj⟩ p hp q hq
  obtain ⟨ps, rfl⟩ := List.head?_eq_some_iff.mp hp
  obtain ⟨qs, rfl⟩ := List.head?_eq_some_iff.mp hq
  rw [listOrder, Ordering.then_eq_lt] at hlt
  -- were the first modules the same, the cycles would share one
  refine hlt.resolve_right fun ⟨heq, _⟩ => ?_
  have hsame := Path.order_eq_iff.mp heq
  exact hdisj p ⟨by simp, by simp [Path.same_symm hsame]⟩

/-- Cycles of graphs with the same edges are the same when they share a module. -/
theorem Joined.listOrder_eq {h : ModuleGraph} (hg : Joined g) (hh : Joined h)
    (hleads : ∀ p q, g.Leads p q ↔ h.Leads p q) {c d : List Path} (hc : c ∈ g.cycles)
    (hd : d ∈ h.cycles) (hpc : p.among c) (hpd : p.among d) : listOrder c d = .eq := by
  have hon : ∀ p q, g.LeadsOn p q ↔ h.LeadsOn p q := fun p q =>
    ⟨.of_leads hleads, .of_leads fun p q => (hleads p q).symm⟩
  -- two cycles with a module in common have the same modules
  have hmem : ∀ q : Path, q.among c ↔ q.among d := fun q => by
    rw [hg.among_cycle_iff hc hpc, hh.among_cycle_iff hd hpd, hon, hon]
  rw [listOrder_eq_iff]
  suffices hsame : List.Forall₂ (fun p q => p.order q = .eq) c d from
    hsame.imp fun _ _ => Path.order_eq_iff.mp
  -- sorted lists with the same members are the same place by place
  refine forall₂_of_pairwise_lt (hg.ascending_cycle hc) (hh.ascending_cycle hd) ?_ ?_
  · intro x hx
    obtain ⟨y, hy, hyx⟩ := Path.among_iff.mp ((hmem x).mp (Path.among_of_mem hx))
    exact ⟨y, hy, Path.order_eq_iff.mpr (Path.same_symm hyx)⟩
  · intro y hy
    obtain ⟨x, hx, hxy⟩ := Path.among_iff.mp ((hmem y).mpr (Path.among_of_mem hy))
    exact ⟨x, hx, Path.order_eq_iff.mpr hxy⟩

/-- **The cycles of every graph.** Two modules are in one cycle exactly if each leads to the other
along edges, and a module that leads to itself is in one. A cycle of one module is an edge to itself
of a module that is on no longer cycle. No module is in two cycles; the modules of each stand in
order, and so do the cycles by their smallest modules. There is none exactly when no module leads
back to itself. Other changes that leave the same edges, whatever these take and however they came
to be, give the same cycles. -/
theorem cycles_ofChanges (root : Path) (changes : List Change) :
    let g := ofChanges root changes
    (∀ p q : Path, (∃ c ∈ g.cycles, p.among c ∧ q.among c) ↔ g.LeadsOn p q ∧ g.LeadsOn q p) ∧
    (∀ p : Path, (∃ c ∈ g.cycles, p.among c ∧ c.length = 1) ↔
      g.Leads p p ∧ ∀ q, g.LeadsOn p q → g.LeadsOn q p → p.same q) ∧
    (g.cycles.Pairwise fun c d => ∀ p : Path, ¬ (p.among c ∧ p.among d)) ∧
    (∀ c ∈ g.cycles, c ≠ [] ∧ Path.Ascending c ∧ ∀ p ∈ c, g.contains p) ∧
    (g.cycles.Pairwise fun c d => ∀ p ∈ c.head?, ∀ q ∈ d.head?, p.order q = .lt) ∧
    (g.cycles = [] ↔ ∀ p, ¬ g.LeadsOn p p) ∧
    ∀ (root' : Path) (changes' : List Change),
      let h := ofChanges root' changes'
      (∀ p q, g.Leads p q ↔ h.Leads p q) →
        List.Forall₂ (List.Forall₂ fun p q => p.same q) g.cycles h.cycles := by
  intro g
  have hg : Joined g := (sound_ofChanges root changes).toJoined
  refine ⟨fun p q => hg.exists_cycle_iff, fun p => hg.exists_singleton_iff, hg.disjoint_cycles,
    fun c hc => ⟨cycle_ne_nil hc, hg.ascending_cycle hc, fun p hp => ?_⟩, hg.cycles_ascending,
    ?_, ?_⟩
  · exact hg.contains_of_leadsOn (hg.exists_cycle.mp ⟨c, hc, Path.among_of_mem hp⟩)
  · rw [List.eq_nil_iff_forall_not_mem]
    constructor
    · intro hnone p hp
      obtain ⟨c, hc, -⟩ := hg.exists_cycle.mpr hp
      exact hnone c hc
    · intro hnone c hc
      obtain ⟨p, hp⟩ := List.exists_mem_of_ne_nil c (cycle_ne_nil hc)
      exact hnone p (hg.exists_cycle.mp ⟨c, hc, Path.among_of_mem hp⟩)
  · intro root' changes' h hleads
    have hh : Joined h := (sound_ofChanges root' changes').toJoined
    -- both lists are in strict order, so it is enough to find each cycle in the other
    refine (forall₂_of_pairwise_lt hg.cycles_lt hh.cycles_lt ?_ ?_).imp fun _ _ =>
      listOrder_eq_iff.mp
    · intro c hc
      obtain ⟨p, hp⟩ := List.exists_mem_of_ne_nil c (cycle_ne_nil hc)
      have hloop := hg.exists_cycle.mp ⟨c, hc, Path.among_of_mem hp⟩
      obtain ⟨d, hd, hpd⟩ := hh.exists_cycle.mpr (LeadsOn.of_leads hleads hloop)
      exact ⟨d, hd, hg.listOrder_eq hh hleads hc hd (Path.among_of_mem hp) hpd⟩
    · intro d hd
      obtain ⟨p, hp⟩ := List.exists_mem_of_ne_nil d (cycle_ne_nil hd)
      have hloop := hh.exists_cycle.mp ⟨d, hd, Path.among_of_mem hp⟩
      obtain ⟨c, hc, hpc⟩ :=
        hg.exists_cycle.mpr (LeadsOn.of_leads (fun p q => (hleads p q).symm) hloop)
      exact ⟨c, hc, hg.listOrder_eq hh hleads hc hd hpc (Path.among_of_mem hp)⟩

end ModuleGraph

end ImportAtlas
