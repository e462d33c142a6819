import ImportAtlas.Proofs.Drawing.Modules

/-!
# The boxes of a drawing

The statements of a drawing name boxes, and what is said of one name is said of one box, however
often. The name of a module's box keeps the letters and digits of the name that is shown, at their
places, and nothing else of it.

* `Drawing.Alike` — two names with the same letters and digits at the same places, and
  `Drawing.identifier_eq_iff` — these are the names that get one box;
* `ModuleGraph.boxes_draw` — which boxes a drawing has, which of them its edges join, and when each
  module has a box of its own;
* `ModuleGraph.boxes_draw_alike` — two modules that are drawn as one.
-/

namespace ImportAtlas

/-! ### Boxes -/

namespace Dot

/-- The identifier of a box, which is that of a statement for a node. -/
def Statement.box? : Statement → Option String
  | .node id _ => some id
  | _ => none

/-- The identifiers at both ends of an edge. -/
def Statement.ends? : Statement → Option (String × String)
  | .edge source target _ => some (source, target)
  | _ => none

/-- The boxes that the statements of nodes name, one for each statement. -/
def boxesOf (ss : List Statement) : List String :=
  (nodesOf ss).filterMap Statement.box?

/-- The boxes that the statements of edges join. -/
def endsOf (ss : List Statement) : List (String × String) :=
  (edgesOf ss).filterMap Statement.ends?

end Dot

namespace Drawing

open Dot

/-! ### Names with one box -/

/-- Two characters that are the same, or of which neither is a letter or a digit. -/
def AlikeChars (c d : Char) : Prop :=
  c = d ∨ ¬ c.isAlphanum ∧ ¬ d.isAlphanum

/-- Names of the same length with the same letters and digits at the same places. -/
def Alike (a b : String) : Prop :=
  List.Forall₂ AlikeChars a.toList b.toList

/-- What an identifier has in the place of a character. -/
def identifierChar (c : Char) : Char :=
  if c.isAlphanum || c == '_' then c else '_'

/-- A `_` is kept, and is what stands for all that is not. -/
theorem identifierChar_eq (c : Char) : identifierChar c = if c.isAlphanum then c else '_' := by
  rw [identifierChar]
  by_cases hc : c.isAlphanum
  · rw [hc]
    rfl
  · by_cases hunderscore : c = '_'
    · rw [hunderscore]
      rfl
    · rw [if_neg hc, if_neg]
      simp [hc, hunderscore]

/-- No letter or digit is mistaken for another character. -/
theorem ne_underscore {c : Char} (h : c.isAlphanum) : c ≠ '_' := by
  rintro rfl
  exact absurd h (by decide)

/-- Two characters fall together when they are equal, or when neither may stand in an identifier. -/
theorem identifierChar_eq_iff {c d : Char} :
    identifierChar c = identifierChar d ↔ AlikeChars c d := by
  rw [identifierChar_eq, identifierChar_eq, AlikeChars]
  -- an alphanumeric character stays, any other becomes an underscore, which is none
  by_cases hc : c.isAlphanum
  · by_cases hd : d.isAlphanum
    · simp [hc, hd]
    · have hne : c ≠ d := fun heq => hd (heq ▸ hc)
      simp [hc, hd, hne, ne_underscore hc]
  · by_cases hd : d.isAlphanum
    · have hne : c ≠ d := fun heq => hc (heq ▸ hd)
      simp [hc, hd, hne, (ne_underscore hd).symm]
    · simp [hc, hd]

/-- An identifier is made character by character, so that it has the length of its name. -/
theorem toList_identifier (name : String) :
    (identifier name).toList = name.toList.map identifierChar :=
  String.toList_map

/-- Names get one identifier exactly if they are alike. -/
theorem identifier_eq_iff {a b : String} : identifier a = identifier b ↔ Alike a b := by
  rw [← String.toList_inj, toList_identifier, toList_identifier, ← List.forall₂_eq_eq_eq,
    List.forall₂_map_left_iff, List.forall₂_map_right_iff, Alike]
  simp only [identifierChar_eq_iff]

/-- The boxes of the legend. -/
def legendBoxes : List String :=
  ["legend_low", "legend_high", "legend_cycle"]

/-- Whoever is alike to an entry of the legend has its box. -/
theorem identifier_eq_of_mem_legendBoxes {name box : String} (h : box ∈ legendBoxes) :
    identifier name = box ↔ Alike name box := by
  have hself : ∀ b ∈ legendBoxes, b.toList.map identifierChar = b.toList := by decide
  have hbox : identifier box = box := by
    rw [← String.toList_inj, toList_identifier, hself box h]
  rw [← identifier_eq_iff, hbox]

/-- Each module and each entry of the legend has a box of its own exactly if no two names of modules
are alike and none is alike to an entry of the legend. -/
theorem nodup_boxes_iff {names legend : List String} (hlegend : legend ⊆ legendBoxes)
    (hnodup : legend.Nodup) :
    (names.map identifier ++ legend).Nodup ↔
      names.Pairwise (fun a b => ¬ Alike a b) ∧ ∀ a ∈ names, ∀ box ∈ legend, ¬ Alike a box := by
  rw [List.nodup_append]
  -- identifiers of modules fall together exactly when the names are alike
  have hpairs : (names.map identifier).Nodup ↔ names.Pairwise fun a b => ¬ Alike a b := by
    rw [List.Nodup, List.pairwise_map]
    simp only [ne_eq, identifier_eq_iff]
  -- the entries of the legend are identifiers themselves
  have hothers : (∀ a ∈ names.map identifier, ∀ box ∈ legend, a ≠ box) ↔
      ∀ a ∈ names, ∀ box ∈ legend, ¬ Alike a box := by
    rw [List.forall_mem_map]
    refine forall₂_congr fun a _ => forall₂_congr fun box hbox => not_congr ?_
    exact identifier_eq_of_mem_legendBoxes (hlegend hbox)
  rw [hpairs, hothers]
  exact and_congr_right fun _ => and_iff_right hnodup

/-! ### The boxes of a sheet -/

/-- The boxes of some statements come one list after the other. -/
theorem boxesOf_append (ss ss' : List Statement) :
    boxesOf (ss ++ ss') = boxesOf ss ++ boxesOf ss' := by
  rw [boxesOf, nodesOf_append, List.filterMap_append, ← boxesOf, ← boxesOf]

/-- The ends of the edges of some statements come one list after the other. -/
theorem endsOf_append (ss ss' : List Statement) :
    endsOf (ss ++ ss') = endsOf ss ++ endsOf ss' := by
  rw [endsOf, edgesOf_append, List.filterMap_append, ← endsOf, ← endsOf]

namespace Sheet

/-- The names that the modules of a sheet have in the drawing. -/
def names (s : Sheet) : List String :=
  s.graph.nodes.map fun node => s.graph.displayName node.2.id

/-- The boxes of the legend, if there is to be one. -/
def legend (s : Sheet) : List String :=
  if s.options.legend then legendBoxes else []

/-- All statements of a drawing, in their order. -/
def statements (s : Sheet) : List Statement :=
  s.headStatements ++ s.nodeStatements ++ s.graph.edges.map s.edgeStatement ++
    if s.options.legend then [s.legendStatement] else []

/-- There is a box for each name that is shown. With clusters they come in another order. -/
theorem boxesOf_nodeStatements (s : Sheet) :
    (boxesOf s.nodeStatements).Perm (s.names.map identifier) := by
  have hboxes := s.nodesOf_nodeStatements.1.filterMap Statement.box?
  have hbox : Statement.box? ∘ s.nodeStatement =
      some ∘ fun id => identifier (s.graph.displayName id) := rfl
  rw [List.filterMap_map, hbox, List.filterMap_eq_map, List.map_map] at hboxes
  rw [names, List.map_map]
  exact hboxes

/-- An edge is drawn between the boxes of its two modules. -/
theorem endsOf_edgeStatements (s : Sheet) :
    endsOf (s.graph.edges.map s.edgeStatement) = s.graph.edges.map fun e =>
      (identifier (s.graph.displayName e.source), identifier (s.graph.displayName e.target)) := by
  have hends : Statement.ends? ∘ s.edgeStatement = some ∘ fun e =>
      (identifier (s.graph.displayName e.source), identifier (s.graph.displayName e.target)) := rfl
  rw [endsOf, (s.edgesOf_map s.graph.edges).1, List.filterMap_map, hends, List.filterMap_eq_map]

/-- All boxes of a drawing: those of the modules and those of the legend. -/
theorem boxesOf_statements (s : Sheet) :
    (boxesOf s.statements).Perm (s.names.map identifier ++ s.legend) := by
  -- only the statements of modules and of the legend draw boxes
  have hhead : boxesOf s.headStatements = [] := rfl
  have hedges : boxesOf (s.graph.edges.map s.edgeStatement) = [] := by
    rw [boxesOf, (s.edgesOf_map s.graph.edges).2]
    rfl
  have hlegend : boxesOf (if s.options.legend then [s.legendStatement] else []) = s.legend := by
    rw [legend]
    split <;> rfl
  rw [statements, boxesOf_append, boxesOf_append, boxesOf_append, hhead, hedges, hlegend,
    List.nil_append, List.append_nil]
  exact s.boxesOf_nodeStatements.append_right s.legend

/-- All arrows of a drawing: those of the edges. The legend has none. -/
theorem endsOf_statements (s : Sheet) :
    endsOf s.statements = s.graph.edges.map fun e =>
      (identifier (s.graph.displayName e.source), identifier (s.graph.displayName e.target)) := by
  have hhead : endsOf s.headStatements = [] := rfl
  have hnodes : endsOf s.nodeStatements = [] := by
    rw [endsOf, s.nodesOf_nodeStatements.2]
    rfl
  have hlegend : endsOf (if s.options.legend then [s.legendStatement] else []) = [] := by
    split <;> rfl
  rw [statements, endsOf_append, endsOf_append, endsOf_append, hhead, hnodes, hlegend,
    List.nil_append, List.nil_append, List.append_nil, endsOf_edgeStatements]

/-- No box is drawn twice exactly if no two names fall together and none falls together with the
legend. -/
theorem nodup_boxesOf_iff (s : Sheet) :
    (boxesOf s.statements).Nodup ↔
      s.names.Pairwise (fun a b => ¬ Alike a b) ∧
        ∀ a ∈ s.names, ∀ box ∈ s.legend, ¬ Alike a box := by
  have hlegend : s.legend ⊆ legendBoxes ∧ s.legend.Nodup := by
    rw [legend]
    split
    · exact ⟨List.Subset.refl _, by decide⟩
    · exact ⟨List.nil_subset _, .nil⟩
  rw [s.boxesOf_statements.nodup_iff, nodup_boxes_iff hlegend.1 hlegend.2]

end Sheet

end Drawing

namespace ModuleGraph

open Drawing Dot

/-- **Boxes.** A drawing has one statement for each module and each entry of the legend, which names
its box, and the statement of an edge joins the boxes of its ends. Two modules have one box exactly
if their names are alike. So every statement of a node has a box of its own exactly if no two
modules have names that are alike, and no module has a name that is alike to an entry of the
legend. -/
theorem boxes_draw (g : ModuleGraph) (options : Options) :
    let s := Sheet.of g options
    ∃ ss, Dot.read (g.draw options) = some ("DepTree", ss) ∧
      (boxesOf ss).Perm (s.names.map identifier ++ s.legend) ∧
      endsOf ss = (g.edges.map fun e =>
        (identifier (g.displayName e.source), identifier (g.displayName e.target))) ∧
      (∀ p q, identifier (g.displayName p) = identifier (g.displayName q) ↔
        Alike (g.displayName p) (g.displayName q)) ∧
      ((boxesOf ss).Nodup ↔
        s.names.Pairwise (fun a b => ¬ Alike a b) ∧
          ∀ a ∈ s.names, ∀ box ∈ s.legend, ¬ Alike a box) := by
  intro s
  exact ⟨s.statements, s.read_lines, s.boxesOf_statements, s.endsOf_statements,
    fun p q => identifier_eq_iff, s.nodup_boxesOf_iff⟩

/-- Two modules whose names differ in one mark are drawn as one box, and what the first takes from
the second as a loop. -/
theorem boxes_draw_alike :
    let a : Path := ⟨"/p/a-b.js"⟩
    let b : Path := ⟨"/p/a_b.js"⟩
    let g := ofChanges ⟨"/p"⟩ [.addNode { id := a, language := "js" },
      .addNode { id := b, language := "js" }, .addEdge { source := a, target := b }]
    ¬ a.same b ∧ g.contains a ∧ g.contains b ∧
    ∃ ss, Dot.read (g.draw { clusters := false, legend := false }) = some ("DepTree", ss) ∧
      boxesOf ss = ["a_b_js", "a_b_js"] ∧ endsOf ss = [("a_b_js", "a_b_js")] := by
  intro a b g
  let s := Sheet.of g { clusters := false, legend := false }
  have hbox : ∀ name ∈ ["a-b.js", "a_b.js"], identifier name = "a_b_js" := by
    -- a dash and an underscore are written alike
    have htext : ∀ name ∈ ["a-b.js", "a_b.js"],
        name.toList.map identifierChar = "a_b_js".toList := by decide
    intro name hname
    rw [← String.toList_inj, toList_identifier, htext name hname]
  have ha : identifier "a-b.js" = "a_b_js" := hbox _ (by decide)
  have hb : identifier "a_b.js" = "a_b_js" := hbox _ (by decide)
  have hnames : s.names = ["a-b.js", "a_b.js"] := by
    change g.nodes.map (fun node => g.displayName node.2.id) = _
    decide
  have hends : g.edges.map (fun e => (g.displayName e.source, g.displayName e.target)) =
      [("a-b.js", "a_b.js")] := by decide
  refine ⟨by decide, by decide, by decide, s.statements, s.read_lines, ?_, ?_⟩
  · -- both boxes have the one identifier, in whatever order they are drawn
    have hboxes : s.names.map identifier ++ s.legend = List.replicate 2 "a_b_js" := by
      have hlegend : s.legend = [] := rfl
      rw [hnames, hlegend, List.append_nil, List.map_cons, List.map_singleton, ha, hb]
      rfl
    have hperm := s.boxesOf_statements
    rw [hboxes] at hperm
    exact List.perm_replicate.mp hperm
  · have hjoined : endsOf s.statements =
        (g.edges.map fun e => (g.displayName e.source, g.displayName e.target)).map
          (Prod.map identifier identifier) := by
      rw [List.map_map]
      exact s.endsOf_statements
    rw [hjoined, hends, List.map_singleton, Prod.map_apply, ha, hb]

end ModuleGraph

end ImportAtlas
