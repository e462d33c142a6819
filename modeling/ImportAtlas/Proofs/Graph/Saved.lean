import ImportAtlas.Graph.Cycles
import ImportAtlas.Graph.Entropy
import ImportAtlas.Graph.Saved
import ImportAtlas.Proofs.Graph.Invariant
import ImportAtlas.Proofs.Json.Printed
import ImportAtlas.Proofs.Names
import Mathlib

/-!
# Loading a saved graph

A graph that has grown by changes is read back from its text, with all it says and with the same
answers (`ModuleGraph.Grown.load_save`).

The indexes are not in the text. They are made anew when it is read, and since those of the graph
were exact, both tell the same of every module, though the entries of the two may differ: what an
index answers is decided by the nodes and the edges alone.

* `ImportRecord.WellFormed` and its like — the numbers of a record fit into 64 bits, and its names
  are a set;
* `ImportRecord.ofJson?_toJson` and its like — what is written for a part is read as that part;
* `ModuleGraph.Grown` — the graphs that grow from an empty one;
* `ModuleGraph.ofJson?_toJson` — what is written for a graph is read as the graph with its indexes
  made anew.
-/

namespace ImportAtlas

/-! ### Fields -/

namespace Json

/-- A list is read back when each element is. -/
theorem mapM_map_some {α β : Type} {write : α → β} {read : β → Option α} {xs : List α}
    (h : ∀ x ∈ xs, read (write x) = some x) : (xs.map write).mapM read = some xs := by
  induction xs with
  | nil => rfl
  | cons x xs ih =>
    obtain ⟨hx, hxs⟩ := List.forall_mem_cons.mp h
    simp [hx, ih hxs]

/-- A list is read back when each of its members is. -/
theorem listOf?_ofList {α : Type} {write : α → Json} {read : Json → Option α} {xs : List α}
    (h : ∀ x ∈ xs, read (write x) = some x) : (Json.ofList write xs).listOf? read = some xs :=
  mapM_map_some h

/-- The entries of an object that is written are its fields, repeated keys included. -/
theorem entries?_ofFields (fields : List (String × Json)) :
    (ofFields fields).entries? = some fields := by
  rw [ofFields, entries?]
  exact mapM_map_some fun _ _ => rfl

/-- The fields of an object whose names differ. -/
theorem fields?_ofFields {fields : List (String × Json)} (hnames : (fields.map (·.1)).Nodup)
    (names : List String) :
    (ofFields fields).fields? names = some ⟨names.map fun n => fields.lookup n, false⟩ := by
  -- no name is given twice, which is what reading a record would refuse
  have honce : ¬ names.any fun n => 1 < fields.countP (·.1 == n) := by
    intro h
    obtain ⟨n, -, hn⟩ := List.any_eq_true.mp h
    have hcount := List.nodup_iff_count_le_one.mp hnames n
    rw [List.count, List.countP_map] at hcount
    exact absurd (of_decide_eq_true hn) (Nat.not_lt.mpr hcount)
  have hentries := entries?_ofFields fields
  rw [ofFields] at hentries ⊢
  rw [Json.fields?, hentries]
  · simp only [Option.bind_eq_bind, Option.bind_some, if_neg honce]
    rfl
  · intro xs h
    contradiction

/-- A number is read back if it is a machine word. -/
theorem natural?_ofNat {n : Nat} (hn : n < Nat.pow 2 64) : (ofNat n).natural? = some n := by
  have hdigits : n.repr.toList.all Char.isDigit := by
    rw [Nat.repr_eq_ofList_toDigits, String.toList_ofList, List.all_eq_true]
    exact Reader.isDigit_toDigits n
  rw [ofNat, natural?, if_pos hdigits, Nat.toNat?_repr]
  simp only [if_pos hn]

/-- A list of plain values is plain. -/
theorem Plain.ofList {α : Type} {f : α → Json} {xs : List α} (h : ∀ x ∈ xs, Plain (f x)) :
    Plain (Json.ofList f xs) :=
  .array fun j hj => by
    obtain ⟨x, hx, rfl⟩ := List.mem_map.mp hj
    exact h x hx

end Json

/-! ### Names and records -/

namespace ImportedName

/-- A name is written plainly, whether it has an alias or not. -/
theorem plain_toJson (n : ImportedName) : n.toJson.Plain := by
  refine .object ?_
  cases n.rename <;> simp [optionalText, Json.Plain.text]

/-- A name is read back. -/
theorem ofJson?_toJson (n : ImportedName) : ofJson? n.toJson = some n := by
  obtain ⟨name, rename⟩ := n
  cases rename <;>
    (rw [toJson, presentFields, ofJson?, Json.fields?_ofFields (by simp [optionalText])]; rfl)

end ImportedName

/-- A set of names is read back. -/
theorem NameSet.ofJson?_toJson {s : NameSet} (hs : s.Ascending) :
    NameSet.ofJson? (.ofList (·.toJson) s) = some s := by
  rw [NameSet.ofJson?, Json.listOf?_ofList fun n _ => n.ofJson?_toJson, Option.map_some,
    NameSet.ofList_of_ascending hs]

namespace ImportRecord

/-- The numbers of a record fit into 64 bits, and its names are a set. -/
structure WellFormed (r : ImportRecord) : Prop where
  depth : r.depth < Nat.pow 2 64
  line : r.line < Nat.pow 2 64
  names : r.names.Ascending

/-- A record is written plainly. -/
theorem plain_toJson (r : ImportRecord) : r.toJson.Plain := by
  refine .object ?_
  have hpath : (Json.ofList .ofText r.path).Plain := .ofList fun s _ => .text s
  have hnames : (Json.ofList (·.toJson) r.names).Plain := .ofList fun n _ => n.plain_toJson
  cases r.rename <;>
    simp [optionalText, Json.Plain.text, Json.Plain.natural, Json.Plain.bool, hpath, hnames]

/-- A record is read back, the numbers in it being machine words and its names sorted. -/
theorem ofJson?_toJson {r : ImportRecord} (hr : r.WellFormed) : ofJson? r.toJson = some r := by
  have hpath : (Json.ofList .ofText r.path).listOf? Json.text? = some r.path :=
    Json.listOf?_ofList fun s _ => rfl
  have hnames := NameSet.ofJson?_toJson hr.names
  have hdepth := Json.natural?_ofNat hr.depth
  have hline := Json.natural?_ofNat hr.line
  obtain ⟨path, rename, depth, names, wildcard, conditional, reExport, line⟩ := r
  cases rename <;>
  · rw [toJson, presentFields, ofJson?, Json.fields?_ofFields (by simp [optionalText])]
    simp [optionalText, List.lookup, hpath, hnames, hdepth, hline, Json.nullable?, Json.text?,
      Json.bool?, Json.ofText]

end ImportRecord

/-! ### Nodes and edges -/

theorem NodeError.plain_toJson (e : NodeError) : e.toJson.Plain :=
  .object (by simp [Json.Plain.text])

/-- An error is read back. -/
theorem NodeError.ofJson?_toJson (e : NodeError) : ofJson? e.toJson = some e := by
  obtain ⟨kind, message⟩ := e
  rw [toJson, ofJson?, Json.fields?_ofFields (by simp)]
  cases kind <;> rfl

theorem Path.plain_toJson (p : Path) : p.toJson.Plain :=
  .text p.text

theorem Path.ofJson?_toJson (p : Path) : ofJson? p.toJson = some p := rfl

namespace ModuleNode

/-- The records of a node are well-formed. -/
def WellFormed (n : ModuleNode) : Prop :=
  ∀ r ∈ n.imports, r.WellFormed

/-- A node is written plainly. -/
theorem plain_toJson (n : ModuleNode) : n.toJson.Plain := by
  have himports : (Json.ofList (·.toJson) n.imports).Plain := .ofList fun r _ => r.plain_toJson
  have herrors : (Json.ofList (·.toJson) n.errors).Plain := .ofList fun e _ => e.plain_toJson
  exact .object (by simp [Path.plain_toJson, Json.Plain.text, himports, herrors])

/-- A node is read back. -/
theorem ofJson?_toJson {n : ModuleNode} (hn : n.WellFormed) : ofJson? n.toJson = some n := by
  have himports :
      (Json.ofList (·.toJson) n.imports).listOf? ImportRecord.ofJson? = some n.imports :=
    Json.listOf?_ofList fun r hr => ImportRecord.ofJson?_toJson (hn r hr)
  have herrors : (Json.ofList (·.toJson) n.errors).listOf? NodeError.ofJson? = some n.errors :=
    Json.listOf?_ofList fun e _ => e.ofJson?_toJson
  rw [toJson, ofJson?, Json.fields?_ofFields (by simp)]
  simp [List.lookup, Path.ofJson?_toJson, himports, herrors, Json.text?, Json.ofText]

end ModuleNode

namespace Edge

/-- The symbols of an edge are a set. -/
def WellFormed (e : Edge) : Prop :=
  e.symbols.Ascending

/-- An edge is written plainly. -/
theorem plain_toJson (e : Edge) : e.toJson.Plain := by
  have hsymbols : (Json.ofList (·.toJson) e.symbols).Plain := .ofList fun n _ => n.plain_toJson
  exact .object (by simp [Path.plain_toJson, Json.Plain.bool, hsymbols])

/-- An edge is read back. -/
theorem ofJson?_toJson {e : Edge} (he : e.WellFormed) : ofJson? e.toJson = some e := by
  have hsymbols := NameSet.ofJson?_toJson he
  rw [toJson, ofJson?, Json.fields?_ofFields (by simp)]
  simp [List.lookup, Path.ofJson?_toJson, hsymbols, Json.bool?]

end Edge

/-! ### Graphs -/

namespace ModuleGraph

/-- The nodes and the edges of a graph are well-formed. -/
structure WellFormed (g : ModuleGraph) : Prop where
  nodes : ∀ kn ∈ g.nodes, kn.2.WellFormed
  edges : ∀ e ∈ g.edges, e.WellFormed

variable {g : ModuleGraph}

/-- A graph is written plainly. -/
theorem plain_toJson (g : ModuleGraph) : g.toJson.Plain := by
  have hentries : (Json.ofList (·.toJson) g.entries).Plain := .ofList fun p _ => p.plain_toJson
  have hnodes : (Json.ofFields (g.nodes.map fun kn => (kn.1.text, kn.2.toJson))).Plain :=
    .object fun f hf => by
      obtain ⟨kn, -, rfl⟩ := List.mem_map.mp hf
      exact kn.2.plain_toJson
  have hedges : (Json.ofList (·.toJson) g.edges).Plain := .ofList fun e _ => e.plain_toJson
  have hmetadata : (Json.ofFields
      [("language", .ofText g.language), ("generated_at", .ofText g.generatedAt)]).Plain :=
    .object (by simp [Json.Plain.text])
  exact .object (by simp [Path.plain_toJson, hentries, hnodes, hedges, hmetadata])

/-- The nodes are read back into the table that they are written from: they come in order, so each
new one goes to its end. -/
theorem nodesOfJson?_toJson (hasc : g.nodes.Ascending) (hw : g.WellFormed) :
    nodesOfJson? (.ofFields (g.nodes.map fun (k, n) => (k.text, n.toJson))) = some g.nodes := by
  have hnodes : (g.nodes.map fun kn => (kn.1.text, kn.2.toJson)).mapM (fun kv =>
      (ModuleNode.ofJson? kv.2).map (Path.mk kv.1, ·)) = some g.nodes := by
    refine Json.mapM_map_some fun kn hkn => ?_
    simp only [ModuleNode.ofJson?_toJson (hw.nodes kn hkn), Option.map_some]
  rw [nodesOfJson?, Json.entries?_ofFields]
  simp only [Option.bind_eq_bind, Option.bind_some, hnodes]
  exact congrArg some (Keyed.foldl_alter_of_ascending hasc)

/-- **What is written is read.** The graph that is read has its indexes made anew. -/
theorem ofJson?_toJson (hasc : g.nodes.Ascending) (hw : g.WellFormed) :
    ofJson? g.toJson = some g.reindex := by
  have hentries : (Json.ofList (·.toJson) g.entries).listOf? Path.ofJson? = some g.entries :=
    Json.listOf?_ofList fun p _ => p.ofJson?_toJson
  have hnodes := nodesOfJson?_toJson hasc hw
  have hedges : (Json.ofList (·.toJson) g.edges).listOf? Edge.ofJson? = some g.edges :=
    Json.listOf?_ofList fun e he => Edge.ofJson?_toJson (hw.edges e he)
  rw [toJson, ofJson?, Json.fields?_ofFields (by simp)]
  simp [List.lookup, Path.ofJson?_toJson, hentries, hnodes, hedges, Json.fields?_ofFields,
    Json.text?, Json.ofText]
  rfl

/-! ### The same answers -/

/-- A graph whose indexes are made anew is joined. -/
theorem Joined.reindex (h : Joined g) : Joined g.reindex where
  toIndexed := Indexed.reindex h.ascending h.keyed
  source_mem := h.source_mem
  target_mem := h.target_mem

/-- With indexes made anew a graph has the same edges from each module. -/
theorem Joined.outgoing_reindex (h : Joined g) (id : Path) :
    g.reindex.outgoing id = g.outgoing id := by
  rw [h.reindex.outgoing_eq, h.outgoing_eq]
  rfl

/-- With indexes made anew it has the same edges to each module. -/
theorem Joined.incoming_reindex (h : Joined g) (id : Path) :
    g.reindex.incoming id = g.incoming id := by
  rw [h.reindex.incoming_eq, h.incoming_eq]
  rfl

/-- The dependencies are read off the edges from a module, so they are the same. -/
theorem Joined.dependencies_reindex (h : Joined g) (id : Path) :
    g.reindex.dependencies id = g.dependencies id := by
  rw [dependencies, dependencies, h.outgoing_reindex]

/-- The dependents are read off the edges to a module, so they are the same. -/
theorem Joined.dependents_reindex (h : Joined g) (id : Path) :
    g.reindex.dependents id = g.dependents id := by
  rw [dependents, dependents, h.incoming_reindex]

/-- The weights are counted over the same edges. -/
theorem Joined.weights_reindex (h : Joined g) (weighting : Weighting) (id : Path) :
    g.reindex.weights weighting id = g.weights weighting id := by
  rw [weights, weights, h.outgoing_reindex]

/-- The entropy of a module is determined by its weights. -/
theorem Joined.entropy_reindex (h : Joined g) (weighting : Weighting) :
    g.reindex.entropy weighting = g.entropy weighting := by
  simp only [entropy, nodeEntropy, outWeight, weightList, h.weights_reindex]
  rfl

/-- Both ends of an edge are looked up, one after the other. -/
theorem ends?_eq_bind (g : ModuleGraph) (e : Edge) :
    g.ends? e = (g.index? e.source).bind fun u => (g.index? e.target).map fun v => (u, v) := by
  unfold ends?
  cases g.index? e.source <;> cases g.index? e.target <;> rfl

/-- They are looked up among the nodes, which stay. -/
theorem ends?_reindex (g : ModuleGraph) : g.reindex.ends? = g.ends? := by
  funext e
  -- the places of both are numbers below the same count
  exact (ends?_eq_bind g.reindex e).trans (ends?_eq_bind g e).symm

/-- The neighbours of a node in the search for cycles are the same. -/
theorem neighbours_reindex (g : ModuleGraph) : g.reindex.neighbours = g.neighbours := by
  unfold neighbours
  rw [ends?_reindex]
  rfl

/-- The search for cycles asks a graph for neighbours only, so the cycles are the same. -/
theorem cycles_reindex (g : ModuleGraph) : g.reindex.cycles = g.cycles := by
  unfold cycles
  rw [neighbours_reindex]
  rfl

/-! ### Growth -/

/-- What a change brings into a graph is well-formed. -/
def Change.WellFormed : Change → Prop
  | addNode node => node.WellFormed
  | addEdge e => e.WellFormed
  | replaceEdges es => ∀ e ∈ es, e.WellFormed
  | finalize => True
  | setErrors _ _ => True

/-- The graphs that grow from an empty one, by changes and by saying other things of themselves. -/
inductive Grown (root : Path) : ModuleGraph → Prop where
  | new : Grown root { root }
  | change {g : ModuleGraph} (h : Grown root g) {c : Change} (hc : c.WellFormed) :
    Grown root (c.apply g)
  | assignEntries {g : ModuleGraph} (h : Grown root g) (entries : List Path) :
    Grown root { g with entries }
  | describe {g : ModuleGraph} (h : Grown root g) (language generatedAt : String) :
    Grown root { g with language, generatedAt }

/-- Changes of well-formed data grow a graph. -/
theorem grown_ofChanges {root : Path} {changes : List Change}
    (h : ∀ c ∈ changes, c.WellFormed) : Grown root (ofChanges root changes) := by
  induction changes using List.reverseRecOn with
  | nil => exact .new
  | append_singleton changes c ih =>
    rw [ofChanges, List.foldl_append]
    exact .change (ih fun d hd => h d (List.mem_append_left _ hd)) (h c (by simp))

/-- No edge is kept that was not given. -/
theorem mem_of_mem_keepEdges {es : List Edge} {f : Edge} (h : f ∈ g.keepEdges es) : f ∈ es := by
  induction es using List.reverseRecOn with
  | nil => exact h
  | append_singleton es e ih =>
    rw [keepEdges_concat] at h
    split at h
    · exact List.mem_append.mpr ((List.mem_append.mp h).imp_left ih)
    · exact List.mem_append_left _ (ih h)

/-- Adding well-formed data keeps a graph well-formed. -/
theorem WellFormed.addNode (h : WellFormed g) {node : ModuleNode} (hnode : node.WellFormed) :
    WellFormed (g.addNode node) where
  nodes := by
    intro kn hkn
    by_cases hnew : g.contains node.id
    · rw [ModuleGraph.addNode, if_pos hnew] at hkn
      exact h.nodes kn hkn
    · rw [ModuleGraph.addNode, if_neg hnew] at hkn
      -- the new node, or one of before
      rcases List.mem_cons.mp ((Keyed.perm_alter_of_new hnew _).mem_iff.mp hkn) with rfl | hkn
      · exact hnode
      · exact h.nodes kn hkn
  edges := by
    rw [(addNode_keeps g node).2.2]
    exact h.edges

/-- Errors may be any texts. -/
theorem WellFormed.setErrors (h : WellFormed g) (id : Path) (errors : List NodeError) :
    WellFormed (g.updateNode id fun n => { n with errors }) where
  nodes := by
    intro kn hkn
    obtain ⟨⟨k, n⟩, hmem, rfl⟩ := List.mem_map.mp hkn
    have hn : n.WellFormed := h.nodes _ hmem
    dsimp only
    split <;> exact hn
  edges := h.edges

/-- A change by something well-formed leaves a graph well-formed. -/
theorem WellFormed.apply (h : WellFormed g) (hg : Joined g) {c : Change} (hc : c.WellFormed) :
    WellFormed (c.apply g) := by
  cases c with
  | addNode node => exact h.addNode hc
  | addEdge e =>
    -- the edge is added, or nothing changes
    rw [hg.apply_addEdge]
    split
    · refine ⟨h.nodes, fun f hf => ?_⟩
      rcases List.mem_append.mp hf with hf | hf
      · exact h.edges f hf
      · rwa [List.mem_singleton.mp hf]
    · exact h
  | replaceEdges es => exact ⟨h.nodes, fun e he => hc e (mem_of_mem_keepEdges he)⟩
  | finalize => exact ⟨h.nodes, fun e he => h.edges e ((finalize_perm g).mem_iff.mp he)⟩
  | setErrors id errors => exact h.setErrors id errors

/-- A graph that has grown keeps its invariant, and only well-formed parts have come into it. -/
theorem Grown.sound {root : Path} (hg : Grown root g) : Sound g ∧ WellFormed g := by
  induction hg with
  | new => exact ⟨.empty root [], by simp, by simp⟩
  | change _ hc ih => exact ⟨ih.1.apply _, ih.2.apply ih.1.toJoined hc⟩
  | assignEntries _ entries ih => exact ⟨ih.1.assignEntries entries, ih.2.nodes, ih.2.edges⟩
  | describe _ language generatedAt ih =>
    exact ⟨ih.1.describe language generatedAt, ih.2.nodes, ih.2.edges⟩

/-- **Saving and loading.** The text of a graph that has grown is read as a graph that says the same
and answers the same, whether the indexes of the first were made anew at last or not. -/
theorem Grown.load_save {root : Path} (hg : Grown root g) :
    ∃ h, load g.save = .ok h ∧
      (h.root = g.root ∧ h.entries = g.entries ∧ h.language = g.language ∧
        h.generatedAt = g.generatedAt ∧ h.nodes = g.nodes ∧ h.edges = g.edges) ∧
      (∀ id, h.outgoing id = g.outgoing id ∧ h.incoming id = g.incoming id ∧
        h.dependencies id = g.dependencies id ∧ h.dependents id = g.dependents id) ∧
      h.faulty = g.faulty ∧ h.cycles = g.cycles ∧
      ∀ weighting, (∀ id, h.weights weighting id = g.weights weighting id) ∧
        h.entropy weighting = g.entropy weighting := by
  obtain ⟨hsound, hw⟩ := hg.sound
  have hjoined := hsound.toJoined
  refine ⟨g.reindex, ?_, ⟨rfl, rfl, rfl, rfl, rfl, rfl⟩, fun id => ⟨hjoined.outgoing_reindex id,
    hjoined.incoming_reindex id, hjoined.dependencies_reindex id, hjoined.dependents_reindex id⟩,
    rfl, cycles_reindex g, fun weighting => ⟨hjoined.weights_reindex weighting,
      hjoined.entropy_reindex weighting⟩⟩
  -- the printed text is parsed to the same value, and the value is read as the graph with its
  -- indexes made anew
  rw [load, save, Json.parse?_pretty (plain_toJson g), Option.bind_some,
    ofJson?_toJson hjoined.ascending hw]

/-- Two files of which the second takes from the first, whose imports could not be read; quotes,
line ends and a control character in names and messages. The second one is the entry. -/
theorem Grown.load_save_of_two :
    let first : ModuleNode := ⟨⟨"/r/a \"b\".py"⟩, "python", [], [⟨.extraction, "at\n\x01\\"⟩]⟩
    let second : ModuleNode := ⟨⟨"/r/c.py"⟩, "python",
      [{ path := ["a"], rename := some "\t", depth := 1, names := [⟨"x", none⟩, ⟨"x", some "é"⟩],
         conditional := true, line := 3 }], []⟩
    let edge : Edge := ⟨second.id, first.id, [⟨"x", none⟩, ⟨"x", some "é"⟩], false⟩
    let g : ModuleGraph :=
      { ofChanges ⟨"/r"⟩ [.addNode second, .addNode first, .addEdge edge] with
        entries := [second.id] }
    Grown ⟨"/r"⟩ g ∧ g.nodes.length = 2 ∧ g.edges = [edge] ∧
      ∃ h, load g.save = .ok h ∧ h.nodes = g.nodes ∧ h.edges = [edge] ∧
        h.incoming first.id = [edge] := by
  intro first second edge g
  have hnames : NameSet.Ascending [⟨"x", none⟩, ⟨"x", some "é"⟩] := by
    refine List.pairwise_pair.mpr ?_
    decide +kernel
  have hfirst : first.WellFormed := by simp [ModuleNode.WellFormed, first]
  have hsecond : second.WellFormed := by
    intro r hr
    rw [List.mem_singleton.mp hr]
    exact ⟨by decide, by decide, hnames⟩
  have hchanges : ∀ c ∈ [.addNode second, .addNode first, .addEdge edge], Change.WellFormed c := by
    simp only [List.forall_mem_cons, List.not_mem_nil, false_implies, implies_true, and_true]
    exact ⟨hsecond, hfirst, hnames⟩
  have hg : Grown ⟨"/r"⟩ g := .assignEntries (grown_ofChanges hchanges) [second.id]
  have hnodes : g.nodes.length = 2 := by decide +kernel
  have hedges : g.edges = [edge] := by decide +kernel
  have hincoming : g.incoming first.id = [edge] := by decide +kernel
  obtain ⟨h, hload, ⟨-, -, -, -, hnodes', hedges'⟩, hqueries, -⟩ := Grown.load_save hg
  exact ⟨hg, hnodes, hedges, h, hload, hnodes', hedges'.trans hedges,
    (hqueries _).2.1.trans hincoming⟩

end ModuleGraph

end ImportAtlas
