import ImportAtlas.Drawing
import ImportAtlas.Proofs.Drawing.Dot

/-!
# What a drawing says

The text of a drawing is DOT, and it says one statement for each line that is not of a cluster
(`Sheet.read_draw`).

* `Sheet.nodeStatement`, `Sheet.edgeStatement` — the statement of a node, and of an edge, with their
  texts as they were before they were escaped;
* `Sheet.nodeStatements` — the nodes, in the clusters of their directories if there are clusters;
* `Sheet.legendStatement` — the legend, which is a cluster.

Names are quoted and escaped, so that they may have any characters. What is not escaped is plain
(`Dot.Plain`): identifiers, colours, and numbers, whatever the number is.
-/

namespace ImportAtlas

namespace Drawing

open Dot

/-! ### Plain texts -/

theorem toList_escaped (text : String) : (escaped text).toList = escape text.toList := by
  rw [escaped, String.toList_ofList, escape]

/-- Letters, digits and underscores are plain. -/
theorem plain_of_isAlphanum {t : List Char} (h : ∀ c ∈ t, c.isAlphanum || c == '_') : Plain t := by
  intro c hc
  have hword := h c hc
  constructor
  · rintro rfl
    exact absurd hword (by decide)
  · rintro rfl
    exact absurd hword (by decide)

/-- An identifier needs no escapes, which is why it is written as it is. -/
theorem plain_identifier (name : String) : Plain (identifier name).toList := by
  apply plain_of_isAlphanum
  intro c hc
  rw [identifier, String.toList_map, List.mem_map] at hc
  obtain ⟨d, -, rfl⟩ := hc
  split
  · assumption
  · rfl

/-- No digit needs an escape, of whatever base. -/
theorem plain_digitChar (n : Nat) : Plain [Nat.digitChar n] := by
  have hdigits : ∀ n < 16, Plain [Nat.digitChar n] := by decide
  rcases Nat.lt_or_ge n 16 with hn | hn
  · exact hdigits n hn
  · -- what is no digit is a star
    have hstar : Nat.digitChar n = '*' := by
      unfold Nat.digitChar
      repeat rw [if_neg (by omega)]
    rw [hstar]
    decide

/-- Colours are a mark and six digits. -/
theorem plain_fill (theme : Theme) (h top : Float) : Plain (fill theme h top).toList := by
  have hbyte : ∀ n, Plain (hexByte n).toList := fun n => by
    rw [hexByte, String.toList_ofList]
    exact (plain_digitChar _).append (plain_digitChar _)
  have hmark : Plain ['#'] := by decide
  rw [fill, String.toList_append, String.toList_join]
  refine hmark.append ?_
  intro c hc
  obtain ⟨part, hpart, hc⟩ := List.mem_flatMap.mp hc
  obtain ⟨x, -, rfl⟩ := List.mem_map.mp hpart
  exact hbyte _ c hc

/-! ### Numbers -/

theorem isWordChar_of_isDigit {c : Char} (h : c.isDigit) : isWordChar c := by
  simp [isWordChar, Char.isAlphanum, h]

theorem isWordChar_toDigits (n : Nat) : ∀ c ∈ Nat.toDigits 10 n, isWordChar c :=
  fun _ hc => isWordChar_of_isDigit (Nat.isDigit_of_mem_toDigits (by decide) (by decide) hc)

/-- A number is a word without quotes. -/
theorem isWord_repr (n : Nat) : IsWord n.repr.toList := by
  rw [Nat.repr_eq_ofList_toDigits, String.toList_ofList]
  exact ⟨_, Nat.toDigits_ne_nil, isWordChar_toDigits n, .inl rfl⟩

/-- A number with its point: at least one digit stands in front of that. -/
theorem isWord_withPoint (units places : Nat) :
    (Decimal.withPoint units places).toList ≠ [] ∧
      ∀ c ∈ (Decimal.withPoint units places).toList, isWordChar c := by
  unfold Decimal.withPoint
  dsimp only
  generalize hpadded : List.replicate (places + 1 - (Nat.toDigits 10 units).length) '0' ++
    Nat.toDigits 10 units = padded
  have hword : ∀ c ∈ padded, isWordChar c := by
    intro c hc
    rw [← hpadded] at hc
    rcases List.mem_append.mp hc with hc | hc
    · rw [List.eq_of_mem_replicate hc]
      rfl
    · exact isWordChar_toDigits units c hc
  -- zeros are put in front until there is a digit before the point
  have hwhole : padded.take (padded.length - places) ≠ [] := by
    have hlength := congrArg List.length hpadded
    rw [List.length_append, List.length_replicate] at hlength
    intro hnil
    have hzero := congrArg List.length hnil
    rw [List.length_take, List.length_nil] at hzero
    omega
  -- without places there is no point
  split
  · rw [String.toList_ofList]
    exact ⟨hwhole, fun c hc => hword c (List.mem_of_mem_take hc)⟩
  · rw [String.toList_ofList]
    refine ⟨fun hnil => hwhole (List.append_eq_nil_iff.mp hnil).1, fun c hc => ?_⟩
    rcases List.mem_append.mp hc with hc | hc
    · exact hword c (List.mem_of_mem_take hc)
    · rcases List.mem_cons.mp hc with rfl | hc
      · rfl
      · exact hword c (List.mem_of_mem_drop hc)

/-- Whatever a number is, what is written for it is one word. -/
theorem isWord_fixed (x : Float) (places : Nat) : IsWord (Decimal.fixed x places).toList := by
  -- the numbers without digits are written as names
  have hname : ∀ t ∈ [['N', 'a', 'N'], ['i', 'n', 'f']], t ≠ [] ∧ ∀ c ∈ t, isWordChar c := by
    decide
  unfold Decimal.fixed
  split
  · exact ⟨['N', 'a', 'N'], (hname _ (by simp)).1, (hname _ (by simp)).2, .inl rfl⟩
  · split
    · exact ⟨['i', 'n', 'f'], (hname _ (by simp)).1, (hname _ (by simp)).2, .inr rfl⟩
    · exact ⟨['i', 'n', 'f'], (hname _ (by simp)).1, (hname _ (by simp)).2, .inl rfl⟩
  · obtain ⟨hne, hword⟩ := isWord_withPoint (Decimal.scaled ‹_› ‹_› places) places
    refine ⟨_, hne, hword, ?_⟩
    -- the sign is one character in front
    rw [String.toList_append]
    split
    · exact .inr rfl
    · exact .inl rfl

/-! ### Quotations -/

/-- A quoted text is one with a quote on each side. -/
theorem toList_quoted (t : String) : (quoted t).toList = '"' :: (t.toList ++ ['"']) := by
  rw [quoted, String.toList_append, String.toList_append]
  rfl

/-- A plain text in quotes is read as it is. -/
theorem takes_quoted_of_plain {t : String} (h : Plain t.toList) :
    Takes .between (quoted t).toList [.quoted t] .between := by
  have hquoted := takes_quoted t.toList
  rwa [h.escape_eq, String.ofList_toList, ← toList_quoted] at hquoted

/-- Any text is read as it was before it was escaped. -/
theorem takes_quoted_escaped (t : String) :
    Takes .between (quoted (escaped t)).toList [.quoted t] .between := by
  have hquoted := takes_quoted t.toList
  rwa [← toList_escaped, String.ofList_toList, ← toList_quoted] at hquoted

/-! ### What stands around the values of attributes -/

/-- The beginning of the attributes. -/
theorem takes_label :
    Takes .between " [label=".toList [.openBracket, .word "label", .equals] .between :=
  fun _ => rfl

theorem takes_color : Takes .between ", color=".toList [.comma, .word "color", .equals] .between :=
  fun _ => rfl

theorem takes_semicolon : Takes .between (";".toList ++ ['\n']) [.semicolon] .between :=
  fun _ => rfl

/-- Their end, with that of the statement and of the line. -/
theorem takes_end :
    Takes .between ("];".toList ++ ['\n']) [.closeBracket, .semicolon] .between :=
  fun _ => rfl

/-! ### Lines -/

/-- Lines as they stand in a text. -/
def textOf (lines : List String) : List Char :=
  lines.flatMap fun line => line.toList ++ ['\n']

@[simp] theorem textOf_nil : textOf [] = [] :=
  rfl

/-- A line is followed by its end. -/
@[simp] theorem textOf_cons (line : String) (lines : List String) :
    textOf (line :: lines) = line.toList ++ ['\n'] ++ textOf lines :=
  List.flatMap_cons

/-- Lines one after the other. -/
@[simp] theorem textOf_append (lines lines' : List String) :
    textOf (lines ++ lines') = textOf lines ++ textOf lines' :=
  List.flatMap_append

/-- The lines of a drawing as one text. -/
theorem toList_join_lines (lines : List String) :
    (String.join (lines.map (· ++ "\n"))).toList = textOf lines := by
  rw [String.toList_join, List.flatMap_map, textOf]
  simp only [String.toList_append]
  rfl

/-- Lines that say one statement each. -/
theorem says_lines {α : Type} {line : α → String} {statement : α → Statement}
    (h : ∀ a, Says ((line a).toList ++ ['\n']) [statement a]) (as : List α) :
    Says (textOf (as.map line)) (as.map statement) := by
  have hlines := Says.flatMap fun a (_ : a ∈ as) => h a
  rw [← List.map_eq_flatMap] at hlines
  rwa [textOf, List.flatMap_map]

namespace Sheet

variable {s : Sheet}

/-- The statement of a node, under the identifier of its name. -/
def nodeStatement (s : Sheet) (id : Path) : Statement :=
  let name := s.graph.displayName id
  .node (identifier name)
    [("label", name),
      ("fillcolor", fill s.options.theme (s.entropy.of id) s.top),
      ("color", if (s.cycleOf? id).isSome then cycleColour else s.options.theme.border),
      ("style", if (s.graph.node? id).any (!·.errors.isEmpty) then "filled,rounded,dashed"
        else "filled,rounded"),
      ("tooltip", "entropy " ++ Decimal.fixed (s.entropy.of id) 2)]

/-- The statement of an edge, between the identifiers of its ends. -/
def edgeStatement (s : Sheet) (e : Edge) : Statement :=
  .edge (identifier (s.graph.displayName e.source)) (identifier (s.graph.displayName e.target))
    [("label", edgeLabel e),
      ("color", if s.onCycle e then cycleColour else edgeColour),
      ("penwidth", Decimal.fixed (penWidth e.weight) 2)]

/-- The line of a module is its statement. The name it is shown under may be any text, so it is
escaped. -/
theorem says_nodeLine {indent : String} (hindent : Takes .between indent.toList [] .between)
    (id : Path) : Says ((s.nodeLine indent id).toList ++ ['\n']) [s.nodeStatement id] := by
  have hcolour : Plain (if (s.cycleOf? id).isSome then cycleColour
      else s.options.theme.border).toList := by
    split
    · decide
    · cases s.options.theme <;> decide
  have hstyle : Plain (if (s.graph.node? id).any (!·.errors.isEmpty) then "filled,rounded,dashed"
      else "filled,rounded").toList := by
    split <;> decide
  have htooltip : Plain ("entropy " ++ Decimal.fixed (s.entropy.of id) 2).toList := by
    rw [String.toList_append]
    exact Plain.append (by decide) (isWord_fixed _ _).plain
  have hfill : Takes .between ", fillcolor=".toList [.comma, .word "fillcolor", .equals] .between :=
    fun _ => rfl
  have hstyle' : Takes .between ", style=".toList [.comma, .word "style", .equals] .between :=
    fun _ => rfl
  have htooltip' : Takes .between ", tooltip=".toList [.comma, .word "tooltip", .equals] .between :=
    fun _ => rfl
  -- the name alone may need escaping
  have htext := hindent.append <|
    (takes_quoted_of_plain (plain_identifier (s.graph.displayName id))).append <|
    takes_label.append <| (takes_quoted_escaped (s.graph.displayName id)).append <|
    hfill.append <|
    (takes_quoted_of_plain (plain_fill s.options.theme (s.entropy.of id) s.top)).append <|
    takes_color.append <| (takes_quoted_of_plain hcolour).append <|
    hstyle'.append <| (takes_quoted_of_plain hstyle).append <|
    htooltip'.append <| (takes_quoted_of_plain htooltip).append takes_end
  unfold nodeLine
  simp only [String.toList_append, List.append_assoc]
  exact says_statement [.quoted _, .openBracket, .word "label", .equals, .quoted _, .comma,
    .word "fillcolor", .equals, .quoted _, .comma, .word "color", .equals, .quoted _, .comma,
    .word "style", .equals, .quoted _, .comma, .word "tooltip", .equals, .quoted _,
    .closeBracket] htext rfl rfl

/-- The label of an arrow is made of numbers and words. -/
theorem plain_edgeLabel (e : Edge) : Plain (edgeLabel e).toList := by
  unfold edgeLabel
  split
  · decide
  · split
    · decide
    · exact (isWord_repr _).plain

/-- The line of an edge is its statement. -/
theorem says_edgeLine (s : Sheet) (e : Edge) :
    Says ((s.edgeLine e).toList ++ ['\n']) [s.edgeStatement e] := by
  have hcolour : Plain (if s.onCycle e then cycleColour else edgeColour).toList := by
    split <;> decide
  have hindent : Takes .between "  ".toList [] .between := fun _ => rfl
  have harrow : Takes .between " -> ".toList [.arrow] .between := fun _ => rfl
  have hwidth : Takes .between ", penwidth=".toList [.comma, .word "penwidth", .equals] .between :=
    fun _ => rfl
  -- the width stands without quotation marks, so that only the bracket ends it
  have hclose (w : List Char) : Takes (.word w) ("];".toList ++ ['\n'])
      [.word (String.ofList w), .closeBracket, .semicolon] .between := fun _ => rfl
  have htext := hindent.append <|
    (takes_quoted_of_plain (plain_identifier (s.graph.displayName e.source))).append <|
    harrow.append <|
    (takes_quoted_of_plain (plain_identifier (s.graph.displayName e.target))).append <|
    takes_label.append <| (takes_quoted_of_plain (plain_edgeLabel e)).append <|
    takes_color.append <| (takes_quoted_of_plain hcolour).append <|
    hwidth.append <| (isWord_fixed (penWidth e.weight) 2).takes.append (hclose _)
  rw [String.ofList_toList] at htext
  unfold edgeLine
  simp only [String.toList_append, List.append_assoc]
  exact says_statement [.quoted _, .arrow, .quoted _, .openBracket, .word "label", .equals,
    .quoted _, .comma, .word "color", .equals, .quoted _, .comma, .word "penwidth", .equals,
    .word _, .closeBracket] htext rfl rfl

/-! ### Clusters -/

/-- The statements of the modules of one directory. -/
def clusterStatements (s : Sheet) (dir : String) (ids : List Path) : List Statement :=
  if dir.isEmpty then ids.map s.nodeStatement
  else
    [.cluster ("cluster_" ++ identifier dir)
      (.setting "label" dir :: .setting "color" "lightgrey" :: ids.map s.nodeStatement)]

theorem takes_close : Takes .between ("  \x7d".toList ++ ['\n']) [.closeBrace] .between :=
  fun _ => rfl

/-- The lines of a directory are its cluster; those of the root are the statements of its
modules. -/
theorem says_clusterLines (s : Sheet) (dir : String) (ids : List Path) :
    Says (textOf (s.clusterLines dir ids)) (s.clusterStatements dir ids) := by
  unfold clusterLines clusterStatements
  split
  · have hindent : Takes .between "  ".toList [] .between := fun _ => rfl
    exact says_lines (says_nodeLine hindent) ids
  · have hname : Plain ("cluster_" ++ identifier dir).toList := by
      rw [String.toList_append]
      exact Plain.append (by decide) (plain_identifier dir)
    have hsubgraph : Takes .between "  subgraph ".toList [.word "subgraph"] .between :=
      fun _ => rfl
    have hbrace : Takes .between (" \x7b".toList ++ ['\n']) [.openBrace] .between := fun _ => rfl
    have hlabel : Takes .between "    label=".toList [.word "label", .equals] .between :=
      fun _ => rfl
    have hcolor : Takes .between ("    color=lightgrey;".toList ++ ['\n'])
        [.word "color", .equals, .word "lightgrey", .semicolon] .between := fun _ => rfl
    have hindent : Takes .between "    ".toList [] .between := fun _ => rfl
    -- what stands between the braces
    have hbody := (says_statement [.word "label", .equals, .quoted dir]
        (hlabel.append ((takes_quoted_escaped dir).append takes_semicolon)) rfl rfl).append <|
      (says_statement [.word "color", .equals, .word "lightgrey"] hcolor rfl rfl).append
        (says_lines (says_nodeLine (s := s) hindent) ids)
    have hcluster := hbody.cluster [.word "subgraph", .quoted ("cluster_" ++ identifier dir)]
      (hsubgraph.append ((takes_quoted_of_plain hname).append hbrace)) rfl rfl takes_close
    simp only [textOf_append, textOf_cons, textOf_nil, String.toList_append, List.append_assoc,
      List.append_nil] at hcluster ⊢
    exact hcluster

/-- The statements of all nodes. -/
def nodeStatements (s : Sheet) : List Statement :=
  if s.options.clusters then s.byDirectory.flatMap fun (dir, ids) => s.clusterStatements dir ids
  else s.graph.nodes.map fun (_, node) => s.nodeStatement node.id

/-- The lines of all modules say their statements, with clusters or without. -/
theorem says_allNodeLines (s : Sheet) : Says (textOf s.nodeLines) s.nodeStatements := by
  unfold nodeLines nodeStatements
  split
  · have h := Says.flatMap fun group (_ : group ∈ s.byDirectory) =>
      says_clusterLines s group.1 group.2
    rw [textOf, List.flatMap_assoc]
    exact h
  · have hindent : Takes .between "  ".toList [] .between := fun _ => rfl
    have h := says_lines (fun node : Path × ModuleNode => says_nodeLine (s := s) hindent node.2.id)
      s.graph.nodes
    exact h

/-! ### The whole drawing -/

/-- The legend: a cluster with nodes that are no modules. -/
def legendStatement (s : Sheet) : Statement :=
  let low := fill s.options.theme 0.0 1.0
  let high := fill s.options.theme 1.0 1.0
  .cluster "cluster_legend"
    [.setting "label" "Legend", .setting "color" "grey",
      .node "legend_low" [("label", "low entropy"), ("fillcolor", low)],
      .node "legend_high" [("label", "high entropy"), ("fillcolor", high)],
      .node "legend_cycle"
        [("label", "in a cycle"), ("fillcolor", low), ("color", cycleColour)]]

/-- A node of the legend, of which only the colours are the theme's. -/
theorem says_legendNode {lead id label colour : String} (hcolour : Plain colour.toList)
    (hlead : Takes .between lead.toList [.quoted id, .openBracket, .word "label", .equals,
      .quoted label, .comma, .word "fillcolor", .equals] .between) :
    Says (lead.toList ++ ((quoted colour).toList ++ ("];".toList ++ ['\n'])))
      [.node id [("label", label), ("fillcolor", colour)]] :=
  says_statement [.quoted id, .openBracket, .word "label", .equals, .quoted label, .comma,
      .word "fillcolor", .equals, .quoted colour, .closeBracket]
    (hlead.append ((takes_quoted_of_plain hcolour).append takes_end)) rfl rfl

/-- The node of the legend for the modules of cycles, which have a border of their own. -/
theorem says_legendCycle {colour : String} (hcolour : Plain colour.toList) :
    Says ("    \"legend_cycle\" [label=\"in a cycle\", fillcolor=".toList ++
        ((quoted colour).toList ++ (", color=".toList ++ ((quoted cycleColour).toList ++
          ("];".toList ++ ['\n'])))))
      [.node "legend_cycle"
        [("label", "in a cycle"), ("fillcolor", colour), ("color", cycleColour)]] := by
  -- up to the first colour the text is fixed, so that it is read by evaluation
  have hlead : Takes .between "    \"legend_cycle\" [label=\"in a cycle\", fillcolor=".toList
      [.quoted "legend_cycle", .openBracket, .word "label", .equals, .quoted "in a cycle", .comma,
        .word "fillcolor", .equals] .between := fun _ => rfl
  have hborder : Plain cycleColour.toList := by decide
  exact says_statement [.quoted "legend_cycle", .openBracket, .word "label", .equals,
      .quoted "in a cycle", .comma, .word "fillcolor", .equals, .quoted colour, .comma,
      .word "color", .equals, .quoted cycleColour, .closeBracket]
    (hlead.append <| (takes_quoted_of_plain hcolour).append <|
      takes_color.append <| (takes_quoted_of_plain hborder).append takes_end) rfl rfl

theorem says_legendLines (s : Sheet) : Says (textOf s.legendLines) [s.legendStatement] := by
  -- the fixed parts are read by evaluation; only the colours depend on the theme
  have hopen : Takes .between ("  subgraph cluster_legend \x7b".toList ++ ['\n'])
      [.word "subgraph", .word "cluster_legend", .openBrace] .between := fun _ => rfl
  have hlabel : Takes .between ("    label=\"Legend\";".toList ++ ['\n'])
      [.word "label", .equals, .quoted "Legend", .semicolon] .between := fun _ => rfl
  have hcolor : Takes .between ("    color=grey;".toList ++ ['\n'])
      [.word "color", .equals, .word "grey", .semicolon] .between := fun _ => rfl
  have hlow : Takes .between "    \"legend_low\" [label=\"low entropy\", fillcolor=".toList
      [.quoted "legend_low", .openBracket, .word "label", .equals, .quoted "low entropy", .comma,
        .word "fillcolor", .equals] .between := fun _ => rfl
  have hhigh : Takes .between "    \"legend_high\" [label=\"high entropy\", fillcolor=".toList
      [.quoted "legend_high", .openBracket, .word "label", .equals, .quoted "high entropy", .comma,
        .word "fillcolor", .equals] .between := fun _ => rfl
  have hfill (h : Float) := plain_fill s.options.theme h 1.0
  -- two settings and three boxes, one line each
  have hbody := (says_statement [.word "label", .equals, .quoted "Legend"] hlabel rfl rfl).append <|
    (says_statement [.word "color", .equals, .word "grey"] hcolor rfl rfl).append <|
    (says_legendNode (hfill 0.0) hlow).append <|
    (says_legendNode (hfill 1.0) hhigh).append <| says_legendCycle (hfill 0.0)
  have hlegend := hbody.cluster [.word "subgraph", .word "cluster_legend"] hopen rfl rfl takes_close
  unfold legendLines
  simp only [textOf_cons, textOf_nil, String.toList_append, List.append_assoc,
    List.append_nil] at hlegend ⊢
  exact hlegend

/-- What holds of the whole drawing: its direction, and how things are drawn by default. -/
def headStatements (s : Sheet) : List Statement :=
  [.setting "rankdir"
      (match s.options.direction with | .leftToRight => "LR" | .topToBottom => "TB"),
    .defaults "graph" [("fontname", "Helvetica")],
    .defaults "node" [("shape", "box"), ("fontsize", "10"), ("style", "filled,rounded")],
    .defaults "edge" [("fontname", "Helvetica"), ("fontsize", "9")]]

/-- How things are drawn by default does not depend on the options. -/
theorem says_defaults :
    Says (textOf ["  graph [fontname=Helvetica];",
        "  node [shape=box, fontsize=10, style=\"filled,rounded\"];",
        "  edge [fontname=Helvetica, fontsize=9];"])
      [.defaults "graph" [("fontname", "Helvetica")],
        .defaults "node" [("shape", "box"), ("fontsize", "10"), ("style", "filled,rounded")],
        .defaults "edge" [("fontname", "Helvetica"), ("fontsize", "9")]] := by
  have hgraph : Takes .between ("  graph [fontname=Helvetica];".toList ++ ['\n'])
      [.word "graph", .openBracket, .word "fontname", .equals, .word "Helvetica", .closeBracket,
        .semicolon] .between := fun _ => rfl
  have hnode : Takes .between
      ("  node [shape=box, fontsize=10, style=\"filled,rounded\"];".toList ++ ['\n'])
      [.word "node", .openBracket, .word "shape", .equals, .word "box", .comma, .word "fontsize",
        .equals, .word "10", .comma, .word "style", .equals, .quoted "filled,rounded",
        .closeBracket, .semicolon] .between := fun _ => rfl
  have hedge : Takes .between
      ("  edge [fontname=Helvetica, fontsize=9];".toList ++ ['\n'])
      [.word "edge", .openBracket, .word "fontname", .equals, .word "Helvetica", .comma,
        .word "fontsize", .equals, .word "9", .closeBracket, .semicolon] .between := fun _ => rfl
  -- each line is one statement, whose tokens are given
  have hdefaults := (says_statement [.word "graph", .openBracket, .word "fontname", .equals,
      .word "Helvetica", .closeBracket] hgraph rfl rfl).append <|
    (says_statement [.word "node", .openBracket, .word "shape", .equals, .word "box", .comma,
      .word "fontsize", .equals, .word "10", .comma, .word "style", .equals,
      .quoted "filled,rounded", .closeBracket] hnode rfl rfl).append <|
    says_statement [.word "edge", .openBracket, .word "fontname", .equals, .word "Helvetica",
      .comma, .word "fontsize", .equals, .word "9", .closeBracket] hedge rfl rfl
  simp only [textOf_cons, textOf_nil, List.append_nil]
  exact hdefaults

/-- The direction is a word without quotes. -/
theorem says_rankdir {rank : String} (hrank : IsWord rank.toList) :
    Says (("  rankdir=" ++ rank ++ ";").toList ++ ['\n']) [.setting "rankdir" rank] := by
  have hname : Takes .between "  rankdir=".toList [.word "rankdir", .equals] .between :=
    fun _ => rfl
  have hend (w : List Char) : Takes (.word w) (";".toList ++ ['\n'])
      [.word (String.ofList w), .semicolon] .between := fun _ => rfl
  have htext := hname.append (hrank.takes.append (hend _))
  rw [String.ofList_toList] at htext
  simp only [String.toList_append, List.append_assoc]
  exact says_statement [.word "rankdir", .equals, .word rank] htext rfl rfl

theorem says_headLines (s : Sheet) :
    Says (textOf (s.headLines.drop 2)) s.headStatements := by
  unfold headStatements
  generalize hrank : (match s.options.direction with
    | .leftToRight => "LR"
    | .topToBottom => "TB") = rank
  -- the first two lines open the graph and are no statements of it
  have hlines : s.headLines.drop 2 = ["  rankdir=" ++ rank ++ ";",
      "  graph [fontname=Helvetica];",
      "  node [shape=box, fontsize=10, style=\"filled,rounded\"];",
      "  edge [fontname=Helvetica, fontsize=9];"] := by
    rw [← hrank]
    unfold headLines
    cases s.options.direction <;> rfl
  -- either direction is two letters
  have hword : IsWord rank.toList := by
    rw [← hrank]
    cases s.options.direction with
    | leftToRight => exact ⟨['L', 'R'], by decide, by decide, .inl rfl⟩
    | topToBottom => exact ⟨['T', 'B'], by decide, by decide, .inl rfl⟩
  rw [hlines, textOf_cons]
  exact (says_rankdir hword).append says_defaults

/-- A drawing is a directed graph that says what its lines say. -/
theorem read_lines (s : Sheet) :
    Dot.read (String.join (s.lines.map (· ++ "\n"))) =
      some ("DepTree", s.headStatements ++ s.nodeStatements ++ s.graph.edges.map s.edgeStatement ++
        if s.options.legend then [s.legendStatement] else []) := by
  have hlegend : Says (textOf (if s.options.legend then s.legendLines else []))
      (if s.options.legend then [s.legendStatement] else []) := by
    split
    · exact says_legendLines s
    · exact Says.nil
  have hopen : Takes .between ("digraph DepTree".toList ++ ['\n'] ++ ("\x7b".toList ++ ['\n']))
      [.word "digraph", .word "DepTree", .openBrace] .between := fun _ => rfl
  have hclose : Takes .between ("\x7d".toList ++ ['\n']) [.closeBrace] .between := fun _ => rfl
  -- the body, part by part, in the order of the lines
  have hbody := ((says_headLines s).append (says_allNodeLines s)).append
    (says_lines (says_edgeLine s) s.graph.edges) |>.append hlegend
  refine read_eq [.word "digraph", .word "DepTree"] hopen rfl rfl hbody hclose ?_
  have hlines : s.lines = "digraph DepTree" :: "\x7b" :: (s.headLines.drop 2 ++ s.nodeLines ++
      s.graph.edges.map s.edgeLine ++ (if s.options.legend then s.legendLines else []) ++
        ["\x7d"]) := rfl
  rw [toList_join_lines, hlines]
  simp only [textOf_append, textOf_cons, textOf_nil, List.append_assoc, List.append_nil]

end Sheet

end Drawing

end ImportAtlas
