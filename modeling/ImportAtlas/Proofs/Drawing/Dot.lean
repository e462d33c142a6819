import ImportAtlas.Proofs.Text.Chars

/-!
# Reading DOT

The part of the DOT language that drawings are written in, as a reader from texts to statements
(`Dot.read`). It reads in three steps, each a recursion on what the one before gives:

* `Dot.tokensFrom` — characters to tokens, a quotation being one token with its escapes undone;
* `Dot.itemsFrom` — tokens to items, each ended by a semicolon or a brace;
* `Dot.assemble` — items to statements, those between the braces of a subgraph being its body.

Nothing is passed over: a text that is not of the language has no statements.

A part of a text means the same wherever it stands between two statements. `Dot.Says` is that
meaning. It is closed under putting texts one after the other (`Says.append`) and under making a
subgraph of them (`Says.cluster`), and the meaning of what stands in the braces is what the reader
finds there (`read_eq`).
-/

namespace ImportAtlas

namespace Dot

/-! ### Tokens -/

/-- A token. What is quoted is not a word, even if it could be one. -/
inductive Token where
  | word (text : String)
  | quoted (text : String)
  | openBrace
  | closeBrace
  | openBracket
  | closeBracket
  | semicolon
  | comma
  | equals
  | arrow
  /-- Anything that is no token. -/
  | bad
deriving DecidableEq, Repr, Inhabited

/-- The tokens of one character. -/
def Token.ofMark? (c : Char) : Option Token :=
  if c = '\x7b' then some .openBrace
  else if c = '\x7d' then some .closeBrace
  else if c = '[' then some .openBracket
  else if c = ']' then some .closeBracket
  else if c = ';' then some .semicolon
  else if c = ',' then some .comma
  else if c = '=' then some .equals
  else none

/-- The characters of a word that is written without quotes. -/
def isWordChar (c : Char) : Bool :=
  c.isAlphanum || c == '_' || c == '.'

/-- Where in a text the reader is, and what it has read of a token. -/
inductive Mode where
  | between
  /-- Behind a `-`, with which an arrow or a number may begin. -/
  | dash
  | word (read : List Char)
  | quote (read : List Char)
  /-- Behind a backslash in a quotation. -/
  | escape (read : List Char)

/-- A character that begins a token, or stands between tokens. -/
def enter (c : Char) : Mode × List Token :=
  match Token.ofMark? c with
  | some t => (.between, [t])
  | none =>
    if c = ' ' ∨ c = '\n' then (.between, [])
    else if c = '"' then (.quote [], [])
    else if c = '-' then (.dash, [])
    else if isWordChar c then (.word [c], [])
    else (.between, [.bad])

/-- One character more: what is being read from here on, and the tokens that it completes. -/
def next : Mode → Char → Mode × List Token
  | .between, c => enter c
  | .dash, c =>
    if c = '>' then (.between, [.arrow])
    else if isWordChar c then (.word ['-', c], [])
    else ((enter c).1, .bad :: (enter c).2)
  | .word w, c =>
    if isWordChar c then (.word (w ++ [c]), [])
    else ((enter c).1, .word (String.ofList w) :: (enter c).2)
  | .quote t, c =>
    if c = '"' then (.between, [.quoted (String.ofList t)])
    else if c = '\\' then (.escape t, [])
    else (.quote (t ++ [c]), [])
  | .escape t, c =>
    if c = '"' ∨ c = '\\' then (.quote (t ++ [c]), []) else (.quote (t ++ ['\\', c]), [])

/-- The token that is left at the end of a text, if any. -/
def finish : Mode → List Token
  | .between => []
  | .word w => [.word (String.ofList w)]
  | _ => [.bad]

/-- The tokens of a text, from the midst of a token on. -/
def tokensFrom (m : Mode) : List Char → List Token
  | [] => finish m
  | c :: cs => (next m c).2 ++ tokensFrom (next m c).1 cs

/-! ### Statements -/

/-- The statements of a graph, with the attributes in square brackets. -/
inductive Statement where
  | setting (name value : String)
  /-- The attributes of all that follows of a kind: of the graph, of nodes or of edges. -/
  | defaults (kind : String) (attributes : List (String × String))
  | node (id : String) (attributes : List (String × String))
  | edge (source target : String) (attributes : List (String × String))
  | cluster (name : String) (body : List Statement)
deriving Repr, Inhabited

/-- The value of an attribute. -/
def Statement.attribute? (name : String) : Statement → Option String
  | .defaults _ attributes => attributes.lookup name
  | .node _ attributes => attributes.lookup name
  | .edge _ _ attributes => attributes.lookup name
  | _ => none

mutual

/-- A statement itself, or those in a cluster. -/
def Statement.parts : Statement → List Statement
  | .cluster _ body => partsOf body
  | s => [s]

/-- All statements in their order, those in clusters included. -/
def partsOf : List Statement → List Statement
  | [] => []
  | s :: ss => s.parts ++ partsOf ss

end

/-- Whether a statement is for one node. -/
def Statement.isNode : Statement → Bool
  | .node .. => true
  | _ => false

/-- Whether a statement is for one edge. -/
def Statement.isEdge : Statement → Bool
  | .edge .. => true
  | _ => false

/-- The statements of nodes, in a cluster or not. -/
def nodesOf (ss : List Statement) : List Statement :=
  (partsOf ss).filter (·.isNode)

/-- The statements for edges among some statements and in their clusters, in order. -/
def edgesOf (ss : List Statement) : List Statement :=
  (partsOf ss).filter (·.isEdge)

/-- The parts of statements come one list after the other, those of a cluster in its place. -/
theorem partsOf_append (ss ss' : List Statement) :
    partsOf (ss ++ ss') = partsOf ss ++ partsOf ss' := by
  induction ss with
  | nil => rfl
  | cons s ss ih => rw [List.cons_append, partsOf, partsOf, ih, List.append_assoc]

/-- The statements for nodes come in order. -/
@[simp] theorem nodesOf_append (ss ss' : List Statement) :
    nodesOf (ss ++ ss') = nodesOf ss ++ nodesOf ss' := by
  rw [nodesOf, partsOf_append, List.filter_append, ← nodesOf, ← nodesOf]

/-- The statements for edges come in order. -/
@[simp] theorem edgesOf_append (ss ss' : List Statement) :
    edgesOf (ss ++ ss') = edgesOf ss ++ edgesOf ss' := by
  rw [edgesOf, partsOf_append, List.filter_append, ← edgesOf, ← edgesOf]

/-- The nodes of statements that are made piece by piece. -/
theorem nodesOf_flatMap {α : Type} (as : List α) (f : α → List Statement) :
    nodesOf (as.flatMap f) = as.flatMap fun a => nodesOf (f a) := by
  induction as with
  | nil => rfl
  | cons a as ih => rw [List.flatMap_cons, nodesOf_append, ih, List.flatMap_cons]

/-- The edges of statements that are made piece by piece. -/
theorem edgesOf_flatMap {α : Type} (as : List α) (f : α → List Statement) :
    edgesOf (as.flatMap f) = as.flatMap fun a => edgesOf (f a) := by
  induction as with
  | nil => rfl
  | cons a as ih => rw [List.flatMap_cons, edgesOf_append, ih, List.flatMap_cons]

/-- Nodes outside of clusters. -/
theorem nodesOf_of_isNode {ss : List Statement} (h : ∀ s ∈ ss, s.isNode) :
    nodesOf ss = ss ∧ edgesOf ss = [] := by
  induction ss with
  | nil => exact ⟨rfl, rfl⟩
  | cons s ss ih =>
    obtain ⟨hs, hss⟩ := List.forall_mem_cons.mp h
    obtain ⟨hnodes, hedges⟩ := ih hss
    cases s with
    | node id attributes =>
      exact ⟨congrArg (Statement.node id attributes :: ·) hnodes, hedges⟩
    | _ => exact Bool.noConfusion hs

/-- Statements for edges have nothing else in them. -/
theorem edgesOf_of_isEdge {ss : List Statement} (h : ∀ s ∈ ss, s.isEdge) :
    edgesOf ss = ss ∧ nodesOf ss = [] := by
  induction ss with
  | nil => exact ⟨rfl, rfl⟩
  | cons s ss ih =>
    obtain ⟨hs, hss⟩ := List.forall_mem_cons.mp h
    obtain ⟨hedges, hnodes⟩ := ih hss
    cases s with
    | edge source target attributes =>
      exact ⟨congrArg (Statement.edge source target attributes :: ·) hedges, hnodes⟩
    | _ => exact Bool.noConfusion hs

/-- The text of a token, which may stand in quotes. -/
def Token.text? : Token → Option String
  | .word t => some t
  | .quoted t => some t
  | _ => none

/-- The attributes up to the closing bracket, which is to be the end. -/
def attributes? : List Token → Option (List (String × String))
  | [k, .equals, v, .closeBracket] =>
    match k.text?, v.text? with
    | some k, some v => some [(k, v)]
    | _, _ => none
  | k :: .equals :: v :: .comma :: ts =>
    match k.text?, v.text?, attributes? ts with
    | some k, some v, some rest => some ((k, v) :: rest)
    | _, _, _ => none
  | _ => none

/-- A statement without its semicolon. An edge is told from a node by its arrow, and the three kinds
of defaults by their words. -/
def statement? : List Token → Option Statement
  | [k, .equals, v] =>
    match k.text?, v.text? with
    | some k, some v => some (.setting k v)
    | _, _ => none
  | a :: .arrow :: b :: .openBracket :: ts =>
    match a.text?, b.text?, attributes? ts with
    | some a, some b, some attributes => some (.edge a b attributes)
    | _, _, _ => none
  | .word w :: .openBracket :: ts =>
    if w = "graph" ∨ w = "node" ∨ w = "edge" then (attributes? ts).map (.defaults w)
    else (attributes? ts).map (.node w)
  | .quoted t :: .openBracket :: ts => (attributes? ts).map (.node t)
  | _ => none

/-! ### Items -/

/-- What ends with a semicolon or a brace. -/
inductive Item where
  | graph (name : String)
  | subgraph (name : String)
  | close
  | statement (s : Statement)
  /-- Anything that is none of these. -/
  | bad

/-- What stands in front of an opening brace. -/
def heading : List Token → Item
  | [.word kind, t] =>
    match t.text? with
    | some name =>
      if kind = "digraph" then .graph name else if kind = "subgraph" then .subgraph name else .bad
    | none => .bad
  | _ => .bad

/-- The items of tokens, `pending` being those read since the last item. -/
def itemsFrom (pending : List Token) : List Token → List Item
  | [] => if pending.isEmpty then [] else [.bad]
  | .semicolon :: ts =>
    match statement? pending with
    | some s => .statement s :: itemsFrom [] ts
    | none => .bad :: itemsFrom [] ts
  | .openBrace :: ts => heading pending :: itemsFrom [] ts
  | .closeBrace :: ts => if pending.isEmpty then .close :: itemsFrom [] ts else [.bad]
  | t :: ts => itemsFrom (pending ++ [t]) ts

/-- The statements of items, up to the end of the graph. `outer` has the subgraphs that are open,
each with what has been read before it, and `done` what has been read of the innermost one. -/
def assemble (outer : List (String × List Statement)) (done : List Statement) :
    List Item → Option (List Statement)
  | .statement s :: is => assemble outer (done ++ [s]) is
  | .subgraph name :: is => assemble ((name, done) :: outer) [] is
  | .close :: is =>
    match outer with
    | (name, before) :: outer => assemble outer (before ++ [.cluster name done]) is
    | [] => if is.isEmpty then some done else none
  | _ => none

/-- The name of a directed graph and its statements. -/
def read (text : String) : Option (String × List Statement) :=
  match itemsFrom [] (tokensFrom .between text.toList) with
  | .graph name :: is => (assemble [] [] is).map (name, ·)
  | _ => none

/-! ### The tokens of a part of a text -/

/-- A part of a text takes the reader from one mode to another, and gives some tokens. -/
def Takes (m : Mode) (text : List Char) (ts : List Token) (m' : Mode) : Prop :=
  ∀ rest, tokensFrom m (text ++ rest) = ts ++ tokensFrom m' rest

variable {m m' m'' : Mode} {text text' : List Char} {ts ts' : List Token}

theorem Takes.nil (m : Mode) : Takes m [] [] m :=
  fun _ => rfl

/-- What is read of two texts, one after the other. -/
theorem Takes.append (h : Takes m text ts m') (h' : Takes m' text' ts' m'') :
    Takes m (text ++ text') (ts ++ ts') m'' := by
  intro rest
  rw [List.append_assoc, h, h', List.append_assoc]

/-- A character without a token, and what follows it. -/
theorem Takes.cons {c : Char} (hc : next m c = (m', [])) (h : Takes m' text ts m'') :
    Takes m (c :: text) ts m'' := by
  intro rest
  rw [List.cons_append, tokensFrom, hc, h, List.nil_append]

/-- A text as it stands in a quotation. -/
def escape (t : List Char) : List Char :=
  t.flatMap fun c => if c = '\\' ∨ c = '"' then ['\\', c] else [c]

/-- A text whose characters stand for themselves in a quotation. -/
def Plain (t : List Char) : Prop :=
  ∀ c ∈ t, c ≠ '\\' ∧ c ≠ '"'

instance (t : List Char) : Decidable (Plain t) :=
  inferInstanceAs (Decidable (∀ c ∈ t, _))

/-- A text of two plain ones is plain. -/
theorem Plain.append {t u : List Char} (ht : Plain t) (hu : Plain u) : Plain (t ++ u) := by
  intro c hc
  rcases List.mem_append.mp hc with hc | hc
  · exact ht c hc
  · exact hu c hc

/-- Nothing has to be escaped in a plain text. -/
theorem Plain.escape_eq {t : List Char} (h : Plain t) : escape t = t := by
  induction t with
  | nil => rfl
  | cons c t ih =>
    obtain ⟨hc, ht⟩ := List.forall_mem_cons.mp h
    rw [escape, List.flatMap_cons, if_neg (not_or.mpr hc), ← escape, ih ht,
      List.singleton_append]

/-- Within quotes an escaped text is read as the text itself. -/
theorem takes_escape (t u : List Char) : Takes (.quote t) (escape u) [] (.quote (t ++ u)) := by
  induction u generalizing t with
  | nil =>
    rw [List.append_nil]
    exact Takes.nil _
  | cons c u ih =>
    -- an escaped character is two, of which the first is no part of the text
    have hc : Takes (.quote t) (if c = '\\' ∨ c = '"' then ['\\', c] else [c]) []
        (.quote (t ++ [c])) := by
      intro rest
      by_cases hspecial : c = '\\' ∨ c = '"'
      · rcases hspecial with rfl | rfl <;> rfl
      · obtain ⟨hslash, hquote⟩ := not_or.mp hspecial
        simp [hslash, hquote, tokensFrom, next]
    have h := hc.append (ih (t ++ [c]))
    rw [List.append_assoc, List.singleton_append] at h
    rwa [escape, List.flatMap_cons]

/-- A quotation is one token. -/
theorem takes_quoted (t : List Char) :
    Takes .between ('"' :: (escape t ++ ['"'])) [.quoted (String.ofList t)] .between := by
  have hend : Takes (.quote t) ['"'] [.quoted (String.ofList t)] .between := fun _ => rfl
  exact Takes.cons rfl ((takes_escape [] t).append hend)

/-- A word goes on as long as there are characters of words. -/
theorem takes_wordChars {u : List Char} (hu : ∀ c ∈ u, isWordChar c) (w : List Char) :
    Takes (.word w) u [] (.word (w ++ u)) := by
  induction u generalizing w with
  | nil =>
    rw [List.append_nil]
    exact Takes.nil _
  | cons c u ih =>
    obtain ⟨hc, hu⟩ := List.forall_mem_cons.mp hu
    have h := ih hu (w ++ [c])
    rw [List.append_assoc, List.singleton_append] at h
    exact Takes.cons (if_pos hc) h

/-- A character of words begins a word: it is no mark, no blank and no quote. -/
theorem enter_wordChar {c : Char} (hc : isWordChar c) : enter c = (.word [c], []) := by
  have hne : ∀ d : Char, isWordChar d = false → c ≠ d := by
    rintro d hd rfl
    rw [hc] at hd
    exact Bool.noConfusion hd
  -- none of the marks is a character of words
  have hmark : Token.ofMark? c = none := by
    unfold Token.ofMark?
    simp only [hne _ (rfl : isWordChar '\x7b' = false), hne _ (rfl : isWordChar '\x7d' = false),
      hne _ (rfl : isWordChar '[' = false), hne _ (rfl : isWordChar ']' = false),
      hne _ (rfl : isWordChar ';' = false), hne _ (rfl : isWordChar ',' = false),
      hne _ (rfl : isWordChar '=' = false), if_false]
  have hspace : ¬ (c = ' ' ∨ c = '\n') := not_or.mpr ⟨hne _ rfl, hne _ rfl⟩
  rw [enter, hmark]
  dsimp only
  rw [if_neg hspace, if_neg (hne _ rfl), if_neg (hne _ rfl), if_pos hc]

/-- A word that can stand without quotation marks: of letters, digits, `_` and points, after a minus
sign or without one. -/
def IsWord (t : List Char) : Prop :=
  ∃ u, u ≠ [] ∧ (∀ c ∈ u, isWordChar c) ∧ (t = u ∨ t = '-' :: u)

/-- A word is read to its end, which the next character decides. -/
theorem IsWord.takes {t : List Char} (h : IsWord t) : Takes .between t [] (.word t) := by
  obtain ⟨u, hne, hu, ht⟩ := h
  obtain ⟨c, u, rfl⟩ := List.exists_cons_of_ne_nil hne
  obtain ⟨hc, hu⟩ := List.forall_mem_cons.mp hu
  rcases ht with rfl | rfl
  · exact Takes.cons (enter_wordChar hc) (takes_wordChars hu [c])
  · -- a dash begins a word unless it begins an arrow
    have hdash : next .dash c = (.word ['-', c], []) := by
      have hne : c ≠ '>' := by
        rintro rfl
        exact Bool.noConfusion hc
      rw [next, if_neg hne, if_pos hc]
    exact Takes.cons rfl (Takes.cons hdash (takes_wordChars hu ['-', c]))

/-- A word has no character that would have to be escaped. -/
theorem IsWord.plain {t : List Char} (h : IsWord t) : Plain t := by
  obtain ⟨u, -, hu, ht⟩ := h
  have hplain : Plain u := by
    intro c hc
    have hword := hu c hc
    constructor
    · rintro rfl
      exact Bool.noConfusion hword
    · rintro rfl
      exact Bool.noConfusion hword
  rcases ht with rfl | rfl
  · exact hplain
  · exact Plain.append (t := ['-']) (by decide) hplain

/-! ### The items of tokens -/

/-- Whether an item ends with a token. -/
def Token.ends : Token → Bool
  | .openBrace | .closeBrace | .semicolon => true
  | _ => false

/-- Tokens are kept as long as no item ends. -/
theorem itemsFrom_append (hts : ts.all (!·.ends)) (pending rest : List Token) :
    itemsFrom pending (ts ++ rest) = itemsFrom (pending ++ ts) rest := by
  induction ts generalizing pending with
  | nil => rw [List.append_nil, List.nil_append]
  | cons t ts ih =>
    rw [List.all_cons, Bool.and_eq_true] at hts
    obtain ⟨ht, hts⟩ := hts
    have h := ih hts (pending ++ [t])
    rw [List.append_assoc, List.singleton_append] at h
    rw [← h, List.cons_append]
    -- a token that ends something does not stand among these
    cases t with
    | openBrace => exact Bool.noConfusion ht
    | closeBrace => exact Bool.noConfusion ht
    | semicolon => exact Bool.noConfusion ht
    | _ => rfl

/-- Tokens up to a semicolon are a statement. -/
theorem itemsFrom_statement {s : Statement} (hts : ts.all (!·.ends)) (hs : statement? ts = some s)
    (rest : List Token) :
    itemsFrom [] (ts ++ .semicolon :: rest) = .statement s :: itemsFrom [] rest := by
  rw [itemsFrom_append hts, List.nil_append, itemsFrom, hs]

/-- Tokens up to an opening brace are a heading. -/
theorem itemsFrom_heading (hts : ts.all (!·.ends)) (rest : List Token) :
    itemsFrom [] (ts ++ .openBrace :: rest) = heading ts :: itemsFrom [] rest := by
  rw [itemsFrom_append hts, List.nil_append, itemsFrom]

/-! ### The meaning of a part of a text -/

/-- A text between statements gives some items, whatever follows, and the items some statements. -/
def Says (text : List Char) (ss : List Statement) : Prop :=
  ∃ is, (∀ rest, itemsFrom [] (tokensFrom .between (text ++ rest)) =
      is ++ itemsFrom [] (tokensFrom .between rest)) ∧
    ∀ outer done rest, assemble outer done (is ++ rest) = assemble outer (done ++ ss) rest

variable {ss ss' : List Statement} {name : String}

/-- The empty text says nothing. -/
theorem Says.nil : Says [] [] := by
  refine ⟨[], fun _ => rfl, fun outer done rest => ?_⟩
  rw [List.append_nil, List.nil_append]

/-- Texts one after the other say their statements one after the other, whatever surrounds them. -/
theorem Says.append (h : Says text ss) (h' : Says text' ss') :
    Says (text ++ text') (ss ++ ss') := by
  obtain ⟨is, his, hss⟩ := h
  obtain ⟨is', his', hss'⟩ := h'
  refine ⟨is ++ is', fun rest => ?_, fun outer done rest => ?_⟩
  · rw [List.append_assoc, his, his', List.append_assoc]
  · rw [List.append_assoc, hss, hss', List.append_assoc]

/-- A text made piece by piece says what the pieces say. -/
theorem Says.flatMap {α : Type} {as : List α} {text : α → List Char} {ss : α → List Statement}
    (h : ∀ a ∈ as, Says (text a) (ss a)) : Says (as.flatMap text) (as.flatMap ss) := by
  induction as with
  | nil => exact Says.nil
  | cons a as ih =>
    obtain ⟨ha, has⟩ := List.forall_mem_cons.mp h
    exact ha.append (ih has)

/-- One statement, up to its semicolon. -/
theorem says_statement {s : Statement} (ts : List Token)
    (htext : Takes .between text (ts ++ [.semicolon]) .between)
    (hts : ts.all (!·.ends)) (hs : statement? ts = some s) : Says text [s] := by
  refine ⟨[.statement s], fun rest => ?_, fun _ _ _ => rfl⟩
  rw [htext, List.append_assoc, List.singleton_append, itemsFrom_statement hts hs]
  rfl

/-- A subgraph, with what its body says. -/
theorem Says.cluster (ts : List Token)
    (htext : Takes .between text (ts ++ [.openBrace]) .between) (hts : ts.all (!·.ends))
    (hname : heading ts = .subgraph name) {body : List Char} (hbody : Says body ss)
    (hclose : Takes .between text' [.closeBrace] .between) :
    Says (text ++ body ++ text') [.cluster name ss] := by
  obtain ⟨is, his, hss⟩ := hbody
  refine ⟨.subgraph name :: is ++ [.close], fun rest => ?_, fun outer done rest => ?_⟩
  · rw [List.append_assoc, List.append_assoc, htext, List.append_assoc, List.singleton_append,
      itemsFrom_heading hts, hname, his, hclose]
    simp [itemsFrom]
  · -- the body is read from nothing on, and what was read before is kept
    rw [List.append_assoc, List.cons_append, assemble, hss]
    rfl

/-- The statements of a graph are what the text between its braces says. -/
theorem read_eq {whole : String} (ts : List Token)
    (htext : Takes .between text (ts ++ [.openBrace]) .between)
    (hts : ts.all (!·.ends)) (hname : heading ts = .graph name) {body : List Char}
    (hbody : Says body ss) (hclose : Takes .between text' [.closeBrace] .between)
    (hwhole : whole.toList = text ++ body ++ text') : read whole = some (name, ss) := by
  obtain ⟨is, his, hss⟩ := hbody
  have hend := hclose []
  rw [List.append_nil] at hend
  -- the heading, then the items of the body, then the brace that closes the graph
  have hitems : itemsFrom [] (tokensFrom .between whole.toList) =
      .graph name :: (is ++ [.close]) := by
    rw [hwhole, List.append_assoc, htext, List.append_assoc, List.singleton_append,
      itemsFrom_heading hts, hname, his, hend]
    rfl
  rw [read, hitems]
  dsimp only
  rw [hss]
  rfl

end Dot

end ImportAtlas
