import ImportAtlas.Proofs.Source.Layout
import ImportAtlas.Source.Rust
import ImportAtlas.Text.Word

/-!
# The leaves of a use tree

A use tree, however its text is laid out, is expanded into one record for each of its leaves, from
left to right (`Rust.UseTree.records_expand`).

* `Rust.Identifier`, `Rust.UseTree`, `Rust.Lead` — names, trees, and what may stand before the
  outermost tree;
* `Rust.UseTree.Written`, `Rust.WrittenUse` — the texts of a tree: blanks may stand around double
  colons, braces and commas, and a group may end with a comma;
* `Rust.UseTree.records` — what the leaves of a tree say;
* `Rust.WrittenPath.pathSegments_append` — a path is cut into its names;
* `Rust.splitTopLevel_comma` — a group is cut at its own commas only, since in a tree every comma
  is between braces;
* `Rust.UseTree.Written.expandFrom` — the induction on the tree.
-/

namespace ImportAtlas.Source.Rust

open Text (Blanks Solid)

/-! ### Trees -/

/-- A name: a letter or `_`, then letters, digits and `_`. It is none of the words that mean
something else between double colons. -/
structure Identifier where
  text : String
  spelled : IsIdentifier text.toList
  notReserved : text ∉ ["*", "as", "crate", "self", "super"]

/-- A use tree: a path of names, and what it leads to. -/
inductive UseTree where
  | item (path : List Identifier) (name : Identifier) (rename : Option Identifier)
  | glob (path : List Identifier)
  | group (path : List Identifier) (members : List UseTree)
  /-- The group member `self`. -/
  | itself (rename : Option Identifier)

/-- What the path of the outermost tree may begin with. -/
inductive Lead where
  | none
  | crate
  | self
  /-- `super`, once more than `further`. -/
  | super (further : Nat)

namespace Lead

/-- The words of a beginning. -/
def words : Lead → List String
  | none => []
  | crate => ["crate"]
  | self => ["self"]
  | super further => List.replicate (further + 1) "super"

/-- The depth of the records of a tree that begins so. -/
def depth : Lead → Nat
  | none => 0
  | crate => 0
  | self => 1
  | super further => further + 2

/-- The part that stays in the paths of the records. -/
def kept : Lead → List String
  | crate => ["crate"]
  | _ => []

end Lead

namespace UseTree

/-- Whether every `self` of a tree stands in a group below some path; `above` says whether the whole
tree does. -/
def Proper (above : Bool) : UseTree → Prop
  | item _ _ _ => True
  | glob _ => True
  | group path members => ProperMembers (above || !path.isEmpty) members
  | itself _ => above
where
  ProperMembers (above : Bool) : List UseTree → Prop
    | [] => True
    | m :: ms => Proper above m ∧ ProperMembers above ms

/-- The records of the leaves of a tree below a path, from left to right. -/
def records (depth : Nat) (above : List String) : UseTree → List ImportRecord
  | item path name rename =>
    [{ path := above ++ path.map (·.text) ++ [name.text], depth,
       names := [{ name := name.text, rename := rename.map (·.text) }] }]
  | glob path => [{ path := above ++ path.map (·.text), depth, wildcard := true }]
  | group path members => recordsOfMembers depth (above ++ path.map (·.text)) members
  | itself rename => [{ path := above, depth, rename := rename.map (·.text) }]
where
  recordsOfMembers (depth : Nat) (above : List String) : List UseTree → List ImportRecord
    | [] => []
    | m :: ms => records depth above m ++ recordsOfMembers depth above ms

end UseTree

/-! ### Texts of trees -/

/-- `WrittenPath names t`: in `t` each of the names stands before a double colon. -/
inductive WrittenPath : List String → List Char → Prop where
  | nil : WrittenPath [] []
  | cons {name : String} {names : List String} {b b' t : List Char} (hb : Blanks b)
    (hb' : Blanks b') (ht : WrittenPath names t) :
    WrittenPath (name :: names) (name.toList ++ b ++ [':', ':'] ++ b' ++ t)

/-- A new name, if there is one, stands behind `as` between single blanks. -/
def renameText : Option Identifier → List Char
  | none => []
  | some a => " as ".toList ++ a.text.toList

namespace UseTree

/-- The texts of a tree. -/
def Written : UseTree → List Char → Prop
  -- a name behind a path, perhaps renamed
  | item path name rename, t => ∃ p, WrittenPath (path.map (·.text)) p ∧
      t = p ++ (name.text.toList ++ renameText rename)
  -- everything of a path
  | glob path, t => ∃ p, WrittenPath (path.map (·.text)) p ∧ t = p ++ ['*']
  -- a group, behind a path or alone
  | group path members, t => ∃ p m, WrittenPath (path.map (·.text)) p ∧
      WrittenMembers members m ∧ t = p ++ '\x7b' :: m ++ ['\x7d']
  -- the path that the group stands behind
  | itself rename, t => t = "self".toList ++ renameText rename
where
  /-- The texts between the braces of a group. -/
  WrittenMembers : List UseTree → List Char → Prop
    | [], t => Blanks t
    | member :: members, t => ∃ b s b', Blanks b ∧ Written member s ∧ Blanks b' ∧
        ((members = [] ∧ t = b ++ s ++ b') ∨
          ∃ r, WrittenMembers members r ∧ t = b ++ s ++ b' ++ ',' :: r)

end UseTree

/-- The texts of a tree with a lead, perhaps between blanks. -/
def WrittenUse (lead : Lead) (tree : UseTree) (t : List Char) : Prop :=
  ∃ b l s b', Blanks b ∧ WrittenPath lead.words l ∧ tree.Written s ∧ Blanks b' ∧
    t = b ++ (l ++ s) ++ b'

/-! ### Words -/

/-- A blank is none of the signs of the grammar. -/
theorem Blanks.not_mem {b : List Char} (hb : Blanks b) :
    ∀ c ∈ b, c ∉ [':', ',', '\x7b', '\x7d'] := by
  intro c hc hmem
  have hblank := hb c hc
  simp only [List.mem_cons, List.not_mem_nil, or_false] at hmem
  rcases hmem with rfl | rfl | rfl | rfl <;> exact absurd hblank (by decide)

/-- A character of a name: no blank, and nothing that ends a name. -/
def IsNameChar (c : Char) : Prop :=
  Text.isBlank c = false ∧ c ∉ [':', ',', '\x7b', '\x7d']

/-- A character of a word is a character of a name. -/
theorem isNameChar_of_isWordChar {c : Char} (h : isWordChar c) : IsNameChar c := by
  refine ⟨not_isBlank_of_isWordChar h, fun hc => ?_⟩
  simp only [List.mem_cons, List.not_mem_nil, or_false] at hc
  rcases hc with rfl | rfl | rfl | rfl <;> exact absurd h (by decide)

/-- Of a segment, the extractor asks that it is `*` or a name. -/
theorem isPathSegment_iff {t : List Char} : isPathSegment t ↔ t = ['*'] ∨ IsIdentifier t := by
  unfold isPathSegment
  rw [Bool.or_eq_true, beq_iff_eq]
  refine or_congr_right ?_
  cases t with
  | nil => exact iff_of_false Bool.noConfusion fun h => h.ne_nil rfl
  | cons c r =>
    rw [isIdentifier_cons, Bool.and_eq_true, List.all_eq_true]
    exact and_congr_right' (forall₂_congr fun d _ => by rw [isWordChar_eq])

/-- What may stand between double colons or at the end of a path, `self` and `*` included. -/
structure IsWord (w : List Char) : Prop where
  isPathSegment : isPathSegment w
  ne_as : w ≠ "as".toList

namespace IsWord

variable {w : List Char}

/-- A word is not empty. -/
theorem ne_nil (h : IsWord w) : w ≠ [] := by
  rintro rfl
  exact absurd h.isPathSegment (by decide)

/-- Its characters are neither blanks nor signs of the grammar. The star is a word here. -/
theorem chars (h : IsWord w) : ∀ c ∈ w, IsNameChar c := by
  rcases isPathSegment_iff.mp h.isPathSegment with rfl | hname
  · exact List.forall_mem_singleton.mpr ⟨by decide, by decide⟩
  · exact fun c hc => isNameChar_of_isWordChar (hname.allowed c hc)

theorem solid (h : IsWord w) : Solid w :=
  .of_forall h.ne_nil fun c hc => (h.chars c hc).1

/-- No character of a word is a colon, so a path is cut only where its colons stand. -/
theorem ne_colon (h : IsWord w) : ∀ c ∈ w, c ≠ ':' := by
  rintro c hc rfl
  exact (h.chars _ hc).2 (by simp)

end IsWord

theorem isWord_star : IsWord ['*'] :=
  ⟨by decide, by decide⟩

theorem isWord_self : IsWord "self".toList :=
  ⟨by decide, by decide⟩

namespace Identifier

variable (i : Identifier)

/-- An identifier is none of the words with a meaning of their own. -/
theorem toList_ne {s : String} (hs : s ∈ ["*", "as", "crate", "self", "super"]) :
    i.text.toList ≠ s.toList :=
  fun heq => i.notReserved (String.toList_inj.mp heq ▸ hs)

theorem ne_star : i.text.toList ≠ ['*'] :=
  i.toList_ne (s := "*") (by simp)

theorem ne_self : i.text.toList ≠ "self".toList :=
  i.toList_ne (by simp)

theorem isWord : IsWord i.text.toList :=
  ⟨isPathSegment_iff.mpr (.inr i.spelled), i.toList_ne (by simp)⟩

end Identifier

/-- The names of a path are words. -/
theorem isWord_of_mem_path (path : List Identifier) :
    ∀ n ∈ path.map (·.text), IsWord n.toList := by
  intro n hn
  obtain ⟨i, -, rfl⟩ := List.mem_map.mp hn
  exact i.isWord

/-- What a path may begin with are words. -/
theorem Lead.isWord (lead : Lead) : ∀ w ∈ lead.words, IsWord w.toList := by
  have hword : ∀ w ∈ ["crate", "self", "super"], IsWord w.toList := by
    intro w hw
    simp only [List.mem_cons, List.not_mem_nil, or_false] at hw
    rcases hw with rfl | rfl | rfl <;> exact ⟨by decide, by decide⟩
  intro w hw
  refine hword w ?_
  cases lead with
  | none => simp [words] at hw
  | crate => simp_all [words]
  | self => simp_all [words]
  | super further => simp [List.eq_of_mem_replicate hw]

/-! ### Cutting a path -/

/-- What stands between names. -/
def isGap (c : Char) : Bool :=
  Text.isBlank c || c == ':'

/-- A word has no gap in it, so a path cut at its gaps gives words. -/
theorem IsWord.not_isGap {w : List Char} (h : IsWord w) : ∀ c ∈ w, ¬ isGap c := by
  intro c hc
  have hchar := h.chars c hc
  rw [isGap, hchar.1, Bool.false_or, beq_iff_eq]
  rintro rfl
  exact hchar.2 (by simp)

section Path

variable {names : List String} {p last : List Char}

/-- Two written paths, one behind the other, are a written path. -/
theorem WrittenPath.append {names' : List String} {p' : List Char} (h : WrittenPath names p)
    (h' : WrittenPath names' p') : WrittenPath (names ++ names') (p ++ p') := by
  induction h with
  | nil => exact h'
  | @cons name names b b' t hb hb' _ ih => simpa using @WrittenPath.cons name _ b b' _ hb hb' ih

/-- Neither a comma nor a brace stands in a written path. -/
theorem WrittenPath.not_mem (h : WrittenPath names p) (hnames : ∀ n ∈ names, IsWord n.toList) :
    ∀ c ∈ p, c ∉ [',', '\x7b', '\x7d'] := by
  induction h with
  | nil => simp
  | @cons name names b b' t hb hb' _ ih =>
    obtain ⟨hname, hnames⟩ := List.forall_mem_cons.mp hnames
    intro c hc
    simp only [List.mem_append] at hc
    -- a name, blanks, two colons, blanks, and the rest of the path
    rcases hc with (((hc | hc) | hc) | hc) | hc
    · exact fun hmem => (hname.chars c hc).2 (.tail _ hmem)
    · exact fun hmem => Blanks.not_mem hb c hc (.tail _ hmem)
    · rcases List.mem_pair.mp hc with rfl | rfl <;> decide
    · exact fun hmem => Blanks.not_mem hb' c hc (.tail _ hmem)
    · exact ih hnames c hc

/-- The pieces of a path are its names. -/
theorem WrittenPath.mem_cutAt (h : WrittenPath names p) (hnames : ∀ n ∈ names, IsWord n.toList)
    {w r : List Char} (hw : w ∈ Text.cutAt isGap (p ++ r)) :
    w = [] ∨ (∃ n ∈ names, w = n.toList) ∨ w ∈ Text.cutAt isGap r := by
  induction h with
  | nil => exact .inr (.inr hw)
  | @cons name names b b' t hb hb' _ ih =>
    obtain ⟨hname, hnames⟩ := List.forall_mem_cons.mp hnames
    -- behind the name there are separators only, up to the next name
    have hgap : ∀ c ∈ b ++ [':', ':'] ++ b', isGap c := by
      intro c hc
      simp only [List.mem_append, List.mem_cons, List.not_mem_nil, or_false, or_self] at hc
      rcases hc with (hc | rfl) | hc
      · rw [isGap, hb c hc, Bool.true_or]
      · decide
      · rw [isGap, hb' c hc, Bool.true_or]
    obtain ⟨c, z, hz⟩ := List.exists_cons_of_ne_nil (l := b ++ [':', ':'] ++ b') (by simp)
    have htext :
        name.toList ++ b ++ [':', ':'] ++ b' ++ t ++ r = name.toList ++ c :: (z ++ (t ++ r)) := by
      rw [← List.cons_append, ← hz]
      simp
    rw [hz] at hgap
    obtain ⟨hc, hzgap⟩ := List.forall_mem_cons.mp hgap
    rw [htext, Text.cutAt_append_cons hc, Text.cutAt_of_not_sep hname.not_isGap, List.mem_append,
      List.mem_singleton] at hw
    rcases hw with rfl | hw
    · exact .inr (.inl ⟨name, .head _, rfl⟩)
    · rcases Text.mem_cutAt_append hzgap hw with hw | hw
      · exact .inl hw
      · rcases ih hnames hw with hw | ⟨n, hn, hw⟩ | hw
        · exact .inl hw
        · exact .inr (.inl ⟨n, .tail _ hn, hw⟩)
        · exact .inr (.inr hw)

/-- No name of a path is renamed before its end. -/
theorem WrittenPath.not_infix_as (h : WrittenPath names p) (hnames : ∀ n ∈ names, IsWord n.toList)
    (hlast : IsWord last) : ¬ " as ".toList <:+: p ++ last ++ " as".toList := by
  intro hin
  have hblank : isGap ' ' := by decide
  have has : ∀ c ∈ "as".toList, ¬ isGap c := by simp [isGap, Text.isBlank]
  -- the word would stand between two gaps, and so be a piece of the path
  have hmem : "as".toList ∈ (Text.cutAt isGap (p ++ last ++ ' ' :: "as".toList)).dropLast :=
    Text.mem_cutAt_of_infix hblank hblank has hin
  rw [Text.cutAt_append_cons hblank, Text.cutAt_of_not_sep has, List.dropLast_concat] at hmem
  rcases h.mem_cutAt hnames hmem with hw | ⟨n, hn, hw⟩ | hw
  · exact absurd hw (by decide)
  · exact (hnames n hn).ne_as hw.symm
  · rw [Text.cutAt_of_not_sep hlast.not_isGap, List.mem_singleton] at hw
    exact hlast.ne_as hw.symm

/-- The first ` as ` of a written item is the one of its renaming. -/
theorem WrittenPath.splitFirst?_as (h : WrittenPath names p)
    (hnames : ∀ n ∈ names, IsWord n.toList) (hlast : IsWord last) (rename : Option Identifier) :
    Text.splitFirst? " as ".toList (p ++ (last ++ renameText rename)) =
      rename.map fun a => (p ++ last, a.text.toList) := by
  have hno := h.not_infix_as hnames hlast
  cases rename with
  | none =>
    rw [renameText, List.append_nil, Option.map_none, Text.splitFirst?_eq_none]
    exact fun hin => hno (hin.trans (List.prefix_append _ _).isInfix)
  | some a =>
    have htext : p ++ (last ++ renameText (some a)) =
        p ++ last ++ " as ".toList ++ a.text.toList := by simp [renameText]
    rw [htext, Text.splitFirst?_append (by decide) hno, Option.map_some]

/-- What begins with a path begins with a name, or there is no path. -/
theorem WrittenPath.solid (h : WrittenPath names p) (hnames : ∀ n ∈ names, IsWord n.toList)
    {u : List Char} (hu : Solid u) : Solid (p ++ u) := by
  cases h with
  | nil => exact hu
  | @cons name names b b' t _ _ _ =>
    have htext : name.toList ++ b ++ [':', ':'] ++ b' ++ t ++ u =
        name.toList ++ (b ++ [':', ':'] ++ b' ++ t) ++ u := by simp
    rw [htext]
    exact (hnames name (.head _)).solid.append _ hu

/-- A written path ends in its last name with two colons behind it. -/
theorem WrittenPath.of_concat {n : String} (h : WrittenPath (names ++ [n]) p) :
    ∃ p' b b', WrittenPath names p' ∧ Blanks b ∧ Blanks b' ∧
      p = p' ++ (n.toList ++ b) ++ [':', ':'] ++ b' := by
  induction names generalizing p with
  | nil =>
    -- the first name is written, then the others
    cases h with
    | cons hb hb' ht =>
      cases ht
      exact ⟨[], _, _, .nil, hb, hb', by simp⟩
  | cons m names ih =>
    cases h with
    | cons hb hb' ht =>
      obtain ⟨p', b, b', hp', hbn, hbn', rfl⟩ := ih ht
      exact ⟨_, b, b', .cons hb hb' hp', hbn, hbn', by simp⟩

end Path

/-! ### The names of a path -/

namespace pathSegments

variable {done t r : List Char}

/-- Two colons end a segment. -/
theorem go_colons (n : Nat) (done r : List Char) :
    go (n + 1) done (':' :: ':' :: r) = keep done ++ go n [] r := by
  rw [go]

/-- A character that does not begin two colons is one more of the segment. -/
theorem go_char (n : Nat) {c : Char} (h : ∀ r', c :: r ≠ ':' :: ':' :: r') (done : List Char) :
    go (n + 1) done (c :: r) = go n (c :: done) r := by
  rw [go]
  rintro r' rfl rfl
  exact h r' rfl

/-- More rounds than characters change nothing, so that the segments do not depend on the bound. -/
theorem go_of_le {n : Nat} (h : t.length ≤ n) : go n done t = go t.length done t := by
  induction n using Nat.strongRecOn generalizing t done with
  | ind n ih =>
    match n, t with
    | 0, [] => rfl
    | n + 1, [] => rfl
    | n + 1, c :: r =>
      simp only [List.length_cons] at h
      -- two colons take two characters at once, which is why the induction is a strong one
      by_cases hcolons : ∃ r', c :: r = ':' :: ':' :: r'
      · obtain ⟨r', hr'⟩ := hcolons
        obtain ⟨rfl, rfl⟩ := List.cons.inj hr'
        simp only [List.length_cons] at h ⊢
        rw [go_colons, go_colons, ih n (by omega) (by omega),
          ih (r'.length + 1) (by omega) (by omega)]
      · have hchar := not_exists.mp hcolons
        rw [List.length_cons, go_char n hchar, go_char r.length hchar, ih n (by omega) (by omega)]

/-- Up to the next colon, everything belongs to the segment. -/
theorem go_append {s : List Char} (hs : ∀ c ∈ s, c ≠ ':') (done r : List Char) :
    go (s ++ r).length done (s ++ r) = go r.length (s.reverse ++ done) r := by
  induction s generalizing done with
  | nil => rfl
  | cons c s ih =>
    obtain ⟨hc, hs⟩ := List.forall_mem_cons.mp hs
    rw [List.cons_append, List.length_cons, go_char _ (fun r' h => hc (List.cons.inj h).1), ih hs,
      List.reverse_cons, List.append_assoc, List.singleton_append]

/-- A segment is kept without the blanks around it. -/
theorem keep_of_solid {b b' s : List Char} (hb : Blanks b) (hs : Solid s) (hb' : Blanks b') :
    keep (b ++ s ++ b').reverse = [s] := by
  rw [keep, List.reverse_reverse, Text.trim_pad hb hs hb', if_neg hs.ne_nil]

end pathSegments

/-- No blank is a colon. -/
theorem Blanks.ne_colon {b : List Char} (hb : Blanks b) : ∀ c ∈ b, c ≠ ':' := by
  rintro c hc rfl
  exact Blanks.not_mem hb _ hc (.head _)

section Segments

open pathSegments

variable {names : List String} {p : List Char}

/-- From the beginning of a written path the segments are its names. Blanks that are held already,
and those that are held in the end, do not matter, since each segment is trimmed. -/
theorem WrittenPath.go_segments (h : WrittenPath names p)
    (hnames : ∀ n ∈ names, IsWord n.toList) {b : List Char} (hb : Blanks b) (r : List Char) :
    ∃ b', Blanks b' ∧ go (p ++ r).length b.reverse (p ++ r) =
      names.map (·.toList) ++ go r.length b'.reverse r := by
  induction h generalizing b with
  | nil => exact ⟨b, hb, rfl⟩
  | @cons name names b₁ b₂ t hb₁ hb₂ _ ih =>
    obtain ⟨hname, hnames⟩ := List.forall_mem_cons.mp hnames
    obtain ⟨b', hb', hgo⟩ := ih hnames hb₂
    refine ⟨b', hb', ?_⟩
    have htext : name.toList ++ b₁ ++ [':', ':'] ++ b₂ ++ t ++ r =
        name.toList ++ b₁ ++ ':' :: ':' :: (b₂ ++ (t ++ r)) := by simp
    have hcolons : ∀ k done, go (k + 2) done (':' :: ':' :: (b₂ ++ (t ++ r))) =
        keep done ++ go (k + 1) [] (b₂ ++ (t ++ r)) := fun k done => go_colons (k + 1) done _
    -- no colon stands in the name or in the blanks behind it
    have hname₁ : ∀ c ∈ name.toList ++ b₁, c ≠ ':' := fun c hc =>
      (List.mem_append.mp hc).elim (hname.ne_colon c) (Blanks.ne_colon hb₁ c)
    have hkeep : keep ((name.toList ++ b₁).reverse ++ b.reverse) = [name.toList] := by
      rw [← List.reverse_append, ← List.append_assoc, keep_of_solid hb hname.solid hb₁]
    -- up to the colons, the segment, then the blanks behind the colons
    rw [htext, go_append hname₁, List.length_cons, List.length_cons, hcolons, hkeep,
      go_of_le (Nat.le_succ _), go_append (Blanks.ne_colon hb₂), List.append_nil, hgo]
    rfl

/-- A path is cut into its names. -/
theorem WrittenPath.pathSegments_append (h : WrittenPath names p)
    (hnames : ∀ n ∈ names, IsWord n.toList) {last : List Char} (hlast : IsWord last)
    {b : List Char} (hb : Blanks b) :
    pathSegments (p ++ (last ++ b)) = names.map (·.toList) ++ [last] := by
  obtain ⟨b', hb', hgo⟩ := h.go_segments hnames .nil (last ++ b)
  have hcolon : ∀ c ∈ last ++ b, c ≠ ':' := fun c hc =>
    (List.mem_append.mp hc).elim (hlast.ne_colon c) (Blanks.ne_colon hb c)
  have hend := go_append hcolon b'.reverse []
  rw [List.append_nil] at hend
  rw [pathSegments, ← List.reverse_nil, hgo, hend, go, ← List.reverse_append, ← List.append_assoc,
    keep_of_solid hb' hlast.solid hb]

/-- Two colons at the end are dropped once, when no colon stands before them. -/
theorem dropColons_append {x y : List Char} {c : Char} (hx : x = y ++ [c]) (hc : c ≠ ':') :
    dropColons (x ++ [':', ':']) = x := by
  have hreverse : (x ++ [':', ':']).reverse = ':' :: ':' :: (c :: y.reverse) := by simp [hx]
  rw [dropColons, hreverse, List.length_append, List.length_cons, List.length_singleton,
    dropColons.go, dropColons.go, List.reverse_cons, List.reverse_reverse, hx]
  intro _ _ _ h
  exact hc (List.cons.inj h).1

/-- The path before a group, without the colons at its end, has its names as segments. -/
theorem WrittenPath.pathSegments_dropColons (h : WrittenPath names p)
    (hnames : ∀ n ∈ names, IsWord n.toList) :
    pathSegments (dropColons (Text.trim p)) = names.map (·.toList) := by
  rcases List.eq_nil_or_concat' names with rfl | ⟨ns, n, rfl⟩
  · cases h
    rfl
  · -- trimming takes the blanks behind the last colons, and then the colons go
    obtain ⟨p', b, b', hp', hb, hb', rfl⟩ := h.of_concat
    obtain ⟨hns, hn⟩ := List.forall_mem_append.mp hnames
    have hn : IsWord n.toList := hn n (by simp)
    have hsolid : Solid (p' ++ (n.toList ++ b) ++ [':', ':']) := by
      rw [List.append_assoc]
      refine hp'.solid hns (hn.solid.append _ ?_)
      exact .of_forall (by simp) (by simp [Text.isBlank])
    obtain ⟨y, c, hy⟩ : ∃ y c, n.toList ++ b = y ++ [c] :=
      (List.eq_nil_or_concat' _).resolve_left (by simp [hn.ne_nil])
    have hc : c ≠ ':' := by
      have hmem : c ∈ n.toList ++ b := by simp [hy]
      exact (List.mem_append.mp hmem).elim (hn.ne_colon c) (Blanks.ne_colon hb c)
    have hdrop : dropColons (p' ++ (n.toList ++ b) ++ [':', ':']) = p' ++ (n.toList ++ b) :=
      dropColons_append (y := p' ++ y) (by rw [hy, List.append_assoc]) hc
    have htrim := Text.trim_pad .nil hsolid hb'
    rw [List.nil_append] at htrim
    rw [htrim, hdrop, hp'.pathSegments_append hns hn hb]
    simp

end Segments

/-! ### Leaves -/

section Leaves

variable {names above : List String} {p last : List Char} {line : Nat}

/-- The leaf that a path without a group names. -/
theorem WrittenPath.leaf_eq (h : WrittenPath names p) (hnames : ∀ n ∈ names, IsWord n.toList)
    (hlast : IsWord last) (habove : ∀ n ∈ above, IsWord n.toList) (rename : Option Identifier) :
    leaf line (above.map (·.toList)) (p ++ (last ++ renameText rename)) =
      .ok (if last = ['*'] then [.glob (above ++ names)]
        else if last = "self".toList ∧ above ++ names ≠ [] then
          [.module (above ++ names) (rename.map (·.text))]
        else [.item (above ++ names ++ [String.ofList last]) (rename.map (·.text))]) := by
  have hsegments := h.pathSegments_append hnames hlast .nil
  rw [List.append_nil] at hsegments
  have htrim : Text.trim (p ++ last) = p ++ last := (h.solid hnames hlast.solid).trim_eq
  have hfull : above.map (·.toList) ++ pathSegments (p ++ last) =
      (above ++ names).map (·.toList) ++ [last] := by
    rw [hsegments, ← List.append_assoc, ← List.map_append]
  have hvalid : ((above ++ names).map (·.toList) ++ [last]).any (!isPathSegment ·) = false := by
    rw [List.any_eq_false]
    intro w hw
    have hword : IsWord w := by
      rcases List.mem_append.mp hw with hw | hw
      · obtain ⟨n, hn, rfl⟩ := List.mem_map.mp hw
        exact (List.mem_append.mp hn).elim (habove n) (hnames n)
      · rwa [List.mem_singleton.mp hw]
    simp [hword.isPathSegment]
  have hinit : ((above ++ names).map (·.toList)).map String.ofList = above ++ names := by
    simp [Function.comp_def]
  have hlength : ((above ++ names).map (·.toList) ++ [last]).length > 1 ↔ above ++ names ≠ [] := by
    rw [List.length_append, List.length_map, List.length_singleton, ← List.length_pos_iff_ne_nil]
    omega
  have hitem : ((above ++ names).map (·.toList) ++ [last]).map String.ofList =
      above ++ names ++ [String.ofList last] := by
    rw [List.map_append, hinit, List.map_singleton]
  -- the path is the same with a new name behind it and without
  rw [Rust.leaf, h.splitFirst?_as hnames hlast]
  cases rename with
  | none =>
    simp only [Option.map_none, renameText, List.append_nil, hfull, hvalid, Bool.false_eq_true,
      if_false, List.dropLast_concat, hinit, hitem, List.getLast?_concat, hlength]
    split_ifs <;> rfl
  | some a =>
    simp only [Option.map_some, htrim, a.isWord.solid.trim_eq, String.ofList_toList, hfull, hvalid,
      Bool.false_eq_true, if_false, List.dropLast_concat, hinit, hitem, List.getLast?_concat,
      hlength]
    split_ifs <;> rfl

end Leaves

/-! ### The members of a group -/

/-- The text before the first of some parts. -/
def glue (t : List Char) : List (List Char) → List (List Char)
  | [] => [t]
  | p :: ps => (t ++ p) :: ps

/-- A text in which a group is cut nowhere, when `depth` groups are open at its beginning. -/
def Uncut (depth : Nat) (t : List Char) : Prop :=
  ∀ r, splitTopLevel depth (t ++ r) = glue t (splitTopLevel depth r)

/-- Glueing two texts before the parts is glueing one after the other. -/
theorem glue_append (t u : List Char) (ps : List (List Char)) :
    glue (t ++ u) ps = glue t (glue u ps) := by
  cases ps <;> simp [glue]

/-- The groups that are open behind a character. -/
def depthBehind (depth : Nat) (c : Char) : Nat :=
  if c = '\x7b' then depth + 1 else if c = '\x7d' then depth - 1 else depth

/-- A character that does not cut is glued before what the rest is cut into. -/
theorem splitTopLevel_cons {d : Nat} {c : Char} (h : ¬ (c = ',' ∧ d = 0)) (r : List Char) :
    splitTopLevel d (c :: r) = glue [c] (splitTopLevel (depthBehind d c) r) := by
  rw [splitTopLevel, if_neg h]
  rfl

/-- There is always a part. -/
theorem splitTopLevel_ne_nil (d : Nat) (t : List Char) : splitTopLevel d t ≠ [] := by
  cases t with
  | nil => simp [splitTopLevel]
  | cons c r =>
    by_cases h : c = ',' ∧ d = 0
    · simp [splitTopLevel, h]
    · rw [splitTopLevel_cons h]
      cases splitTopLevel (depthBehind d c) r <;> simp [glue]

namespace Uncut

variable {d : Nat} {t u : List Char}

/-- The empty text is not cut. -/
theorem nil (d : Nat) : Uncut d [] := by
  intro r
  obtain ⟨p, ps, h⟩ := List.exists_cons_of_ne_nil (splitTopLevel_ne_nil d r)
  simp [glue, h]

/-- Two texts that are not cut are not, one behind the other. -/
theorem append (ht : Uncut d t) (hu : Uncut d u) : Uncut d (t ++ u) := by
  intro r
  rw [List.append_assoc, ht, hu, glue_append]

/-- A character that is no brace and, at the top, no comma, neither cuts nor changes the depth. -/
theorem char {c : Char} (hbraces : c ∉ ['\x7b', '\x7d']) (hcomma : c = ',' → 0 < d) :
    Uncut d [c] := by
  intro r
  have hno : ¬ (c = ',' ∧ d = 0) := fun h => absurd (hcomma h.1) (by omega)
  have hdepth : depthBehind d c = d := by
    simp only [List.mem_cons, List.not_mem_nil, or_false, not_or] at hbraces
    rw [depthBehind, if_neg hbraces.1, if_neg hbraces.2]
  rw [List.singleton_append, splitTopLevel_cons hno, hdepth]

/-- A text of characters that are neither commas nor braces is not cut, at any depth. -/
theorem of_forall (h : ∀ c ∈ t, c ∉ [',', '\x7b', '\x7d']) : Uncut d t := by
  induction t with
  | nil => exact nil d
  | cons c t ih =>
    obtain ⟨hc, ht⟩ := List.forall_mem_cons.mp h
    refine (char (fun hbrace => hc (.tail _ hbrace)) ?_).append (ih ht)
    rintro rfl
    exact absurd (.head _) hc

/-- A group is uncut when nothing between its braces would be cut there. -/
theorem braces (h : Uncut (d + 1) t) : Uncut d ('\x7b' :: t ++ ['\x7d']) := by
  intro r
  have htext : '\x7b' :: t ++ ['\x7d'] ++ r = '\x7b' :: (t ++ '\x7d' :: r) := by simp
  have hopen : ∀ r, splitTopLevel d ('\x7b' :: r) = glue ['\x7b'] (splitTopLevel (d + 1) r) :=
    splitTopLevel_cons (by simp)
  have hclose : splitTopLevel (d + 1) ('\x7d' :: r) = glue ['\x7d'] (splitTopLevel d r) :=
    splitTopLevel_cons (by simp) r
  rw [htext, hopen, h, hclose, ← glue_append, ← glue_append]
  rfl

theorem splitTopLevel_eq (h : Uncut 0 t) : splitTopLevel 0 t = [t] := by
  simpa [splitTopLevel, glue] using h []

/-- A comma at the top cuts behind a text that is not cut. -/
theorem splitTopLevel_comma (h : Uncut 0 t) (r : List Char) :
    splitTopLevel 0 (t ++ ',' :: r) = t :: splitTopLevel 0 r := by
  rw [h]
  simp [splitTopLevel, glue]

end Uncut

theorem Blanks.uncut {b : List Char} (hb : Blanks b) (d : Nat) : Uncut d b :=
  .of_forall fun c hc hmem => Blanks.not_mem hb c hc (.tail _ hmem)

theorem IsWord.uncut {w : List Char} (hw : IsWord w) (d : Nat) : Uncut d w :=
  .of_forall fun c hc hmem => (hw.chars c hc).2 (.tail _ hmem)

/-- A renaming is not cut. -/
theorem uncut_renameText (rename : Option Identifier) (d : Nat) :
    Uncut d (renameText rename) := by
  cases rename with
  | none => exact .nil d
  | some a => exact (Uncut.of_forall (by simp)).append (a.isWord.uncut d)

/-- A written path is not cut. -/
theorem WrittenPath.uncut {names : List String} {p : List Char} (h : WrittenPath names p)
    (hnames : ∀ n ∈ names, IsWord n.toList) (d : Nat) : Uncut d p :=
  .of_forall (h.not_mem hnames)

mutual

/-- A written tree is not cut: its commas stand between braces. By induction on the tree, at every
depth. -/
theorem UseTree.Written.uncut : ∀ {tree : UseTree} {t : List Char}, tree.Written t →
    ∀ d, Uncut d t
  -- a path, a name and a renaming
  | .item path name rename, _, ⟨p, hp, ht⟩, d => by
    rw [ht]
    exact (hp.uncut (isWord_of_mem_path path) d).append
      ((name.isWord.uncut d).append (uncut_renameText rename d))
  | .glob path, _, ⟨p, hp, ht⟩, d => by
    rw [ht]
    exact (hp.uncut (isWord_of_mem_path path) d).append (isWord_star.uncut d)
  -- the members stand one level down, where commas are free
  | .group path members, _, ⟨p, m, hp, hm, ht⟩, d => by
    rw [ht, List.append_assoc]
    exact (hp.uncut (isWord_of_mem_path path) d).append (hm.uncut (Nat.succ_pos d)).braces
  | .itself rename, t, ht, d => by
    have ht : t = "self".toList ++ renameText rename := ht
    rw [ht]
    exact (isWord_self.uncut d).append (uncut_renameText rename d)

/-- Between the braces of a group nothing would be cut if a group is open there. -/
theorem UseTree.Written.WrittenMembers.uncut : ∀ {members : List UseTree} {t : List Char},
    UseTree.Written.WrittenMembers members t → ∀ {d}, 0 < d → Uncut d t
  | [], _, ht, d, _ => Blanks.uncut ht d
  | member :: members, _, ⟨b, s, b', hb, hs, hb', h⟩, d, hd => by
    have hmember : Uncut d (b ++ s ++ b') :=
      ((Blanks.uncut hb d).append (hs.uncut d)).append (Blanks.uncut hb' d)
    rcases h with ⟨-, rfl⟩ | ⟨r, hr, rfl⟩
    · exact hmember
    · have hcomma : Uncut d [','] := .char (by decide) fun _ => hd
      have hrest := hcomma.append (hr.uncut hd)
      exact hmember.append hrest

end

/-! ### Expansion -/

namespace UseTree

/-- The leaves of a tree below a path. -/
def leaves (above : List String) : UseTree → List Leaf
  | item path name rename =>
    [.item (above ++ path.map (·.text) ++ [name.text]) (rename.map (·.text))]
  | glob path => [.glob (above ++ path.map (·.text))]
  | group path members => leavesOfMembers (above ++ path.map (·.text)) members
  | itself rename => [.module above (rename.map (·.text))]
where
  leavesOfMembers (above : List String) : List UseTree → List Leaf
    | [] => []
    | m :: ms => leaves above m ++ leavesOfMembers above ms

end UseTree

/-- A renaming ends in its name, so no blank stands at the end. -/
theorem solid_renameText {w : List Char} (hw : Solid w) (rename : Option Identifier) :
    Solid (w ++ renameText rename) := by
  cases rename with
  | none => rwa [renameText, List.append_nil]
  | some a =>
    rw [renameText, ← List.append_assoc]
    exact hw.append _ a.isWord.solid

theorem IsWord.brace_not_mem {w : List Char} (hw : IsWord w) : '\x7b' ∉ w :=
  fun hc => (hw.chars _ hc).2 (by simp)

/-- There is no brace in a renaming. -/
theorem brace_not_mem_renameText (rename : Option Identifier) : '\x7b' ∉ renameText rename := by
  cases rename with
  | none => exact List.not_mem_nil
  | some a =>
    rw [renameText, List.mem_append, not_or]
    exact ⟨by decide, a.isWord.brace_not_mem⟩

section Expand

variable {line depth : Nat} {names : List String} {p last b b' : List Char}

/-- There is no brace in a written path. -/
theorem WrittenPath.brace_not_mem (h : WrittenPath names p)
    (hnames : ∀ n ∈ names, IsWord n.toList) : '\x7b' ∉ p :=
  fun hc => h.not_mem hnames _ hc (by simp)

/-- A tree without a group is a leaf. -/
theorem WrittenPath.expandFrom_leaf (h : WrittenPath names p)
    (hnames : ∀ n ∈ names, IsWord n.toList) (hlast : IsWord last) (rename : Option Identifier)
    (above : List (List Char)) (hb : Blanks b) (hb' : Blanks b') :
    expandFrom line (depth + 1) above (b ++ (p ++ (last ++ renameText rename)) ++ b') =
      leaf line above (p ++ (last ++ renameText rename)) := by
  have hsolid := h.solid hnames (solid_renameText hlast.solid rename)
  -- without a brace the text is a leaf
  have hbrace : '\x7b' ∉ p ++ (last ++ renameText rename) := by
    simp only [List.mem_append, not_or]
    exact ⟨h.brace_not_mem hnames, hlast.brace_not_mem, brace_not_mem_renameText rename⟩
  have hnone : Text.splitFirst? ['\x7b'] (p ++ (last ++ renameText rename)) = none :=
    Text.splitFirst?_eq_none.mpr fun hin => hbrace (hin.subset (.head _))
  simp only [expandFrom, Text.trim_pad hb hsolid hb', if_neg hsolid.ne_nil, hnone]

/-- A group is expanded into what its members are, each behind the path of the group. -/
theorem WrittenPath.expandFrom_group (h : WrittenPath names p)
    (hnames : ∀ n ∈ names, IsWord n.toList) (m : List Char) (above : List (List Char))
    (hb : Blanks b) (hb' : Blanks b') :
    expandFrom line (depth + 1) above (b ++ (p ++ '\x7b' :: m ++ ['\x7d']) ++ b') =
      ((splitTopLevel 0 m).mapM
        (expandFrom line depth (above ++ names.map (·.toList)))).map List.flatten := by
  have hbraces : Solid ('\x7b' :: m ++ ['\x7d']) := by
    rw [← List.singleton_append]
    exact Solid.append m (.singleton (by decide)) (.singleton (by decide))
  have hsolid := h.solid hnames hbraces
  rw [← List.append_assoc] at hsolid
  -- the first brace is the one of the group, since none stands in the path
  have hsplit : Text.splitFirst? ['\x7b'] (p ++ '\x7b' :: m ++ ['\x7d']) =
      some (p, m ++ ['\x7d']) := by
    rw [List.append_assoc, List.cons_append]
    exact Text.splitFirst?_singleton (h.brace_not_mem hnames) _
  -- the last character closes it
  have hclose : Text.dropEnd? ['\x7d'] (Text.trimEnd (m ++ ['\x7d'])) = some m := by
    rw [Text.trimEnd_of_last m (by decide), Text.dropEnd?_append]
  simp only [expandFrom, Text.trim_pad hb hsolid hb', if_neg hsolid.ne_nil, hsplit, hclose,
    h.pathSegments_dropColons hnames]

/-- A blank member has no records. It is what stands behind a comma at the end of a group. -/
theorem expandFrom_blanks (above : List (List Char)) (hb : Blanks b) :
    expandFrom line (depth + 1) above b = .ok [] := by
  simp only [expandFrom, hb.trim_eq, if_true]

end Expand

mutual

/-- **Expansion.** A tree, with a path before it, is expanded into its leaves below that path. -/
theorem UseTree.Written.expandFrom : ∀ {tree : UseTree} {t : List Char}, tree.Written t →
    ∀ {line depth : Nat} {above lead : List String} {l b b' : List Char},
    (∀ n ∈ above, IsWord n.toList) → (∀ n ∈ lead, IsWord n.toList) → WrittenPath lead l →
    tree.Proper (!(above ++ lead).isEmpty) → Blanks b → Blanks b' →
    (b ++ (l ++ t) ++ b').length < depth →
    expandFrom line depth (above.map (·.toList)) (b ++ (l ++ t) ++ b') =
      .ok (tree.leaves (above ++ lead))
  | .item path name rename, _, ⟨p, hp, ht⟩, line, depth + 1, above, lead, l, b, b', habove, hlead,
      hl, _, hb, hb', _ => by
    have hnames := List.forall_mem_append.mpr ⟨hlead, isWord_of_mem_path path⟩
    rw [ht, ← List.append_assoc l,
      (hl.append hp).expandFrom_leaf hnames name.isWord rename _ hb hb',
      (hl.append hp).leaf_eq hnames name.isWord habove,
      if_neg name.ne_star, if_neg fun h => name.ne_self h.1]
    simp [leaves]
  | .glob path, _, ⟨p, hp, ht⟩, line, depth + 1, above, lead, l, b, b', habove, hlead, hl, _, hb,
      hb', _ => by
    have hnames := List.forall_mem_append.mpr ⟨hlead, isWord_of_mem_path path⟩
    have htext : l ++ (p ++ ['*']) = l ++ p ++ (['*'] ++ renameText none) := by simp [renameText]
    rw [ht, htext, (hl.append hp).expandFrom_leaf hnames isWord_star none _ hb hb',
      (hl.append hp).leaf_eq hnames isWord_star habove, if_pos rfl]
    simp [leaves]
  | .group path members, _, ⟨p, m, hp, hm, ht⟩, line, depth + 1, above, lead, l, b, b', habove,
      hlead, hl, hproper, hb, hb', hlength => by
    have hnames := List.forall_mem_append.mpr ⟨hlead, isWord_of_mem_path path⟩
    have hscope := List.forall_mem_append.mpr ⟨habove, hnames⟩
    -- the text of the members is shorter than that of the group, so that the depth suffices
    have hdepth : m.length < depth := by
      rw [ht] at hlength
      simp only [List.length_append, List.length_cons] at hlength
      omega
    -- for a `self` among the members it matters only whether anything stands before it
    have hbelow :
        Proper.ProperMembers (!(above ++ (lead ++ path.map (·.text))).isEmpty) members := by
      have habove : (!(above ++ (lead ++ path.map (·.text))).isEmpty) =
          (!(above ++ lead).isEmpty || !path.isEmpty) := by
        cases above <;> cases lead <;> cases path <;> rfl
      rw [habove]
      exact hproper
    obtain ⟨parts, hparts, hflatten⟩ := hm.expandFrom hscope hbelow hdepth
    have htext : l ++ (p ++ '\x7b' :: m ++ ['\x7d']) = l ++ p ++ '\x7b' :: m ++ ['\x7d'] := by
      simp
    rw [ht, htext, (hl.append hp).expandFrom_group hnames m _ hb hb', ← List.map_append, hparts]
    simp [Except.map, hflatten, leaves]
  | .itself rename, t, ht, line, depth + 1, above, lead, l, b, b', habove, hlead, hl, hproper, hb,
      hb', _ => by
    have ht : t = "self".toList ++ renameText rename := ht
    have hne : above ++ lead ≠ [] := by
      simpa [Proper] using hproper
    rw [ht, hl.expandFrom_leaf hlead isWord_self rename _ hb hb',
      hl.leaf_eq hlead isWord_self habove, if_neg (by decide), if_pos ⟨rfl, hne⟩]
    rfl

/-- The members of a group are expanded one after another. -/
theorem UseTree.Written.WrittenMembers.expandFrom : ∀ {members : List UseTree} {m : List Char},
    UseTree.Written.WrittenMembers members m →
    ∀ {line depth : Nat} {above : List String}, (∀ n ∈ above, IsWord n.toList) →
    UseTree.Proper.ProperMembers (!above.isEmpty) members → m.length < depth →
    ∃ parts, (splitTopLevel 0 m).mapM (Rust.expandFrom line depth (above.map (·.toList))) =
      .ok parts ∧ parts.flatten = UseTree.leaves.leavesOfMembers above members
  | [], m, hm, line, depth + 1, above, _, _, _ => by
    refine ⟨[[]], ?_, rfl⟩
    rw [(Blanks.uncut hm 0).splitTopLevel_eq]
    simp [expandFrom_blanks _ hm]
  | member :: members, m, ⟨b, s, b', hb, hs, hb', h⟩, line, depth, above, habove, hproper,
      hlength => by
    -- the commas of a member are within its own braces
    have huncut : Uncut 0 (b ++ s ++ b') :=
      ((Blanks.uncut hb 0).append (hs.uncut 0)).append (Blanks.uncut hb' 0)
    have hmember : (b ++ s ++ b').length < depth → Rust.expandFrom line depth
        (above.map (·.toList)) (b ++ s ++ b') = .ok (member.leaves above) := fun hlt => by
      have hproper : member.Proper (!(above ++ []).isEmpty) := by simpa using hproper.1
      have hnone : ∀ n ∈ ([] : List String), IsWord n.toList := by simp
      have hone : Rust.expandFrom line depth (above.map (·.toList)) (b ++ ([] ++ s) ++ b') =
          .ok (member.leaves (above ++ [])) :=
        hs.expandFrom habove hnone .nil hproper hb hb' hlt
      rw [List.append_nil] at hone
      exact hone
    rcases h with ⟨rfl, rfl⟩ | ⟨r, hr, rfl⟩
    · refine ⟨[member.leaves above], ?_, rfl⟩
      rw [huncut.splitTopLevel_eq, List.mapM_cons, hmember hlength]
      rfl
    · simp only [List.length_append, List.length_cons] at hlength
      have hrest : r.length < depth := by omega
      obtain ⟨parts, hparts, hflatten⟩ := hr.expandFrom habove hproper.2 hrest
      refine ⟨member.leaves above :: parts, ?_, by rw [List.flatten_cons, hflatten]; rfl⟩
      have hlt : (b ++ s ++ b').length < depth := by
        simp only [List.length_append]
        omega
      rw [huncut.splitTopLevel_comma, List.mapM_cons, hmember hlt, hparts]
      rfl

end

/-! ### Records -/

/-- Without a `super` at its beginning a path stays in its module. -/
theorem supers_of_head {d : Nat} {path : List String} (h : path.head? ≠ some "super") :
    supers d path = (d, path) := by
  cases path with
  | nil => rfl
  | cons s r => rw [supers, if_neg fun hs => h (by rw [hs]; rfl)]

/-- Each `super` goes one module up, once the depth is not zero. -/
theorem supers_replicate {d : Nat} (hd : 0 < d) (k : Nat) {path : List String}
    (h : path.head? ≠ some "super") :
    supers d (List.replicate k "super" ++ path) = (d + k, path) := by
  induction k generalizing d with
  | zero => exact supers_of_head h
  | succ k ih =>
    rw [List.replicate_succ, List.cons_append, supers, if_pos rfl, Nat.max_eq_left hd,
      ih (Nat.succ_pos d)]
    congr 1
    omega

/-- A path behind a beginning has the depth of that beginning and the names that it keeps. -/
theorem relativePath_lead (lead : Lead) (names : List Identifier) :
    relativePath (lead.words ++ names.map (·.text)) =
      (lead.depth, lead.kept ++ names.map (·.text)) := by
  -- the first name behind the beginning is an identifier, so it is none of the words that count
  have hhead : ∀ w ∈ ["*", "as", "crate", "self", "super"],
      (names.map (·.text)).head? ≠ some w := by
    intro w hw h
    obtain ⟨i, -, rfl⟩ := List.mem_map.mp (List.mem_of_mem_head? h)
    exact i.notReserved hw
  have hsuper := hhead "super" (by simp)
  cases lead with
  | none =>
    cases names with
    | nil => rfl
    | cons i names =>
      have hself : i.text ≠ "self" := by simpa using hhead "self" (by simp)
      rw [Lead.words, List.nil_append, List.map_cons, relativePath, if_neg hself]
      exact supers_of_head hsuper
  | crate => rfl
  | self => exact supers_of_head hsuper
  | super further =>
    have hfirst : ∀ path, relativePath ("super" :: path) = supers 2 path := fun _ => rfl
    rw [Lead.words, List.replicate_succ, List.cons_append, hfirst,
      supers_replicate (by decide) further hsuper, Nat.add_comm]
    rfl

mutual

/-- The leaves of a tree have, one by one, the records that are written down for it. By induction on
the tree, with the names above it. -/
theorem UseTree.map_record_leaves (lead : Lead) : ∀ (tree : UseTree) (names : List Identifier),
    (tree.leaves (lead.words ++ names.map (·.text))).map Leaf.record =
      tree.records lead.depth (lead.kept ++ names.map (·.text))
  -- each case is what `relativePath_lead` says of the path of its leaf
  | .item path name rename, names => by
    have hpath := relativePath_lead lead (names ++ (path ++ [name]))
    simp only [List.map_append, List.map_cons, List.map_nil] at hpath
    simp [leaves, records, Leaf.record, hpath]
  | .glob path, names => by
    have hpath := relativePath_lead lead (names ++ path)
    rw [List.map_append] at hpath
    simp [leaves, records, Leaf.record, hpath]
  | .group path members, names => by
    have hmembers := UseTree.map_record_leavesOfMembers lead members (names ++ path)
    simp only [List.map_append, ← List.append_assoc] at hmembers
    exact hmembers
  | .itself rename, names => by
    simp [leaves, records, Leaf.record, relativePath_lead]

/-- The leaves of the members of a group have the records of the members. -/
theorem UseTree.map_record_leavesOfMembers (lead : Lead) : ∀ (members : List UseTree)
    (names : List Identifier),
    (leaves.leavesOfMembers (lead.words ++ names.map (·.text)) members).map Leaf.record =
      records.recordsOfMembers lead.depth (lead.kept ++ names.map (·.text)) members
  | [], _ => rfl
  | m :: ms, names => by
    rw [leaves.leavesOfMembers, List.map_append, m.map_record_leaves lead names,
      UseTree.map_record_leavesOfMembers lead ms names, records.recordsOfMembers]

end

/-- **Use trees.** However a tree is laid out, it is expanded into one record for each of its
leaves, from left to right: with the whole path from the root, what it begins with being counted as
depth or kept, and with the name, the `*` or the new name that the leaf has. -/
theorem UseTree.records_expand {lead : Lead} {tree : UseTree} {text : List Char}
    (htext : WrittenUse lead tree text) (hproper : tree.Proper (!lead.words.isEmpty)) (line : Nat) :
    (expand line text).map (·.map Leaf.record) = .ok (tree.records lead.depth lead.kept) := by
  obtain ⟨b, l, s, b', hb, hl, hs, hb', rfl⟩ := htext
  have habove : ∀ n ∈ ([] : List String), IsWord n.toList := by simp
  have hexpand : expand line (b ++ (l ++ s) ++ b') = .ok (tree.leaves ([] ++ lead.words)) :=
    hs.expandFrom habove lead.isWord hl hproper hb hb' (Nat.lt_succ_self _)
  have hrecords := tree.map_record_leaves lead []
  simp only [List.map_nil, List.append_nil] at hrecords
  rw [hexpand, List.nil_append, Except.map, hrecords]

/-- The module `graph` under a new name, one of its items under another, and all the others. -/
theorem UseTree.records_expand_of_groups :
    let a : Identifier := ⟨"a", by decide, by decide⟩
    let graph : Identifier := ⟨"graph", by decide, by decide⟩
    let tree : UseTree :=
      .group [graph] [.itself (some a), .group [] [.item [a] graph (some a), .glob []]]
    let text := "crate ::graph::\x7bself as a,\n \x7ba::graph as a , *,\x7d\x7d".toList
    WrittenUse .crate tree text ∧ tree.Proper (!Lead.crate.words.isEmpty) ∧
      (expand 1 text).map (·.map Leaf.record) =
        .ok [{ path := ["crate", "graph"], rename := some "a" },
          { path := ["crate", "graph", "a", "graph"],
            names := [{ name := "graph", rename := some "a" }] },
          { path := ["crate", "graph"], wildcard := true }] := by
  intro a graph tree text
  have hcrate : WrittenPath ["crate"] "crate ::".toList := by
    simpa using @WrittenPath.cons "crate" [] [' '] [] [] (by decide) (by decide) .nil
  have hgraph : WrittenPath ["graph"] "graph::".toList := by
    simpa using @WrittenPath.cons "graph" [] [] [] [] .nil .nil .nil
  have ha : WrittenPath ["a"] "a::".toList := by
    simpa using @WrittenPath.cons "a" [] [] [] [] .nil .nil .nil
  have hitem : (UseTree.item [a] graph (some a)).Written "a::graph as a".toList :=
    ⟨_, ha, by simp [renameText, a, graph]⟩
  have hglob : (UseTree.glob []).Written "*".toList := ⟨_, .nil, rfl⟩
  have hself : (UseTree.itself (some a)).Written "self as a".toList := by
    simp [Written, renameText, a]
  -- the inner group, with blanks around its commas and one comma behind its last member
  have hinner : (UseTree.group [] [.item [a] graph (some a), .glob []]).Written
      "\x7ba::graph as a , *,\x7d".toList :=
    ⟨[], "a::graph as a , *,".toList, .nil,
      ⟨[], _, [' '], by decide, hitem, by decide, .inr ⟨" *,".toList,
        ⟨[' '], _, [], by decide, hglob, by decide, .inr ⟨[], Blanks.nil, rfl⟩⟩, rfl⟩⟩, rfl⟩
  have htree : tree.Written "graph::\x7bself as a,\n \x7ba::graph as a , *,\x7d\x7d".toList :=
    ⟨"graph::".toList, "self as a,\n \x7ba::graph as a , *,\x7d".toList, hgraph,
      ⟨[], _, [], by decide, hself, by decide, .inr ⟨"\n \x7ba::graph as a , *,\x7d".toList,
        ⟨['\n', ' '], _, [], by decide, hinner, by decide, .inl ⟨rfl, rfl⟩⟩, rfl⟩⟩, rfl⟩
  have htext : WrittenUse .crate tree text :=
    ⟨[], _, _, [], by decide, hcrate, htree, by decide, rfl⟩
  have hproper : tree.Proper (!Lead.crate.words.isEmpty) := by
    simp [tree, Proper, Proper.ProperMembers]
  exact ⟨htext, hproper, UseTree.records_expand htext hproper 1⟩

/-- A mark that is neither a letter nor a digit makes a word something else than a name, even where
such marks are part of the spelling. -/
theorem expand_of_mark :
    "हिन्दी".toList.all Text.isWord ∧
      expand 1 "a::हिन्दी".toList = .error (.invalid 1 "bad use path \"a::हिन्दी\"") := by
  decide +kernel

end ImportAtlas.Source.Rust
