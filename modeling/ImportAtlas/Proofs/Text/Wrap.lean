import ImportAtlas.Text.Wrap
import ImportAtlas.Proofs.Text.Chars
import Mathlib.Data.List.Chain
import Mathlib.Data.List.Forall2

/-!
# What wrapping gives

Wrapping a text is described here by the pieces that stand on its lines, a piece being a word or a
chunk of one that is too wide:

* `Wrap.Cut` — the pieces of a word;
* `Wrap.Filled` — pieces on lines, broken only where the next piece would not fit.

The main statement is `wrap_filled`: each paragraph of a text gives lines that are filled so, and
what has been wrapped stays as it is when it is wrapped again.

The loop keeps texts, a length and a flag. What it does is followed on the pieces (`Wrap.Filling`):
a word adds its pieces one by one (`Wrap.takeWord_progress`), and each piece goes where there is
room for it (`Wrap.Filling.add`). That a piece keeps the lines in order is shown once
(`Wrap.Filling.Greedy.add`).
-/

namespace ImportAtlas.Text

namespace Wrap

variable {width : Nat}

/-! ### The pieces of a word -/

/-- A word is in pieces: one, if it is not too wide, and else chunks of exactly the width with a
last one that may be shorter. -/
structure Cut (width : Nat) (word : List Char) (pieces : List (List Char)) : Prop where
  flatten_eq : pieces.flatten = word
  whole : word.length ≤ width → pieces = [word]
  full : ∀ piece ∈ pieces.dropLast, piece.length = width
  fits : ∀ piece ∈ pieces, piece ≠ [] ∧ piece.length ≤ width

/-- The chunks of a word are its pieces. The recursion has a bound, and the word is no longer than
that. -/
theorem cut_go (hwidth : 0 < width) {n : Nat} {word : List Char} (hne : word ≠ [])
    (hn : word.length ≤ n) : Cut width word (chunks.go width n word) := by
  induction n generalizing word with
  | zero => exact absurd (List.eq_nil_of_length_eq_zero (Nat.le_zero.mp hn)) hne
  | succ n ih =>
    rw [chunks.go]
    split
    · next hle => exact ⟨by simp, fun _ => rfl, by simp, by simp [hne, hle]⟩
    · next hwide =>
      have hlength : (word.take width).length = width := by
        rw [List.length_take]
        omega
      have hrest : Cut width (word.drop width) (chunks.go width n (word.drop width)) := by
        apply ih
        · rw [Ne, List.drop_eq_nil_iff]
          exact hwide
        · rw [List.length_drop]
          omega
      -- the rest is not empty, so the first chunk is not the last one
      have hgo : chunks.go width n (word.drop width) ≠ [] := by
        intro hnil
        have hflatten := hrest.flatten_eq
        rw [hnil, List.flatten_nil, eq_comm, List.drop_eq_nil_iff] at hflatten
        exact hwide hflatten
      refine ⟨?_, fun hle => absurd hle hwide, ?_, ?_⟩
      · rw [List.flatten_cons, hrest.flatten_eq, List.take_append_drop]
      · rw [List.dropLast_cons_of_ne_nil hgo]
        exact List.forall_mem_cons.mpr ⟨hlength, hrest.full⟩
      · refine List.forall_mem_cons.mpr ⟨⟨?_, Nat.le_of_eq hlength⟩, hrest.fits⟩
        rw [← List.length_pos_iff, hlength]
        exact hwidth

/-- The chunks of a word are its pieces, each as wide as there is room but the last. -/
theorem cut_chunks (hwidth : 0 < width) {word : List Char} (hne : word ≠ []) :
    Cut width word (chunks width word) :=
  cut_go hwidth hne (Nat.le_refl _)

/-- A word that is not empty has a piece. -/
theorem Cut.ne_nil {word : List Char} {pieces : List (List Char)} (h : Cut width word pieces)
    (hne : word ≠ []) : pieces ≠ [] := by
  rintro rfl
  exact hne h.flatten_eq.symm

/-- A piece is a part of its word. -/
theorem Cut.subset {word : List Char} {pieces : List (List Char)} (h : Cut width word pieces) :
    ∀ piece ∈ pieces, piece ⊆ word := by
  intro piece hpiece c hc
  rw [← h.flatten_eq]
  exact List.mem_flatten_of_mem hpiece hc

/-! ### Lines of pieces -/

/-- The text of a line: its pieces with single spaces between them. -/
def spaced (line : List (List Char)) : List Char :=
  join [' '] line

@[simp] theorem spaced_nil : spaced [] = [] := rfl

@[simp] theorem spaced_singleton (piece : List Char) : spaced [piece] = piece := rfl

/-- One more piece takes a space and its own length. -/
theorem length_spaced_append {line : List (List Char)} (hne : line ≠ []) (piece : List Char) :
    (spaced (line ++ [piece])).length = (spaced line).length + 1 + piece.length := by
  rw [spaced, join_concat _ hne, List.length_append, List.length_append]
  rfl

/-- The first pieces of a line take no more room than all of them. -/
theorem length_spaced_le (front back : List (List Char)) :
    (spaced front).length ≤ (spaced (front ++ back)).length := by
  induction back using List.reverseRecOn with
  | nil => rw [List.append_nil]
  | append_singleton back piece ih =>
    rw [← List.append_assoc]
    by_cases hnil : front ++ back = []
    · obtain ⟨rfl, -⟩ := List.append_eq_nil_iff.mp hnil
      exact Nat.zero_le _
    · rw [length_spaced_append hnil]
      omega

/-- Something stands on a line with a piece on it. -/
theorem length_spaced_pos {line : List (List Char)} (hne : line ≠ [])
    (hpieces : ∀ p ∈ line, p ≠ []) :
    0 < (spaced line).length := by
  obtain ⟨p, ps, rfl⟩ := List.exists_cons_of_ne_nil hne
  calc 0 < p.length := List.length_pos_iff.mpr (hpieces p List.mem_cons_self)
    _ = (spaced [p]).length := rfl
    _ ≤ (spaced ([p] ++ ps)).length := length_spaced_le [p] ps

/-- The first piece of a line would not have fitted on the one before. -/
def Breaks (width : Nat) (line next : List (List Char)) : Prop :=
  ∀ q ∈ next.head?, width < (spaced line).length + 1 + q.length

/-- Pieces fill lines of a width: all of them, in their order, no line being too wide. Of two pieces
that follow one another, the second stands on the next line exactly if it would not fit on the line
so far. Without pieces there is one empty line. -/
structure Filled (width : Nat) (pieces : List (List Char)) (block : List (List (List Char))) :
    Prop where
  flatten_eq : block.flatten = pieces
  ne_nil : block ≠ []
  empty : pieces = [] → block = [[]]
  line_ne_nil : pieces ≠ [] → ∀ line ∈ block, line ≠ []
  length_le : ∀ line ∈ block, (spaced line).length ≤ width
  break_iff : ∀ front p q back, pieces = front ++ p :: q :: back →
    ∃ above line rest below, block = above ++ (line ++ rest) :: below ∧
      above.flatten ++ line = front ++ [p] ∧ line ≠ [] ∧
      (rest = [] ↔ width < (spaced line).length + 1 + q.length)

/-- In lines that are broken where the next piece does not fit, all breaks are of that kind, and
there are no others: between two pieces that follow one another a line ends exactly if the second
does not fit on it. By induction on the lines, with the two pieces on the first line, on both sides
of its end, or further down. -/
theorem exists_break {block : List (List (List Char))} (hne : ∀ line ∈ block, line ≠ [])
    (hle : ∀ line ∈ block, (spaced line).length ≤ width) (hbreaks : block.IsChain (Breaks width))
    {front back : List (List Char)} {p q : List Char}
    (hpieces : block.flatten = front ++ p :: q :: back) :
    ∃ above line rest below, block = above ++ (line ++ rest) :: below ∧
      above.flatten ++ line = front ++ [p] ∧ line ≠ [] ∧
      (rest = [] ↔ width < (spaced line).length + 1 + q.length) := by
  induction block generalizing front with
  | nil => simp at hpieces
  | cons first block ih =>
    obtain ⟨hfirst, hne⟩ := List.forall_mem_cons.mp hne
    obtain ⟨hfits, hle⟩ := List.forall_mem_cons.mp hle
    -- where the first line ends before `q`, that begins the second one
    have hbroken : block.flatten = q :: back → width < (spaced first).length + 1 + q.length := by
      intro hnext
      cases block with
      | nil => simp at hnext
      | cons next block =>
        obtain ⟨q', next, rfl⟩ := List.exists_cons_of_ne_nil (hne _ List.mem_cons_self)
        obtain ⟨rfl, -⟩ := List.cons.inj hnext
        exact (List.isChain_cons_cons.mp hbreaks).1 q' rfl
    have hcut : first ++ block.flatten = (front ++ [p]) ++ q :: back := by
      rw [← List.flatten_cons, hpieces, List.append_assoc]
      rfl
    rcases List.append_eq_append_iff.mp hcut with ⟨us, hfront, hblock⟩ | ⟨us, hline, hback⟩
    · rcases List.eq_nil_or_concat us with rfl | ⟨us, p', rfl⟩
      · rw [List.append_nil] at hfront
        exact ⟨[], first, [], block, by simp, hfront.symm, hfirst,
          iff_of_true rfl (hbroken hblock)⟩
      · -- both pieces are on lines further down
        rw [List.concat_eq_append, ← List.append_assoc] at hfront
        obtain ⟨hfront, hp⟩ := List.append_inj' hfront rfl
        obtain rfl : p = p' := List.singleton_inj.mp hp
        have hrest : block.flatten = us ++ p :: q :: back := by
          rw [hblock, List.concat_eq_append, List.append_assoc]
          rfl
        obtain ⟨above, line, rest, below, rfl, habove, hline, hiff⟩ :=
          ih hne hle hbreaks.of_cons hrest
        refine ⟨first :: above, line, rest, below, rfl, ?_, hline, hiff⟩
        rw [List.flatten_cons, List.append_assoc, habove, hfront, List.append_assoc]
    · refine ⟨[], front ++ [p], us, block, by rw [hline]; rfl, rfl, by simp, ?_⟩
      cases us with
      | nil =>
        rw [List.append_nil] at hline
        exact iff_of_true rfl (hline ▸ hbroken hback.symm)
      | cons q' us =>
        -- both pieces are on the first line, which is not too wide
        obtain ⟨rfl, -⟩ := List.cons.inj hback
        refine iff_of_false (List.cons_ne_nil _ _) (Nat.not_lt.mpr ?_)
        calc (spaced (front ++ [p])).length + 1 + q.length
            = (spaced (front ++ [p] ++ [q])).length := (length_spaced_append (by simp) q).symm
          _ ≤ (spaced (front ++ [p] ++ [q] ++ us)).length := length_spaced_le _ us
          _ = (spaced first).length := by rw [hline]; simp
          _ ≤ width := hfits

/-! ### Filling lines piece by piece -/

/-- The lines that pieces have filled, and the one that is being filled. -/
structure Filling where
  complete : List (List (List Char)) := []
  line : List (List Char) := []

namespace Filling

variable {f : Filling} {piece : List Char}

/-- The lines so far, with the one that is being filled. -/
def block (f : Filling) : List (List (List Char)) :=
  f.complete ++ [f.line]

/-- Puts a piece onto the line if it fits there, and else onto the next one. -/
def add (width : Nat) (f : Filling) (piece : List Char) : Filling :=
  if f.line = [] then { f with line := [piece] }
  else if (spaced f.line).length + 1 + piece.length ≤ width then
    { f with line := f.line ++ [piece] }
  else { complete := f.complete ++ [f.line], line := [piece] }

theorem add_of_nil (h : f.line = []) : f.add width piece = { f with line := [piece] } :=
  if_pos h

/-- A piece for which there is room is put on the line. -/
theorem add_of_fits (h : f.line ≠ []) (hfits : (spaced f.line).length + 1 + piece.length ≤ width) :
    f.add width piece = { f with line := f.line ++ [piece] } := by
  rw [add, if_neg h, if_pos hfits]

/-- A piece for which there is none begins a new line. -/
theorem add_of_wide (h : f.line ≠ []) (hwide : width < (spaced f.line).length + 1 + piece.length) :
    f.add width piece = { complete := f.complete ++ [f.line], line := [piece] } := by
  rw [add, if_neg h, if_neg (Nat.not_le.mpr hwide)]

/-- The lines are broken where they have to be, and nowhere else. -/
structure Greedy (width : Nat) (f : Filling) : Prop where
  piece_ne_nil : ∀ p ∈ f.line, p ≠ []
  complete_ne_nil : ∀ line ∈ f.complete, line ≠ []
  line_ne_nil : f.complete ≠ [] → f.line ≠ []
  length_le : ∀ line ∈ f.block, (spaced line).length ≤ width
  breaks : f.block.IsChain (Breaks width)

/-- An empty line is greedily filled. -/
theorem Greedy.start (width : Nat) : Greedy width {} where
  piece_ne_nil := by simp
  complete_ne_nil := by simp
  line_ne_nil := by simp
  length_le := by simp [block]
  breaks := List.isChain_singleton _

/-- A piece more leaves the lines in order. -/
theorem Greedy.add (h : f.Greedy width) (hne : piece ≠ []) (hle : piece.length ≤ width) :
    (f.add width piece).Greedy width := by
  obtain ⟨hcomplete_le, hline_le⟩ := List.forall_mem_append.mp h.length_le
  obtain ⟨hcomplete, -, hlast⟩ := List.isChain_append.mp h.breaks
  by_cases hnil : f.line = []
  · -- the first piece of all
    have hempty : f.complete = [] := by
      by_contra hcontra
      exact h.line_ne_nil hcontra hnil
    rw [add_of_nil hnil, hempty]
    exact ⟨by simpa using hne, by simp, by simp, by simpa [block] using hle,
      List.isChain_singleton _⟩
  · have hpieces : ∀ p ∈ f.line ++ [piece], p ≠ [] := by
      simpa [or_imp, forall_and] using And.intro h.piece_ne_nil hne
    by_cases hfits : (spaced f.line).length + 1 + piece.length ≤ width
    · rw [add_of_fits hnil hfits]
      refine ⟨hpieces, h.complete_ne_nil, by simp, ?_, ?_⟩
      · refine List.forall_mem_append.mpr ⟨hcomplete_le, ?_⟩
        simpa [length_spaced_append hnil] using hfits
      · -- the line begins as it did
        refine List.isChain_append.mpr ⟨hcomplete, List.isChain_singleton _, ?_⟩
        intro line hline next hnext
        obtain rfl : f.line ++ [piece] = next := by simpa using hnext
        intro q hq
        rw [List.head?_append_of_ne_nil _ hnil] at hq
        exact hlast line hline f.line rfl q hq
    · have hwide := Nat.not_le.mp hfits
      rw [add_of_wide hnil hwide]
      refine ⟨by simpa using hne, ?_, by simp, ?_, ?_⟩
      · exact List.forall_mem_append.mpr ⟨h.complete_ne_nil, by simpa using hnil⟩
      · refine List.forall_mem_append.mpr ⟨h.length_le, by simpa using hle⟩
      · refine List.isChain_append.mpr ⟨h.breaks, List.isChain_singleton _, ?_⟩
        intro line hline next hnext
        obtain rfl : f.line = line := by simpa using hline
        obtain rfl : [piece] = next := by simpa using hnext
        intro q hq
        obtain rfl : piece = q := by simpa using hq
        exact hwide

/-- Nothing is lost, and nothing changes its place. -/
theorem flatten_add (width : Nat) (f : Filling) (piece : List Char) :
    (f.add width piece).block.flatten = f.block.flatten ++ [piece] := by
  unfold add
  split
  · next hnil => simp [block, hnil]
  · split <;> simp [block]

/-- Pieces that are put down one after the other leave the lines greedily filled, and stand on them
in their order. -/
theorem Greedy.foldl {pieces : List (List Char)} (h : f.Greedy width)
    (hpieces : ∀ p ∈ pieces, p ≠ [] ∧ p.length ≤ width) :
    (pieces.foldl (Filling.add width) f).Greedy width ∧
      (pieces.foldl (Filling.add width) f).block.flatten = f.block.flatten ++ pieces := by
  induction pieces generalizing f with
  | nil => exact ⟨h, (List.append_nil _).symm⟩
  | cons p pieces ih =>
    obtain ⟨⟨hne, hle⟩, hpieces⟩ := List.forall_mem_cons.mp hpieces
    obtain ⟨hgreedy, hflatten⟩ := ih (h.add hne hle) hpieces
    refine ⟨hgreedy, ?_⟩
    rw [List.foldl_cons, hflatten, flatten_add, List.append_assoc]
    rfl

/-- Greedily filled lines are filled in the sense of the specification. -/
theorem Greedy.filled (h : f.Greedy width) : Filled width f.block.flatten f.block := by
  have hflatten : f.block.flatten = f.complete.flatten ++ f.line := by simp [block]
  -- where there are complete lines, there are pieces on them
  have hcomplete : f.complete.flatten = [] → f.complete = [] := by
    intro hnil
    rcases f.complete.eq_nil_or_concat with heq | ⟨lines, line, heq⟩
    · exact heq
    · have hmem : line ∈ f.complete := by simp [heq]
      exact absurd (List.flatten_eq_nil_iff.mp hnil line hmem) (h.complete_ne_nil line hmem)
  have hlines : f.block.flatten ≠ [] → ∀ line ∈ f.block, line ≠ [] := by
    intro hne
    refine List.forall_mem_append.mpr ⟨h.complete_ne_nil, ?_⟩
    intro line hline
    obtain rfl : line = f.line := by simpa using hline
    intro hnil
    by_cases heq : f.complete = []
    · exact hne (by rw [hflatten, heq, hnil]; rfl)
    · exact h.line_ne_nil heq hnil
  refine ⟨rfl, by simp [block], ?_, hlines, h.length_le, ?_⟩
  · intro hnil
    rw [hflatten] at hnil
    obtain ⟨hleft, hright⟩ := List.append_eq_nil_iff.mp hnil
    rw [block, hcomplete hleft, hright]
    rfl
  · intro front p q back hpieces
    exact exists_break (hlines (by simp [hpieces])) h.length_le h.breaks hpieces

/-- Pieces for which there is room stay on the line. -/
theorem foldl_add_of_fits {pieces : List (List Char)} (hne : f.line ≠ [])
    (hfits : (spaced (f.line ++ pieces)).length ≤ width) :
    pieces.foldl (Filling.add width) f = { f with line := f.line ++ pieces } := by
  induction pieces generalizing f with
  | nil => rw [List.append_nil]; rfl
  | cons p pieces ih =>
    -- the whole line fits, so its beginning does
    have hfirst : (spaced f.line).length + 1 + p.length ≤ width := by
      calc (spaced f.line).length + 1 + p.length
          = (spaced (f.line ++ [p])).length := (length_spaced_append hne p).symm
        _ ≤ (spaced (f.line ++ [p] ++ pieces)).length := length_spaced_le _ pieces
        _ = (spaced (f.line ++ p :: pieces)).length := by rw [List.append_assoc]; rfl
        _ ≤ width := hfits
    rw [List.foldl_cons, add_of_fits hne hfirst, ih (by simp) (by simpa using hfits)]
    simp

end Filling

/-! ### What the loop does -/

/-- The state of the loop in which pieces have filled lines behind others. -/
def progress (lines : List (List Char)) (f : Filling) : Progress where
  lines := lines ++ f.complete.map spaced
  current := spaced f.line
  length := (spaced f.line).length
  produced := !f.complete.isEmpty

/-- Chunks are pieces, each of them on a line of its own: they are too wide for anything else. -/
theorem takeChunks_eq {lines : List (List Char)} {complete : List (List (List Char))}
    {s : Progress} {c : List Char} {cs : List (List Char)}
    (hlines : s.lines = lines ++ complete.map spaced) (hproduced : s.produced = !complete.isEmpty)
    (hfull : ∀ piece ∈ (c :: cs).dropLast, piece.length = width) :
    s.takeChunks (c :: cs) = progress lines (cs.foldl (Filling.add width) ⟨complete, [c]⟩) := by
  induction cs generalizing s c complete with
  | nil => simp [Progress.takeChunks, progress, hlines, hproduced]
  | cons c' cs ih =>
    rw [List.dropLast_cons_of_ne_nil (List.cons_ne_nil c' cs)] at hfull
    obtain ⟨hlength, hfull⟩ := List.forall_mem_cons.mp hfull
    -- the first chunk fills its line, so the next one begins a line of its own
    have hwide : width < (spaced [c]).length + 1 + c'.length := by
      rw [spaced_singleton, hlength]
      omega
    have hadd : Filling.add width ⟨complete, [c]⟩ c' = ⟨complete ++ [[c]], [c']⟩ :=
      Filling.add_of_wide (List.cons_ne_nil c []) hwide
    rw [Progress.takeChunks, List.foldl_cons, hadd]
    · exact ih (by simp [hlines]) (by simp) hfull
    · exact List.cons_ne_nil c' cs

/-- A word is taken by putting its pieces down one after the other. -/
theorem takeWord_progress (hwidth : 0 < width) (lines : List (List Char)) {f : Filling}
    (h : f.Greedy width) {word : List Char} (hne : word ≠ []) :
    (progress lines f).takeWord width word =
      progress lines ((chunks width word).foldl (Filling.add width) f) := by
  have hcut := cut_chunks hwidth hne
  -- the length tells whether the line is empty
  have hlength : f.line ≠ [] → 0 < (progress lines f).length := fun hline =>
    length_spaced_pos hline h.piece_ne_nil
  have hzero : f.line = [] → (progress lines f).length = 0 := fun hline => by
    rw [progress, hline]
    rfl
  unfold Progress.takeWord
  split
  · next hwide =>
    obtain ⟨c, cs, hchunks⟩ := List.exists_cons_of_ne_nil (hcut.ne_nil hne)
    rw [hchunks] at hcut ⊢
    -- it is in more than one piece, and the first one is as wide as a line
    have hcs : cs ≠ [] := by
      rintro rfl
      have hword : c = word := by simpa using hcut.flatten_eq
      exact absurd (hword ▸ (hcut.fits c List.mem_cons_self).2) (Nat.not_le.mpr hwide)
    have hfirst : c.length = width := by
      refine hcut.full c ?_
      rw [List.dropLast_cons_of_ne_nil hcs]
      exact List.mem_cons_self
    rw [List.foldl_cons]
    by_cases hline : f.line = []
    · have hflush : (progress lines f).flush = progress lines f := by
        rw [Progress.flush, if_neg (by rw [hzero hline]; exact Nat.lt_irrefl 0)]
      rw [hflush, Filling.add_of_nil hline]
      exact takeChunks_eq rfl rfl hcut.full
    · have hflush : (progress lines f).flush = { progress lines f with
          lines := (progress lines f).lines ++ [spaced f.line], produced := true } :=
        if_pos (hlength hline)
      rw [hflush, Filling.add_of_wide hline (by omega)]
      exact takeChunks_eq (by simp [progress]) (by simp) hcut.full
  · next hnarrow =>
    rw [hcut.whole (Nat.not_lt.mp hnarrow), List.foldl_cons, List.foldl_nil]
    by_cases hline : f.line = []
    · rw [if_pos (hzero hline), Filling.add_of_nil hline]
      simp [progress, hline]
    · rw [if_neg (Nat.ne_of_gt (hlength hline))]
      split
      · next hfits =>
        have htext : spaced (f.line ++ [word]) = spaced f.line ++ ' ' :: word := by
          rw [spaced, join_concat _ hline, List.append_assoc]
          rfl
        rw [Filling.add_of_fits hline hfits, progress, progress, length_spaced_append hline, htext]
      · next hwide =>
        rw [Filling.add_of_wide hline (Nat.not_le.mp hwide)]
        simp [progress]

/-- The pieces of the words of a paragraph on lines. -/
def layout (width : Nat) (paragraph : List Char) : List (List (List Char)) :=
  (((words paragraph).flatMap (chunks width)).foldl (Filling.add width) {}).block

/-- The words of a paragraph are taken by putting down all of their pieces. That the lines stay
greedily filled is carried along, since taking a word relies on it. -/
theorem foldl_takeWord (hwidth : 0 < width) (lines : List (List Char)) {f : Filling}
    (h : f.Greedy width) (ws : List (List Char)) (hws : ∀ w ∈ ws, w ≠ []) :
    ws.foldl (Progress.takeWord width) (progress lines f) =
        progress lines ((ws.flatMap (chunks width)).foldl (Filling.add width) f) ∧
      ((ws.flatMap (chunks width)).foldl (Filling.add width) f).Greedy width := by
  induction ws generalizing f with
  | nil => exact ⟨rfl, h⟩
  | cons w ws ih =>
    obtain ⟨hw, hws⟩ := List.forall_mem_cons.mp hws
    rw [List.foldl_cons, takeWord_progress hwidth lines h hw, List.flatMap_cons,
      List.foldl_append]
    exact ih (h.foldl (cut_chunks hwidth hw).fits).1 hws

/-- The last line is complete at the end of a paragraph. -/
theorem finish_progress (lines : List (List Char)) {f : Filling} (h : f.Greedy width) :
    (progress lines f).finish = lines ++ f.block.map spaced := by
  have hlast : 0 < (progress lines f).length ∨ ¬ (progress lines f).produced := by
    by_cases hcomplete : f.complete = []
    · exact .inr (by simp [progress, hcomplete])
    · exact .inl (length_spaced_pos (h.line_ne_nil hcomplete) h.piece_ne_nil)
  rw [Progress.finish, if_pos hlast]
  simp [progress, Filling.block]

/-- A paragraph adds the lines that its pieces are laid out on. -/
theorem paragraph_eq (hwidth : 0 < width) (lines : List (List Char)) (p : List Char) :
    paragraph width lines p = lines ++ (layout width p).map spaced := by
  have hstart : ({ lines } : Progress) = progress lines {} := by simp [progress]
  obtain ⟨hfold, hgreedy⟩ := foldl_takeWord hwidth lines (Filling.Greedy.start width)
    (words p) fun w hw => (mem_words hw).1
  rw [paragraph, hstart, hfold, finish_progress lines hgreedy, layout]

/-- A text is wrapped paragraph by paragraph. -/
theorem wrap_eq (hwidth : 0 < width) (text : List Char) :
    wrap text width =
      (cutAt (· == '\n') text).flatMap fun p => (layout width p).map spaced := by
  -- each paragraph adds its lines behind those of the others
  have hfold : ∀ (ps lines : List (List Char)), ps.foldl (paragraph width) lines =
      lines ++ ps.flatMap fun p => (layout width p).map spaced := by
    intro ps
    induction ps with
    | nil => simp
    | cons p ps ih =>
      intro lines
      rw [List.foldl_cons, ih, paragraph_eq hwidth, List.flatMap_cons, List.append_assoc]
  rw [wrap, if_neg (Nat.ne_of_gt hwidth), hfold, List.nil_append]

/-! ### Wrapped lines -/

/-- The lines of a paragraph: its words are cut into pieces, and these fill lines. -/
def Laid (width : Nat) (paragraph : List Char) (block : List (List (List Char))) : Prop :=
  ∃ cuts, List.Forall₂ (Cut width) (words paragraph) cuts ∧ Filled width cuts.flatten block

/-- The layout of a paragraph fills its lines with the pieces of its words. -/
theorem filled_layout (hwidth : 0 < width) (p : List Char) :
    Filled width ((words p).flatMap (chunks width)) (layout width p) := by
  have hpieces : ∀ piece ∈ (words p).flatMap (chunks width), piece ≠ [] ∧ piece.length ≤ width := by
    intro piece hpiece
    obtain ⟨w, hw, hmem⟩ := List.mem_flatMap.mp hpiece
    exact (cut_chunks hwidth (mem_words hw).1).fits piece hmem
  obtain ⟨hgreedy, hflatten⟩ := (Filling.Greedy.start width).foldl hpieces
  have hfilled := hgreedy.filled
  rwa [hflatten] at hfilled

/-- The layout of a paragraph is one in the sense of the specification. -/
theorem laid_layout (hwidth : 0 < width) (p : List Char) : Laid width p (layout width p) := by
  refine ⟨(words p).map (chunks width), ?_, filled_layout hwidth p⟩
  refine List.forall₂_map_right_iff.mpr (List.forall₂_same.mpr ?_)
  intro w hw
  exact cut_chunks hwidth (mem_words hw).1

/-- What stands on a line are words, none of them too wide. -/
theorem mem_line {p : List Char} (hwidth : 0 < width) {line : List (List Char)}
    (hline : line ∈ layout width p) :
    ∀ piece ∈ line, piece ≠ [] ∧ piece.length ≤ width ∧ ∀ c ∈ piece, isBlank c = false := by
  intro piece hpiece
  have hmem : piece ∈ (words p).flatMap (chunks width) := by
    rw [← (filled_layout hwidth p).flatten_eq]
    exact List.mem_flatten_of_mem hline hpiece
  obtain ⟨w, hw, hmem⟩ := List.mem_flatMap.mp hmem
  have hcut := cut_chunks hwidth (mem_words hw).1
  obtain ⟨hne, hle⟩ := hcut.fits piece hmem
  exact ⟨hne, hle, fun c hc => (mem_words hw).2 c (hcut.subset piece hmem hc)⟩

/-- The words of a line with spaces between pieces are the pieces, as no blank stands in them. -/
theorem words_spaced {line : List (List Char)}
    (h : ∀ p ∈ line, p ≠ [] ∧ ∀ c ∈ p, isBlank c = false) : words (spaced line) = line := by
  induction line with
  | nil => rfl
  | cons p line ih =>
    obtain ⟨⟨hne, hp⟩, hline⟩ := List.forall_mem_cons.mp h
    cases line with
    | nil => exact words_of_not_isBlank hne hp
    | cons q line =>
      rw [spaced, join_cons_cons, words_append hne hp (List.cons_ne_nil _ _) .space]
      exact congrArg (p :: ·) (ih hline)

/-- A line that was laid out is laid out as itself, which is why wrapping twice is wrapping once. -/
theorem layout_spaced {p : List Char} (hwidth : 0 < width) {line : List (List Char)}
    (hline : line ∈ layout width p) : layout width (spaced line) = [line] := by
  have hpieces := mem_line hwidth hline
  -- no piece of the line is too wide, so each is its own chunk
  have hchunks : line.flatMap (chunks width) = line := by
    calc line.flatMap (chunks width) = line.flatMap fun piece => [piece] := by
          refine List.flatMap_congr fun piece hpiece => ?_
          obtain ⟨hne, hle, -⟩ := hpieces piece hpiece
          exact (cut_chunks hwidth hne).whole hle
      _ = line := List.flatMap_singleton' line
  have hwords : ∀ piece ∈ line, piece ≠ [] ∧ ∀ c ∈ piece, Text.isBlank c = false :=
    fun piece hpiece => ⟨(hpieces piece hpiece).1, (hpieces piece hpiece).2.2⟩
  rw [layout, words_spaced hwords, hchunks]
  -- the line fits, so no piece begins a new one
  cases line with
  | nil => rfl
  | cons piece line =>
    have hfits := (filled_layout hwidth p).length_le _ hline
    have hne : (⟨[], [piece]⟩ : Filling).line ≠ [] := List.cons_ne_nil piece []
    rw [List.foldl_cons, Filling.add_of_nil rfl, Filling.foldl_add_of_fits hne hfits]
    rfl

/-- No line end stands on a line, since pieces have no blanks. -/
theorem newline_not_mem_spaced {line : List (List Char)}
    (h : ∀ p ∈ line, ∀ c ∈ p, isBlank c = false) : '\n' ∉ spaced line := by
  induction line with
  | nil => simp
  | cons p line ih =>
    obtain ⟨hp, hline⟩ := List.forall_mem_cons.mp h
    have hfirst : '\n' ∉ p := fun hmem => Bool.false_ne_true (hp _ hmem).symm
    cases line with
    | nil => exact hfirst
    | cons q line =>
      rw [spaced, join_cons_cons]
      simp only [List.mem_append, List.mem_singleton, not_or]
      -- only spaces stand between the pieces
      exact ⟨⟨hfirst, by decide⟩, ih hline⟩

end Wrap

open Wrap

/-- No line is too wide, whatever the width. -/
theorem length_le_of_mem_wrap {text line : List Char} {width : Nat} (h : line ∈ wrap text width) :
    line.length ≤ width := by
  rcases Nat.eq_zero_or_pos width with rfl | hwidth
  · rw [wrap, if_pos rfl] at h
    exact absurd h List.not_mem_nil
  · rw [wrap_eq hwidth] at h
    obtain ⟨p, -, h⟩ := List.mem_flatMap.mp h
    obtain ⟨pieces, hpieces, rfl⟩ := List.mem_map.mp h
    exact (filled_layout hwidth p).length_le pieces hpieces

/-- **Wrapping.** A text is wrapped paragraph by paragraph. The words of a paragraph, those that are
too wide cut into chunks, stand on its lines in their order with single spaces between them. No line
is too wide, and a line is broken exactly where the next piece would not fit. What has been wrapped
stays as it is when it is wrapped again. -/
theorem wrap_filled (text : List Char) {width : Nat} (hwidth : 0 < width) :
    ∃ (paragraphs : List (List Char)) (blocks : List (List (List (List Char)))),
      join ['\n'] paragraphs = text ∧ paragraphs ≠ [] ∧ (∀ p ∈ paragraphs, '\n' ∉ p) ∧
      List.Forall₂ (Laid width) paragraphs blocks ∧
      wrap text width = blocks.flatten.map spaced ∧
      wrap (join ['\n'] (wrap text width)) width = wrap text width := by
  have hwrap := wrap_eq hwidth text
  refine ⟨cutAt (· == '\n') text, (cutAt (· == '\n') text).map (layout width), join_cutAt '\n' text,
    cutAt_ne_nil text, ?_, ?_, ?_, ?_⟩
  · intro p hp hmem
    exact not_sep_of_mem_cutAt p hp '\n' hmem (beq_self_eq_true '\n')
  · exact List.forall₂_map_right_iff.mpr (List.forall₂_same.mpr fun p _ => laid_layout hwidth p)
  · rw [hwrap, List.map_flatten, List.map_map]
    rfl
  · -- each line is a paragraph of its own, and is laid out as it is
    have hlines : ∀ l ∈ wrap text width, '\n' ∉ l ∧ (layout width l).map spaced = [l] := by
      intro l hl
      rw [hwrap] at hl
      obtain ⟨p, -, hl⟩ := List.mem_flatMap.mp hl
      obtain ⟨line, hline, rfl⟩ := List.mem_map.mp hl
      refine ⟨newline_not_mem_spaced fun piece hpiece => ?_, ?_⟩
      · exact (mem_line hwidth hline piece hpiece).2.2
      · rw [layout_spaced hwidth hline]
        rfl
    have hne : wrap text width ≠ [] := by
      obtain ⟨p, ps, hcut⟩ := List.exists_cons_of_ne_nil (@cutAt_ne_nil (· == '\n') text)
      have hlayout := (filled_layout hwidth p).ne_nil
      rw [hwrap, hcut, List.flatMap_cons]
      simp [hlayout]
    rw [wrap_eq hwidth, cutAt_join hne fun l hl => (hlines l hl).1]
    calc (wrap text width).flatMap (fun l => (layout width l).map spaced)
        = (wrap text width).flatMap fun l => [l] :=
          List.flatMap_congr fun l hl => (hlines l hl).2
      _ = wrap text width := List.flatMap_singleton' _

/-- A word that is too wide fills a line behind the word before it, and its end takes the next word
along. -/
theorem wrap_filled_of_two : 0 < 4 ∧
    wrap "ab abcdefg h\n\nij".toList 4 =
      ["ab".toList, "abcd".toList, "efg".toList, "h".toList, "".toList, "ij".toList] ∧
    wrap (join ['\n'] (wrap "ab abcdefg h\n\nij".toList 4)) 4 =
      wrap "ab abcdefg h\n\nij".toList 4 := by
  have hwidth : 0 < 4 := by decide
  obtain ⟨-, -, -, -, -, -, -, hagain⟩ := wrap_filled "ab abcdefg h\n\nij".toList hwidth
  exact ⟨hwidth, by decide, hagain⟩

end ImportAtlas.Text
