import ImportAtlas.Pattern
import ImportAtlas.Proofs.Text.Chars
import Mathlib.Computability.Language

/-!
# Matches of patterns

What the ends of a match and the matches of a text are, without the accumulators of the search.

* `Place.past`, `Place.captured` — the place behind a part of the text, and the same with a group
  that has read the part;
* `Pattern.Spans` — a pattern without groups and tests of place ends behind the texts of a language
  and nowhere else; the language of a sequence is a product, that of alternatives a sum;
* `Pattern.mem_ends_seq_of_spans`, `Pattern.mem_ends_seq_group` — a pattern that begins so;
* `Pattern.head?_ends_seq`, `Pattern.head?_ends_many`, `Pattern.head?_repeated_succ` — the preferred
  end, part by part;
* `Pattern.findFrom_skip`, `Pattern.findFrom_match` — the search goes over a part of the text in
  which no match begins, and takes a part that is a match;
* `Pattern.search?_of_textStart` — a pattern that begins with the text is tried once.
-/

namespace ImportAtlas

namespace Place

/-- The place behind `t`, with `r` after it. -/
def past (p : Place) (t r : List Char) : Place :=
  ⟨t.getLast?.or p.before, p.offset + t.length, r, p.groups⟩

/-- The place behind `t`, which a group has read. -/
def captured (p : Place) (name : String) (t r : List Char) : Place :=
  { p.past t r with groups := (name, ⟨t ++ r, t.length⟩) :: p.groups }

variable (p : Place) (t r u s : List Char) (name : String)

@[simp] theorem past_offset : (p.past t r).offset = p.offset + t.length := rfl
@[simp] theorem past_rest : (p.past t r).rest = r := rfl
@[simp] theorem past_before : (p.past t r).before = t.getLast?.or p.before := rfl
@[simp] theorem captured_offset : (p.captured name t r).offset = p.offset + t.length := rfl
@[simp] theorem captured_rest : (p.captured name t r).rest = r := rfl

theorem past_nil : p.past [] p.rest = p := rfl

theorem past_past : (p.past t r).past u s = p.past (t ++ u) s := by
  simp [past, Nat.add_assoc, List.getLast?_append, Option.or_assoc]

@[simp] theorem group_captured : (p.captured name t r).group name = t := by
  simp [captured, group, group?, Capture.text]

@[simp] theorem group_past : (p.past t r).group name = p.group name := rfl

/-- Capturing one group leaves the others. -/
theorem group_captured_of_ne {m : String} (h : m ≠ name) :
    (p.captured name t r).group m = p.group m := by
  have hne : (m == name) = false := by simpa using h
  simp [captured, group, group?, List.lookup_cons, hne]

end Place

namespace Pattern

variable {n : Nat} {p e : Place} {f : Char → Bool} {a b : Pattern} {L M : Language Char}

/-! ### The ends of each pattern -/

theorem ends_empty (p : Place) : ends n empty p = [p] := rfl

/-- One character that `f` accepts. -/
theorem ends_one (f : Char → Bool) (p : Place) : ends n (one f) p =
    match p.rest with
    | [] => []
    | c :: r => if f c then [p.past [c] r] else [] := rfl

/-- A run ends behind each of its characters. Whether the longest or the shortest is tried first is
up to `m`. -/
theorem ends_run (f : Char → Bool) (m : Bool) (p : Place) : ends n (run f m) p =
    let found := runEnds f p.before p.offset p.groups [] p.rest
    if m then found else found.reverse := rfl

theorem ends_seq (a b : Pattern) (p : Place) :
    ends n (seq a b) p = (ends n a p).flatMap (ends n b) := rfl

theorem ends_alt (a b : Pattern) (p : Place) : ends n (alt a b) p = ends n a p ++ ends n b p := rfl

theorem ends_star (a : Pattern) (p : Place) : ends n (star a) p = repeated (ends n a) n p := rfl

/-- A group notes what it has gone over. -/
theorem ends_group (name : String) (a : Pattern) (p : Place) : ends n (group name a) p =
    (ends n a p).map fun e =>
      { e with groups := (name, ⟨p.rest, e.offset - p.offset⟩) :: e.groups } := rfl

theorem ends_lineStart (p : Place) :
    ends n lineStart p = if p.before = none ∨ p.before = some '\n' then [p] else [] := rfl

theorem ends_textStart (p : Place) :
    ends n textStart p = if p.before = none then [p] else [] := rfl

theorem ends_textEnd (p : Place) : ends n textEnd p = if p.rest.isEmpty then [p] else [] := rfl

theorem ends_wordEdge (p : Place) : ends n wordEdge p =
    if p.before.any Text.isWord != p.rest.head?.any Text.isWord then [p] else [] := rfl

/-! ### Languages -/

/-- The texts of one character of a class. -/
def oneOf (f : Char → Bool) : Language Char :=
  {t | ∃ c, f c ∧ t = [c]}

/-- The texts of characters of a class. -/
def allOf (f : Char → Bool) : Language Char :=
  {t | ∀ c ∈ t, f c}

/-- The texts of characters of a class that are not empty. -/
def someOf (f : Char → Bool) : Language Char :=
  {t | t ≠ [] ∧ ∀ c ∈ t, f c}

theorem mem_oneOf {t : List Char} : t ∈ oneOf f ↔ ∃ c, f c ∧ t = [c] := Iff.rfl
theorem mem_allOf {t : List Char} : t ∈ allOf f ↔ ∀ c ∈ t, f c := Iff.rfl
theorem mem_someOf {t : List Char} : t ∈ someOf f ↔ t ≠ [] ∧ ∀ c ∈ t, f c := Iff.rfl

/-- From every place the pattern ends behind the texts of a language, and it reads no groups. -/
def Spans (n : Nat) (a : Pattern) (L : Language Char) : Prop :=
  ∀ p e, e ∈ ends n a p ↔ ∃ t r, t ∈ L ∧ p.rest = t ++ r ∧ e = p.past t r

/-- The empty pattern goes over the empty text. -/
theorem spans_empty : Spans n empty 1 := by
  intro p e
  simp only [ends_empty, List.mem_singleton, Language.mem_one]
  constructor
  · rintro rfl
    exact ⟨[], e.rest, rfl, rfl, rfl⟩
  · rintro ⟨_, r, rfl, hr, rfl⟩
    rw [List.nil_append] at hr
    rw [← hr, Place.past_nil]

/-- A single character is gone over. -/
theorem spans_one : Spans n (one f) (oneOf f) := by
  intro p e
  rw [ends_one]
  split
  · next h =>
    simp only [List.not_mem_nil, false_iff]
    rintro ⟨_, r, ⟨c, -, rfl⟩, heq, -⟩
    rw [h] at heq
    exact absurd heq (List.cons_ne_nil c r).symm
  · next c r h =>
    rw [h]
    split
    · next hc =>
      rw [List.mem_singleton]
      constructor
      · rintro rfl
        exact ⟨[c], r, ⟨c, hc, rfl⟩, rfl, rfl⟩
      · rintro ⟨_, _, ⟨d, -, rfl⟩, heq, rfl⟩
        -- there is one character to go over, and it is accepted
        obtain ⟨rfl, rfl⟩ := List.cons.inj heq
        rfl
    · next hc =>
      simp only [List.not_mem_nil, false_iff]
      rintro ⟨_, _, ⟨d, hd, rfl⟩, heq, -⟩
      obtain ⟨rfl, -⟩ := List.cons.inj heq
      exact hc hd

/-- What a run may read from a place: a part of accepted characters, whatever follows. -/
theorem mem_runEnds {shorter : List Place} {t : List Char} (ht : p.rest = t) :
    e ∈ runEnds f p.before p.offset p.groups shorter t ↔
      e ∈ shorter ∨ ∃ u r, (∀ c ∈ u, f c) ∧ t = u ++ r ∧ e = p.past u r := by
  induction t generalizing p shorter with
  | nil =>
    have hp : p.past [] [] = p := by simpa [ht] using p.past_nil
    have hhere : (⟨p.before, p.offset, [], p.groups⟩ : Place) = p := hp
    simp only [runEnds, List.mem_cons, hhere]
    constructor
    · rintro (rfl | h)
      · exact .inr ⟨[], [], by simp, rfl, hp.symm⟩
      · exact .inl h
    · rintro (h | ⟨u, r, -, hur, rfl⟩)
      · exact .inr h
      · obtain ⟨rfl, rfl⟩ := List.append_eq_nil_iff.mp hur.symm
        exact .inl hp
  | cons c t ih =>
    have hp : p.past [] (c :: t) = p := by simpa [ht] using p.past_nil
    have hhere : (⟨p.before, p.offset, c :: t, p.groups⟩ : Place) = p := hp
    have hnext : ∀ u r, (p.past [c] t).past u r = p.past (c :: u) r := p.past_past [c] t
    simp only [runEnds, hhere]
    split
    · next hc =>
      -- the run goes on behind the character, where it may read what is left of the part
      have hrec : e ∈ runEnds f (some c) (p.offset + 1) p.groups (p :: shorter) t ↔ _ :=
        ih (p := p.past [c] t) rfl
      rw [hrec, List.mem_cons]
      simp only [hnext]
      constructor
      · rintro ((rfl | h) | ⟨u, r, hu, rfl, rfl⟩)
        · exact .inr ⟨[], c :: t, by simp, rfl, hp.symm⟩
        · exact .inl h
        · exact .inr ⟨c :: u, r, by simpa [hc] using hu, rfl, rfl⟩
      · rintro (h | ⟨u, r, hu, hur, rfl⟩)
        · exact .inl (.inr h)
        · cases u with
          | nil =>
            obtain rfl : c :: t = r := hur
            exact .inl (.inl hp)
          | cons d u =>
            obtain ⟨rfl, rfl⟩ := List.cons.inj hur
            exact .inr ⟨u, r, fun x hx => hu x (.tail _ hx), rfl, rfl⟩
    · next hc =>
      rw [List.mem_cons]
      constructor
      · rintro (rfl | h)
        · exact .inr ⟨[], c :: t, by simp, rfl, hp.symm⟩
        · exact .inl h
      · rintro (h | ⟨u, r, hu, hur, rfl⟩)
        · exact .inr h
        · cases u with
          | nil =>
            obtain rfl : c :: t = r := hur
            exact .inl hp
          | cons d u =>
            obtain ⟨rfl, -⟩ := List.cons.inj hur
            exact absurd (hu _ (.head _)) hc

/-- A run that prefers to be long and one that prefers to be short have the same ends. -/
theorem spans_run {m : Bool} : Spans n (run f m) (allOf f) := by
  intro p e
  have hmem : e ∈ runEnds f p.before p.offset p.groups [] p.rest ↔ _ := mem_runEnds rfl
  cases m <;> simpa [ends_run, mem_allOf] using hmem

/-- Patterns one after the other go over texts one after the other. -/
theorem Spans.seq (ha : Spans n a L) (hb : Spans n b M) : Spans n (.seq a b) (L * M) := by
  intro p e
  rw [ends_seq, List.mem_flatMap]
  constructor
  · rintro ⟨q, hq, he⟩
    obtain ⟨t, r, ht, hr, rfl⟩ := (ha p q).mp hq
    obtain ⟨u, s, hu, hs, rfl⟩ := (hb _ e).mp he
    refine ⟨t ++ u, s, Language.append_mem_mul ht hu, ?_, Place.past_past ..⟩
    -- the second begins where the first has ended
    rw [hr, List.append_assoc, ← hs, Place.past_rest]
  · rintro ⟨_, s, htu, hs, rfl⟩
    obtain ⟨t, ht, u, hu, rfl⟩ := Language.mem_mul.mp htu
    rw [List.append_assoc] at hs
    exact ⟨_, (ha p _).mpr ⟨t, u ++ s, ht, hs, rfl⟩,
      (hb _ _).mpr ⟨u, s, hu, rfl, (Place.past_past p t (u ++ s) u s).symm⟩⟩

/-- Patterns beside each other go over the texts of both. -/
theorem Spans.alt (ha : Spans n a L) (hb : Spans n b M) : Spans n (.alt a b) (L + M) := by
  intro p e
  rw [ends_alt, List.mem_append, ha p e, hb p e]
  constructor
  · rintro (⟨t, r, ht, h⟩ | ⟨t, r, ht, h⟩)
    · exact ⟨t, r, .inl ht, h⟩
    · exact ⟨t, r, .inr ht, h⟩
  · rintro ⟨t, r, ht | ht, h⟩
    · exact .inl ⟨t, r, ht, h⟩
    · exact .inr ⟨t, r, ht, h⟩

theorem Spans.congr (ha : Spans n a L) (h : L = M) : Spans n a M :=
  h ▸ ha

/-- A literal goes over its text. -/
theorem spans_literal (s : String) : Spans n (literal s) {s.toList} := by
  rw [literal]
  induction s.toList with
  | nil => exact spans_empty
  | cons c t ih =>
    refine (spans_one.seq ih).congr (Language.ext fun u => ?_)
    rw [Language.mem_mul]
    constructor
    · rintro ⟨_, ⟨d, hd, rfl⟩, _, rfl, rfl⟩
      rw [beq_iff_eq.mp hd]
      rfl
    · rintro rfl
      exact ⟨[c], ⟨c, beq_self_eq_true c, rfl⟩, t, rfl, rfl⟩

/-- One character and then a run is a run that is not empty. -/
theorem oneOf_mul_allOf (f : Char → Bool) : oneOf f * allOf f = someOf f := by
  refine Language.ext fun u => ?_
  rw [Language.mem_mul]
  constructor
  · rintro ⟨_, ⟨c, hc, rfl⟩, t, ht, rfl⟩
    exact ⟨List.cons_ne_nil c t, List.forall_mem_cons.mpr ⟨hc, ht⟩⟩
  · rintro ⟨hne, hall⟩
    obtain ⟨c, t, rfl⟩ := List.exists_cons_of_ne_nil hne
    obtain ⟨hc, ht⟩ := List.forall_mem_cons.mp hall
    exact ⟨[c], ⟨c, hc, rfl⟩, t, ht, rfl⟩

theorem spans_many1 : Spans n (many1 f) (someOf f) :=
  (spans_one.seq spans_run).congr (oneOf_mul_allOf f)

theorem spans_few1 : Spans n (few1 f) (someOf f) :=
  (spans_one.seq spans_run).congr (oneOf_mul_allOf f)

/-! ### Sequences with groups and tests -/

theorem mem_ends_seq : e ∈ ends n (seq a b) p ↔ ∃ q ∈ ends n a p, e ∈ ends n b q :=
  List.mem_flatMap

/-- If the texts of the first part are known, the second begins behind one of them. -/
theorem mem_ends_seq_of_spans (ha : Spans n a L) : e ∈ ends n (seq a b) p ↔
    ∃ t r, t ∈ L ∧ p.rest = t ++ r ∧ e ∈ ends n b (p.past t r) := by
  rw [mem_ends_seq]
  constructor
  · rintro ⟨q, hq, he⟩
    obtain ⟨t, r, ht, hr, rfl⟩ := (ha p q).mp hq
    exact ⟨t, r, ht, hr, he⟩
  · rintro ⟨t, r, ht, hr, he⟩
    exact ⟨_, (ha p _).mpr ⟨t, r, ht, hr, rfl⟩, he⟩

/-- A group whose texts are known captures one of them. -/
theorem mem_ends_group {name : String} (ha : Spans n a L) : e ∈ ends n (group name a) p ↔
    ∃ t r, t ∈ L ∧ p.rest = t ++ r ∧ e = p.captured name t r := by
  rw [ends_group, List.mem_map]
  -- what is captured is the text between the two places
  have hread : ∀ t r, p.rest = t ++ r →
      (⟨p.rest, (p.past t r).offset - p.offset⟩ : Capture) = ⟨t ++ r, t.length⟩ := by
    intro t r hr
    simp [hr]
  constructor
  · rintro ⟨q, hq, rfl⟩
    obtain ⟨t, r, ht, hr, rfl⟩ := (ha p q).mp hq
    refine ⟨t, r, ht, hr, ?_⟩
    rw [hread t r hr]
    rfl
  · rintro ⟨t, r, ht, hr, rfl⟩
    refine ⟨_, (ha p _).mpr ⟨t, r, ht, hr, rfl⟩, ?_⟩
    rw [hread t r hr]
    rfl

/-- A group whose texts are known captures one of them, and what follows goes on behind it. -/
theorem mem_ends_seq_group {name : String} (ha : Spans n a L) :
    e ∈ ends n (seq (group name a) b) p ↔
      ∃ t r, t ∈ L ∧ p.rest = t ++ r ∧ e ∈ ends n b (p.captured name t r) := by
  rw [mem_ends_seq]
  constructor
  · rintro ⟨q, hq, he⟩
    obtain ⟨t, r, ht, hr, rfl⟩ := (mem_ends_group ha).mp hq
    exact ⟨t, r, ht, hr, he⟩
  · rintro ⟨t, r, ht, hr, he⟩
    exact ⟨_, (mem_ends_group ha).mpr ⟨t, r, ht, hr, rfl⟩, he⟩

/-- At the beginning of a line one goes on. -/
theorem mem_ends_seq_lineStart : e ∈ ends n (seq lineStart b) p ↔
    (p.before = none ∨ p.before = some '\n') ∧ e ∈ ends n b p := by
  rw [mem_ends_seq, ends_lineStart]
  split
  · next h => simp [h]
  · next h => simp [h]

/-- At the beginning of the text one goes on. -/
theorem mem_ends_seq_textStart : e ∈ ends n (seq textStart b) p ↔
    p.before = none ∧ e ∈ ends n b p := by
  rw [mem_ends_seq, ends_textStart]
  split
  · next h => simp [h]
  · next h => simp [h]

/-- The end of the text is where nothing is left. -/
theorem mem_ends_textEnd : e ∈ ends n textEnd p ↔ p.rest = [] ∧ e = p := by
  rw [ends_textEnd]
  split
  · next h => simp [List.isEmpty_iff.mp h]
  · next h => simp [show p.rest ≠ [] from fun hnil => h (by simp [hnil])]

/-- At the edge of a word one goes on: exactly one of the characters on both sides is part of a
word. -/
theorem mem_ends_seq_wordEdge : e ∈ ends n (seq wordEdge b) p ↔
    (p.before.any Text.isWord ≠ p.rest.head?.any Text.isWord) ∧ e ∈ ends n b p := by
  rw [mem_ends_seq, ends_wordEdge]
  split
  · next h => simpa using fun _ => bne_iff_ne.mp h
  · next h => simpa using fun heq => absurd heq (by simpa using h)

/-! ### The preferred end -/

/-- The preferred end of a sequence is the preferred one behind some end of its first part. -/
theorem exists_of_head?_ends_seq (h : (ends n (seq a b) p).head? = some e) :
    ∃ q ∈ ends n a p, (ends n b q).head? = some e := by
  rw [ends_seq, List.head?_flatMap] at h
  exact List.exists_of_findSome?_eq_some h

/-- An optional part is left out only where no match has it. -/
theorem head?_ends_seq_optional (a b : Pattern) (p : Place) :
    (ends n (seq (optional a) b) p).head? =
      (ends n (seq a b) p).head?.or (ends n b p).head? := by
  simp [optional, ends_seq, ends_alt, ends_empty, List.head?_append]

/-- The preferred end of a sequence, where a match goes on from that of its first part. -/
theorem head?_ends_seq {q : Place} (ha : (ends n a p).head? = some q)
    (hb : (ends n b q).head? = some e) : (ends n (seq a b) p).head? = some e := by
  obtain ⟨qs, hqs⟩ := List.head?_eq_some_iff.mp ha
  rw [ends_seq, hqs, List.flatMap_cons, List.head?_append, hb, Option.some_or]

/-- The first of two patterns is tried first. -/
theorem head?_ends_alt (ha : (ends n a p).head? = some e) :
    (ends n (alt a b) p).head? = some e := by
  rw [ends_alt, List.head?_append, ha, Option.some_or]

/-- The second of two patterns is tried when the first has no end. -/
theorem head?_ends_alt_of_nil (ha : ends n a p = []) :
    (ends n (alt a b) p).head? = (ends n b p).head? := by
  rw [ends_alt, ha, List.nil_append]

/-- A group captures what its pattern goes over first. -/
theorem head?_ends_group {name : String} {t r : List Char} (hp : p.rest = t ++ r)
    (ha : (ends n a p).head? = some (p.past t r)) :
    (ends n (group name a) p).head? = some (p.captured name t r) := by
  rw [ends_group, List.head?_map, ha, Option.map_some, Place.captured, hp, Place.past_offset,
    Nat.add_sub_cancel_left]
  rfl

/-- A character that is accepted is gone over. -/
theorem head?_ends_one {c : Char} {r : List Char} (hp : p.rest = c :: r) (hc : f c) :
    (ends n (one f) p).head? = some (p.past [c] r) := by
  rw [ends_one, hp]
  simp [hc]

/-- The longest run is found first: it goes on as long as characters are accepted. -/
theorem head?_runEnds {shorter : List Place} {t r : List Char} (hp : p.rest = t ++ r)
    (ht : ∀ c ∈ t, f c) (hr : ∀ c ∈ r.head?, ¬ f c) :
    (runEnds f p.before p.offset p.groups shorter p.rest).head? = some (p.past t r) := by
  induction t generalizing p shorter with
  | nil =>
    rw [List.nil_append] at hp
    -- nothing more is accepted, so the run ends here
    have hover : p.past [] r = p := hp ▸ p.past_nil
    rw [hover, hp]
    cases r with
    | nil => rw [runEnds, List.head?_cons, ← hp]
    | cons c r =>
      rw [runEnds, if_neg (hr c rfl), List.head?_cons, ← hp]
  | cons c t ih =>
    obtain ⟨hc, ht⟩ := List.forall_mem_cons.mp ht
    rw [hp, List.cons_append, runEnds, if_pos hc]
    exact (ih (p := p.past [c] (t ++ r)) rfl ht).trans
      (congrArg some (p.past_past [c] (t ++ r) t r))

/-- A run that prefers to be long reads all characters of its class. -/
theorem head?_ends_many {t r : List Char} (hp : p.rest = t ++ r) (ht : ∀ c ∈ t, f c)
    (hr : ∀ c ∈ r.head?, ¬ f c) : (ends n (many f) p).head? = some (p.past t r) :=
  head?_runEnds hp ht hr

/-- A run that is not empty is gone over in full. -/
theorem head?_ends_many1 {t r : List Char} (hp : p.rest = t ++ r) (hne : t ≠ []) (ht : ∀ c ∈ t, f c)
    (hr : ∀ c ∈ r.head?, ¬ f c) : (ends n (many1 f) p).head? = some (p.past t r) := by
  obtain ⟨c, t, rfl⟩ := List.exists_cons_of_ne_nil hne
  obtain ⟨hc, ht⟩ := List.forall_mem_cons.mp ht
  refine (head?_ends_seq (head?_ends_one hp hc) (head?_ends_many rfl ht hr)).trans ?_
  rw [Place.past_past]
  rfl

/-- A literal that is there is gone over. -/
theorem head?_ends_literal (s : String) {r : List Char} (hp : p.rest = s.toList ++ r) :
    (ends n (literal s) p).head? = some (p.past s.toList r) := by
  rw [literal]
  generalize s.toList = t at *
  induction t generalizing p with
  | nil =>
    rw [List.nil_append] at hp
    exact congrArg some (hp ▸ p.past_nil).symm
  | cons c t ih =>
    exact (head?_ends_seq (head?_ends_one (f := (· == c)) hp (beq_self_eq_true c)) (ih rfl)).trans
      (congrArg some (p.past_past [c] (t ++ r) t r))

/-- A repetition goes on from the preferred end of a step that reads something. -/
theorem head?_repeated_succ {step : Place → List Place} {m : Nat} {q : Place}
    (hstep : (step p).head? = some q) (hlt : p.offset < q.offset)
    (hq : (repeated step m q).head? = some e) : (repeated step (m + 1) p).head? = some e := by
  obtain ⟨qs, hqs⟩ := List.head?_eq_some_iff.mp hstep
  rw [repeated, hqs, List.filter_cons, if_pos (decide_eq_true hlt), List.flatMap_cons,
    List.append_assoc, List.head?_append, hq, Option.some_or]

/-- Where no step moves on, the repetition ends. -/
theorem repeated_of_nil {step : Place → List Place} (m : Nat) (hstep : step p = []) :
    repeated step m p = [p] := by
  cases m <;> simp [repeated, hstep]

/-! ### Searching -/

section Search

variable {before : Option Char} {offset skip : Nat} {rest : List Char}

/-- The character before a place, when one more stands in front. -/
theorem getLast?_cons_or (c : Char) (t : List Char) :
    (c :: t).getLast?.or before = t.getLast?.or (some c) := by
  rw [List.getLast?_cons, Option.some_or]
  cases t.getLast? <;> rfl

/-- The search goes over a part of the text in which no match begins. -/
theorem findFrom_skip (t : List Char) (h : ∀ u c v, t = u ++ c :: v →
      ends n a ⟨u.getLast?.or before, offset + u.length, c :: v ++ rest, []⟩ = []) :
    findFrom n a before offset skip (t ++ rest) =
      findFrom n a (t.getLast?.or before) (offset + t.length) skip rest := by
  induction t generalizing before offset with
  | nil => rfl
  | cons c t ih =>
    have hhere : ends n a ⟨before, offset, c :: (t ++ rest), []⟩ = [] := h [] c t rfl
    -- the places behind the first character are places of the whole text too
    have hnext : ∀ u d v, t = u ++ d :: v → ends n a
        ⟨u.getLast?.or (some c), offset + 1 + u.length, d :: v ++ rest, []⟩ = [] := by
      rintro u d v rfl
      have hlater := h (c :: u) d v rfl
      rwa [getLast?_cons_or, List.length_cons, Nat.add_comm u.length 1, ← Nat.add_assoc]
        at hlater
    rw [List.cons_append, findFrom, hhere, List.head?_nil]
    simp only [ite_self]
    rw [ih hnext, getLast?_cons_or, List.length_cons, Nat.add_comm t.length 1, Nat.add_assoc]

/-- The search goes over a part of the text that the last match has read. -/
theorem findFrom_within (t : List Char) (h : offset + t.length ≤ skip) :
    findFrom n a before offset skip (t ++ rest) =
      findFrom n a (t.getLast?.or before) (offset + t.length) skip rest := by
  induction t generalizing before offset with
  | nil => rfl
  | cons c t ih =>
    rw [List.length_cons] at h
    rw [List.cons_append, findFrom, if_pos (by omega), ih (by omega), getLast?_cons_or,
      List.length_cons, Nat.add_comm t.length 1, Nat.add_assoc]

/-- Where a match begins, the search takes its preferred end and goes on behind the match. -/
theorem findFrom_match {t : List Char} (hne : t ≠ []) (hskip : skip ≤ offset)
    (h : (ends n a ⟨before, offset, t ++ rest, []⟩).head? = some e)
    (hend : e.offset = offset + t.length) :
    findFrom n a before offset skip (t ++ rest) =
      ⟨offset, e⟩ :: findFrom n a (t.getLast?.or before) e.offset e.offset rest := by
  obtain ⟨c, t, rfl⟩ := List.exists_cons_of_ne_nil hne
  rw [List.length_cons] at hend
  rw [List.cons_append] at h ⊢
  rw [findFrom, if_neg (by omega), h]
  simp only
  -- up to the end of the match no place is tried
  rw [findFrom_within t (by omega), getLast?_cons_or,
    show offset + 1 + t.length = e.offset by omega]

/-- A pattern that asks for the beginning of the text is searched for there only. -/
theorem search?_of_textStart (h : ∀ p : Place, p.before ≠ none → ends rest.length a p = []) :
    search? a rest = (ends rest.length a (Place.first rest)).head?.map (⟨0, ·⟩) := by
  -- behind the first place the beginning of the text is over
  have hlater : ∀ c offset t, findFrom rest.length a (some c) offset 0 t = [] := by
    intro c offset t
    induction t generalizing c offset with
    | nil => simp [findFrom, h]
    | cons d t ih => simp [findFrom, h, ih]
  rw [search?, findAll]
  cases rest with
  | nil => simp [findFrom, Place.first]
  | cons c t =>
    rw [findFrom, if_neg (Nat.lt_irrefl 0), Place.first]
    cases (ends (c :: t).length a ⟨none, 0, c :: t, []⟩).head? with
    | none => exact congrArg List.head? (hlater c (0 + 1) t)
    | some e => rfl

end Search

end Pattern

end ImportAtlas
