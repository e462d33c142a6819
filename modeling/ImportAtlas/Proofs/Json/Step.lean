import ImportAtlas.Proofs.Json.Token

/-!
# One step of reading a value

The reader of values written with readers for its parts. An array and an object are read alike: what
stands between the two marks is nothing, or members with commas between them.

* `inside?`, `listed?`, `after?`, `keyed?` — these parts, each with what it says when it gives a
  result;
* `value?_succ`, `items?_succ`, `entries?_succ` — one step of the reader, made of them;
* `ValueAt`, `value?_eq_some_iff` — the forms that a value can have.
-/

namespace ImportAtlas.Json.Reader

variable {α β : Type} {close : Char} {t u r rest : List Char}

/-! ### The parts -/

/-- What stands between an opening mark and the one that closes it. -/
def inside? (close : Char) (members : List Char → Option (List α × List Char)) (r : List Char) :
    Option (List α × List Char) :=
  if (skipBlanks r).head? = some close then some ([], (skipBlanks r).tail) else members r

/-- Between brackets there is nothing, or what `members` reads. The bracket is asked for first. -/
theorem inside?_eq_some_iff {members : List Char → Option (List α × List Char)} {xs : List α} :
    inside? close members r = some (xs, rest) ↔
      xs = [] ∧ skipBlanks r = close :: rest ∨
        (skipBlanks r).head? ≠ some close ∧ members r = some (xs, rest) := by
  rw [inside?]
  split
  · next hclose =>
    obtain ⟨u, hu⟩ := List.head?_eq_some_iff.mp hclose
    simp [hu, eq_comm]
  · next hclose =>
    have hu : skipBlanks r ≠ close :: rest := fun hu => hclose (by rw [hu, List.head?_cons])
    simp [hclose, hu]

/-- What follows a member: a comma and more members, or the mark that closes them. -/
def goOn? (close : Char) (members : List Char → Option (List α × List Char)) (x : α)
    (u : List Char) : Option (List α × List Char) :=
  match skipBlanks u with
  | c :: v =>
    if c = ',' then (members v).map fun (xs, rest) => (x :: xs, rest)
    else if c = close then some ([x], v)
    else none
  | [] => none

/-- Behind an element the bracket ends the list, or a comma leads on to the others. The bracket is
no comma, so that only one of the two can be. -/
theorem goOn?_eq_some_iff {members : List Char → Option (List α × List Char)} {x : α}
    {xs : List α} (hclose : close ≠ ',') :
    goOn? close members x u = some (xs, rest) ↔
      xs = [x] ∧ skipBlanks u = close :: rest ∨
        ∃ v ys, skipBlanks u = ',' :: v ∧ members v = some (ys, rest) ∧ xs = x :: ys := by
  constructor
  · intro h
    rw [goOn?] at h
    split at h
    · next c v hu =>
      split at h
      · -- the first character decides which of the two it is
        next hc =>
        subst hc
        obtain ⟨⟨ys, w⟩, hys, heq⟩ := Option.map_eq_some_iff.mp h
        cases heq
        exact .inr ⟨v, ys, hu, hys, rfl⟩
      · split at h
        · next hc =>
          cases h
          exact .inl ⟨rfl, by rw [hu, hc]⟩
        · cases h
    · cases h
  · rintro (⟨rfl, hu⟩ | ⟨v, ys, hu, hys, rfl⟩)
    · simp [goOn?, hu, hclose]
    · simp [goOn?, hu, hys]

/-- Anything else fails. -/
theorem goOn?_eq_none {members : List Char → Option (List α × List Char)} {x : α}
    (hcomma : ∀ v, skipBlanks u = ',' :: v → False)
    (hclose : ∀ v, skipBlanks u = close :: v → False) : goOn? close members x u = none := by
  rw [goOn?]
  split
  · next c v hu =>
    have hc : ¬ c = ',' := fun hc => hcomma v (by rw [hu, hc])
    have hc' : ¬ c = close := fun hc => hclose v (by rw [hu, hc])
    rw [if_neg hc, if_neg hc']
  · rfl

/-- Members up to the mark that closes them, with commas between them. -/
def listed? (close : Char) (member : List Char → Option (α × List Char))
    (members : List Char → Option (List α × List Char)) (t : List Char) :
    Option (List α × List Char) :=
  (member t).bind fun (x, u) => goOn? close members x u

/-- What is read behind a mark, blanks in front left out. -/
def after? (mark : Char) (f : List Char → Option β) (u : List Char) : Option β :=
  match skipBlanks u with
  | c :: v => if c = mark then f v else none
  | [] => none

/-- Behind its mark `f` reads on. -/
theorem after?_of_cons {mark : Char} {f : List Char → Option β} (h : skipBlanks u = mark :: r) :
    after? mark f u = f r := by
  simp [after?, h]

/-- Without the mark there is nothing. -/
theorem after?_eq_none {mark : Char} {f : List Char → Option β}
    (h : ∀ r, skipBlanks u = mark :: r → False) : after? mark f u = none := by
  rw [after?]
  split
  · next c v hu =>
    have hc : ¬ c = mark := fun hc => h v (by rw [hu, hc])
    rw [if_neg hc]
  · rfl

/-- So what is read is read behind the mark. -/
theorem after?_eq_some_iff {mark : Char} {f : List Char → Option β} {y : β} :
    after? mark f u = some y ↔ ∃ r, skipBlanks u = mark :: r ∧ f r = some y := by
  constructor
  · intro h
    by_cases hmark : ∃ r, skipBlanks u = mark :: r
    · obtain ⟨r, hr⟩ := hmark
      exact ⟨r, hr, (after?_of_cons hr).symm.trans h⟩
    · rw [after?_eq_none fun r hr => hmark ⟨r, hr⟩] at h
      cases h
  · rintro ⟨r, hr, hy⟩
    exact (after?_of_cons hr).trans hy

/-- An entry of an object. -/
def keyed? (value : List Char → Option (α × List Char)) :
    List Char → Option ((Option String × α) × List Char) :=
  after? '"' fun r => (string? r).bind fun (k, u) =>
    after? ':' (fun v => (value v).map fun (x, rest) => ((k, x), rest)) u

/-- What a field is made of. -/
theorem keyed?_eq_some_iff {value : List Char → Option (α × List Char)} {k : Option String}
    {x : α} :
    keyed? value t = some ((k, x), rest) ↔
      ∃ r u v, skipBlanks t = '"' :: r ∧ string? r = some (k, u) ∧ skipBlanks u = ':' :: v ∧
        value v = some (x, rest) := by
  rw [keyed?, after?_eq_some_iff]
  constructor
  · rintro ⟨r, ht, h⟩
    -- the key, then the colon, then the value
    obtain ⟨⟨k', u⟩, hk, h⟩ := Option.bind_eq_some_iff.mp h
    obtain ⟨v, hu, h⟩ := after?_eq_some_iff.mp h
    obtain ⟨⟨x', w⟩, hx, heq⟩ := Option.map_eq_some_iff.mp h
    cases heq
    exact ⟨r, u, v, ht, hk, hu, hx⟩
  · rintro ⟨r, u, v, ht, hk, hu, hx⟩
    refine ⟨r, ht, Option.bind_eq_some_iff.mpr ⟨(k, u), hk, ?_⟩⟩
    exact after?_eq_some_iff.mpr ⟨v, hu, Option.map_eq_some_iff.mpr ⟨(x, rest), hx, rfl⟩⟩

/-! ### The step -/

theorem head?_ne {c : Char} (h : ∀ r, t = c :: r → False) : t.head? ≠ some c := fun hhead =>
  (List.head?_eq_some_iff.mp hhead).elim h

/-- Numbers and names are words alike. -/
theorem value?_succ (n : Nat) (t : List Char) : value? (n + 1) t =
    match skipBlanks t with
    | '"' :: r => (string? r).map fun (s, rest) => (.string s, rest)
    | '[' :: r => (inside? ']' (items? n) r).map fun (xs, rest) => (.array xs, rest)
    | '\x7b' :: r => (inside? '\x7d' (entries? n) r).map fun (es, rest) => (.object es, rest)
    | u => word? u := by
  rw [value?.eq_def]
  simp only
  generalize skipBlanks t = u
  split
  · rfl
  · rfl
  · rfl
  · rfl
  · next r =>
    split
    · next hclose => simp [inside?, hclose]
    · next hne =>
      have hhead : (skipBlanks r).head? ≠ some ']' := head?_ne hne
      simp only [inside?, if_neg hhead, items?_of_skipBlanks (skipBlanks_skipBlanks r)]
  · next r =>
    split
    · next hclose => simp [inside?, hclose]
    · next hne =>
      have hhead : (skipBlanks r).head? ≠ some '\x7d' := head?_ne hne
      simp only [inside?, if_neg hhead, entries?_of_skipBlanks (skipBlanks_skipBlanks r)]
  · next hnull htrue hfalse hquote hbracket hbrace =>
    -- a name in front would have been one of the first three cases
    have hname : name? u = none := by
      refine List.find?_eq_none.mpr fun p hp hfront => ?_
      obtain ⟨r, hr⟩ := List.isPrefixOf_iff_prefix.mp hfront
      simp only [names, List.mem_cons, List.not_mem_nil, or_false] at hp
      rcases hp with rfl | rfl | rfl
      · exact hnull r hr.symm
      · exact htrue r hr.symm
      · exact hfalse r hr.symm
    split
    · exact absurd rfl (hquote _)
    · exact absurd rfl (hbracket _)
    · exact absurd rfl (hbrace _)
    · rw [word?, hname]

/-- What a value begins with, blanks in front left out. -/
inductive ValueAt (n : Nat) : List Char → Json → List Char → Prop where
  | word {t x rest} (h : word? t = some (x, rest)) : ValueAt n t x rest
  | string {r s rest} (h : string? r = some (s, rest)) : ValueAt n ('"' :: r) (.string s) rest
  | array {r xs rest} (h : inside? ']' (items? n) r = some (xs, rest)) :
      ValueAt n ('[' :: r) (.array xs) rest
  | object {r es rest} (h : inside? '\x7d' (entries? n) r = some (es, rest)) :
      ValueAt n ('\x7b' :: r) (.object es) rest

/-- **A value by its first character.** This is the only place where the seven kinds are told
apart. -/
theorem value?_eq_some_iff {n : Nat} {x : Json} :
    value? (n + 1) t = some (x, rest) ↔ ValueAt n (skipBlanks t) x rest := by
  rw [value?_succ]
  generalize skipBlanks t = u
  constructor
  · intro h
    split at h
    · obtain ⟨⟨s, v⟩, hs, heq⟩ := Option.map_eq_some_iff.mp h
      cases heq
      exact .string hs
    · obtain ⟨⟨xs, v⟩, hxs, heq⟩ := Option.map_eq_some_iff.mp h
      cases heq
      exact .array hxs
    · obtain ⟨⟨es, v⟩, hes, heq⟩ := Option.map_eq_some_iff.mp h
      cases heq
      exact .object hes
    · exact .word h
  · intro h
    cases h with
    | word h =>
      -- no word begins with a quote, a bracket or a brace
      split
      · cases h
      · cases h
      · cases h
      · exact h
    | string h => simp [h]
    | array h => simp [h]
    | object h => simp [h]

/-- The items of a list are read by the one step, with values as elements. -/
theorem items?_succ (n : Nat) : items? (n + 1) = listed? ']' (value? n) (items? n) := by
  funext t
  rw [items?, listed?]
  refine congrArg (Option.bind _) (funext fun p => ?_)
  obtain ⟨x, u⟩ := p
  simp only
  split
  · next r hr => simp only [goOn?, hr, if_true, Option.bind_eq_bind, Option.map_eq_bind]; rfl
  · next r hr => simp [goOn?, hr]
  · next hcomma hclose => rw [goOn?_eq_none hcomma hclose]

/-- The entries of an object are read by the one step, with fields as elements. -/
theorem entries?_succ (n : Nat) :
    entries? (n + 1) = listed? '\x7d' (keyed? (value? n)) (entries? n) := by
  funext t
  rw [entries?, listed?, keyed?]
  -- with a quote, then with a colon, both sides go on with the same function
  split
  · next r hr =>
    rw [after?_of_cons hr]
    simp only [Option.bind_eq_bind, Option.bind_assoc]
    refine congrArg (Option.bind _) (funext fun p => ?_)
    obtain ⟨k, u⟩ := p
    simp only
    split
    · next r' hr' =>
      rw [after?_of_cons hr']
      simp only [Option.map_eq_bind, Option.bind_assoc, Function.comp_apply, Option.bind_some]
      refine congrArg (Option.bind _) (funext fun p => ?_)
      split
      · next r hr => simp only [goOn?, hr, if_true, Option.map_eq_bind]; rfl
      · next r hr => simp [goOn?, hr]
      · next hcomma hclose => rw [goOn?_eq_none hcomma hclose]
    · next hcolon =>
      rw [after?_eq_none hcolon]
      rfl
  · next hquote =>
    rw [after?_eq_none hquote]
    rfl

end ImportAtlas.Json.Reader
