import ImportAtlas.Proofs.Glob.Depth

/-!
# Matching part by part

The parts of a glob match one after another, and each of them leaves an end of the text that it was
given. Characters stand for their bytes, and no two texts have the same ones.

* `Glob.mem_restsOfAll_append` — what two rows of parts leave is what the second leaves of what the
  first does;
* `Glob.suffix_of_mem_restsOfAll` — what is left of a text is an end of it;
* `Glob.mem_restsOfAll_literals`, `Glob.prefix_of_matches` — literal parts match the bytes of their
  characters, and a glob that begins with them only what begins with these bytes;
* `Glob.infix_of_matches` — where literal parts stand behind a slash, what is matched has their
  characters behind one;
* `Glob.prefix_of_bytesOf_prefix`, `Glob.infix_of_bytesOf_infix` — a text whose bytes begin another
  one begins it, and likewise inside of it when it begins with a slash.
-/

namespace ImportAtlas.Glob

variable {components : Bool} {k : Token} {ks ls : List Token} {t r : Bytes} {ts : List Bytes}

/-! ### One part after another -/

/-- What several texts leave is what one of them leaves. -/
theorem mem_restsOfAll :
    r ∈ restsOfAll components ks ts ↔ ∃ t ∈ ts, r ∈ restsOfAll components ks [t] := by
  induction ks generalizing ts with
  | nil => simp [restsOfAll]
  | cons k ks ih =>
    simp only [restsOfAll, @ih (List.flatMap _ _).eraseDups, List.mem_eraseDups,
      List.mem_flatMap, List.mem_singleton, exists_eq_left]
    constructor
    · rintro ⟨u, ⟨t, ht, hu⟩, hr⟩
      exact ⟨t, ht, u, hu, hr⟩
    · rintro ⟨t, ht, u, hu, hr⟩
      exact ⟨u, ⟨t, ht, hu⟩, hr⟩

/-- A list of parts: the first takes something, and the others go on with what it has left. -/
theorem mem_restsOfAll_cons : r ∈ restsOfAll components (k :: ks) [t] ↔
    ∃ u ∈ rests components k t, r ∈ restsOfAll components ks [u] := by
  rw [restsOfAll, mem_restsOfAll]
  simp only [List.mem_eraseDups, List.flatMap_singleton]

/-- Two lists of parts, one after the other. -/
theorem mem_restsOfAll_append : r ∈ restsOfAll components (ks ++ ls) [t] ↔
    ∃ u ∈ restsOfAll components ks [t], r ∈ restsOfAll components ls [u] := by
  induction ks generalizing t with
  | nil => simp [restsOfAll]
  | cons k ks ih =>
    simp only [List.cons_append, mem_restsOfAll_cons, ih]
    constructor
    · rintro ⟨u, hu, v, hv, hr⟩
      exact ⟨v, ⟨u, hu, hv⟩, hr⟩
    · rintro ⟨v, ⟨u, hu, hv⟩, hr⟩
      exact ⟨u, hu, v, hv, hr⟩

/-! ### What is left of a text -/

/-- The ends of a text are ends of it. -/
theorem suffix_of_mem_suffixes (h : r ∈ suffixes t) : r <:+ t := by
  induction t with
  | nil => rw [List.mem_singleton.mp h]
  | cons x t ih =>
    rcases List.mem_cons.mp h with rfl | h
    · exact List.suffix_rfl
    · exact (ih h).trans (List.suffix_cons x t)

/-- What is left behind a run is an end of the text. -/
theorem suffix_of_mem_afterRun {accepts : UInt8 → Bool} (h : r ∈ afterRun accepts t) : r <:+ t := by
  induction t with
  | nil => rw [List.mem_singleton.mp h]
  | cons x t ih =>
    rw [afterRun] at h
    rcases List.mem_cons.mp h with rfl | h
    · exact List.suffix_rfl
    · split at h
      · exact (ih h).trans (List.suffix_cons x t)
      · cases h

/-- What is left behind a slash has that slash in front of it. -/
theorem suffix_of_mem_afterSlashes (h : r ∈ afterSlashes t) : slash :: r <:+ t := by
  induction t with
  | nil => cases h
  | cons x t ih =>
    rw [afterSlashes] at h
    split at h
    · next hx =>
      rcases List.mem_cons.mp h with rfl | h
      · rw [hx]
      · exact (ih h).trans (List.suffix_cons x t)
    · exact (ih h).trans (List.suffix_cons x t)

/-! The recursion is that of matching. -/

mutual

/-- **Matching goes on from left to right**: what a part leaves is an end of the text. One case for
each kind of part. -/
theorem suffix_of_mem_rests {k : Token} {t r : Bytes} (h : r ∈ rests components k t) : r <:+ t := by
  match k with
  | .literal c =>
    rw [rests, Option.mem_toList, Text.dropStart?_eq_some] at h
    rw [h]
    exact List.suffix_append _ r
  | .any =>
    match t with
    | [] => cases h
    | x :: t =>
      rw [rests] at h
      split at h
      · cases h
      · rw [List.mem_singleton.mp h]
        exact List.suffix_cons x t
  | .anyRun =>
    rw [rests] at h
    exact suffix_of_mem_afterRun h
  | .deepStart =>
    rw [rests] at h
    -- `**/` may take nothing, or all up to some slash
    rcases List.mem_cons.mp h with rfl | h
    · exact List.suffix_rfl
    · exact (List.suffix_cons slash r).trans (suffix_of_mem_afterSlashes h)
  | .deepEnd =>
    match t with
    | [] => cases h
    | x :: t =>
      rw [rests] at h
      split at h
      · -- `/**` takes a slash and anything behind it
        exact (suffix_of_mem_suffixes h).trans (List.suffix_cons x t)
      · cases h
  | .deepMiddle =>
    match t with
    | [] => cases h
    | x :: t =>
      rw [rests] at h
      split at h
      · rcases List.mem_cons.mp h with rfl | h
        · -- `/**/` takes a slash, or all up to a later one
          exact List.suffix_cons x r
        · exact ((List.suffix_cons slash r).trans (suffix_of_mem_afterSlashes h)).trans
            (List.suffix_cons x t)
      · cases h
  | .oneOf negated ranges =>
    match t with
    | [] => cases h
    | x :: t =>
      rw [rests] at h
      split at h
      · rw [List.mem_singleton.mp h]
        exact List.suffix_cons x t
      · cases h
  | .group branches =>
    rw [rests] at h
    split at h
    · rw [List.mem_singleton.mp h]
    · exact suffix_of_mem_restsOfBranches h

/-- What parts one after the other leave of a text is an end of it. -/
theorem suffix_of_mem_restsOfAll {ks : List Token} {t r : Bytes}
    (h : r ∈ restsOfAll components ks [t]) : r <:+ t := by
  match ks with
  | [] => rw [List.mem_singleton.mp h]
  | k :: ks =>
    obtain ⟨u, hu, hr⟩ := mem_restsOfAll_cons.mp h
    exact (suffix_of_mem_restsOfAll hr).trans (suffix_of_mem_rests hu)

/-- What branches beside each other leave of a text is an end of it. -/
theorem suffix_of_mem_restsOfBranches {bs : List (List Token)} {t r : Bytes}
    (h : r ∈ restsOfBranches components bs t) : r <:+ t := by
  match bs with
  | [] => cases h
  | b :: bs =>
    rw [restsOfBranches, List.mem_append] at h
    rcases h with h | h
    · -- a branch that stands for nothing is left out
      split at h
      · cases h
      · exact suffix_of_mem_restsOfAll h
    · exact suffix_of_mem_restsOfBranches h

end

/-! ### The bytes of characters -/

/-- A literal takes its bytes and leaves the rest. -/
theorem mem_rests_literal {c : Char} :
    r ∈ rests components (.literal c) t ↔ t = String.utf8EncodeChar c ++ r := by
  rw [rests, Option.mem_toList, Text.dropStart?_eq_some]

/-- Literal parts match the bytes of their characters. -/
theorem mem_restsOfAll_literals {x : List Char} :
    r ∈ restsOfAll components (x.map .literal) [t] ↔ t = bytesOf x ++ r := by
  induction x generalizing t with
  | nil => simp [restsOfAll, bytesOf, eq_comm]
  | cons c x ih =>
    rw [List.map_cons, mem_restsOfAll_cons]
    simp only [mem_rests_literal, ih, bytesOf_cons, List.append_assoc]
    constructor
    · rintro ⟨u, rfl, rfl⟩
      rfl
    · intro h
      exact ⟨_, h, rfl⟩

/-- A glob that begins with literal parts matches only what begins with their bytes. -/
theorem prefix_of_matches {g : Glob} {x : List Char} (h : x.map .literal <+: g.tokens)
    (ht : g.matches t) : bytesOf x <+: t := by
  obtain ⟨ls, hls⟩ := h
  rw [Glob.matches, ← hls] at ht
  split at ht
  · next heq =>
    -- a lone `**` begins with no literal part
    cases x with
    | nil => exact List.nil_prefix
    | cons c x => cases heq
  · obtain ⟨u, hu, -⟩ := mem_restsOfAll_append.mp (List.contains_iff_mem.mp ht)
    exact ⟨u, (mem_restsOfAll_literals.mp hu).symm⟩

/-- The bytes of a character tell where it ends. -/
theorem utf8EncodeChar_append_inj {c d : Char} {t u : Bytes}
    (h : String.utf8EncodeChar c ++ t = String.utf8EncodeChar d ++ u) : c = d ∧ t = u := by
  have hdecode : ∀ (a : Char) (v : Bytes),
      ((String.utf8EncodeChar a ++ v).toByteArray).utf8DecodeChar? 0 = some a := by
    intro a v
    rw [List.toByteArray_append, ByteArray.utf8DecodeChar?_utf8EncodeChar_append]
  have hcd := hdecode c t
  rw [h, hdecode d u] at hcd
  obtain rfl := Option.some.inj hcd
  exact ⟨rfl, List.append_cancel_left h⟩

/-- A text whose bytes begin those of another one begins it. -/
theorem prefix_of_bytesOf_prefix {x y : List Char} (h : bytesOf x <+: bytesOf y) : x <+: y := by
  induction x generalizing y with
  | nil => exact List.nil_prefix
  | cons c x ih =>
    obtain ⟨u, hu⟩ := h
    rw [bytesOf_cons, List.append_assoc] at hu
    cases y with
    | nil => simp [bytesOf] at hu
    | cons d y =>
      rw [bytesOf_cons] at hu
      -- the bytes of a character tell where it ends, so the first characters are equal
      obtain ⟨rfl, hxy⟩ := utf8EncodeChar_append_inj hu
      exact List.prefix_cons_inj c |>.mpr (ih ⟨u, hxy⟩)

/-- A slash among the bytes of a text is one of its slashes. -/
theorem exists_of_bytesOf_eq {y : List Char} {u v : Bytes} (h : bytesOf y = u ++ slash :: v) :
    ∃ y₁ y₂, y = y₁ ++ '/' :: y₂ ∧ bytesOf y₂ = v := by
  induction y generalizing u with
  | nil => simp [bytesOf] at h
  | cons c y ih =>
    rw [bytesOf_cons] at h
    have hcount := count_slash_utf8EncodeChar c
    rcases List.append_eq_append_iff.mp h with ⟨w, rfl, hy⟩ | ⟨w, hc, hv⟩
    · obtain ⟨y₁, y₂, rfl, hy₂⟩ := ih hy
      exact ⟨c :: y₁, y₂, rfl, hy₂⟩
    · cases w with
      | nil =>
        obtain ⟨y₁, y₂, rfl, hy₂⟩ := ih (u := []) hv.symm
        exact ⟨c :: y₁, y₂, rfl, hy₂⟩
      | cons x w =>
        -- the slash is a byte of the first character, which is a slash then, of one byte
        obtain ⟨rfl, rfl⟩ := List.cons.inj hv
        have hmem : slash ∈ String.utf8EncodeChar c := by
          rw [hc]
          exact List.mem_append_right _ List.mem_cons_self
        have hslash : c = '/' := by
          by_contra hne
          rw [if_neg hne] at hcount
          exact List.count_eq_zero.mp hcount hmem
        subst hslash
        have hlength : ([slash] : Bytes) = u ++ slash :: w := hc
        obtain ⟨rfl, rfl⟩ : u = [] ∧ w = [] := by
          cases u with
          | nil => exact ⟨rfl, (List.cons.inj hlength).2.symm⟩
          | cons _ u => simp at hlength
        exact ⟨[], y, rfl, rfl⟩

/-- A text that begins with a slash stands in another one if its bytes do. -/
theorem infix_of_bytesOf_infix {x y : List Char} (h : bytesOf ('/' :: x) <:+: bytesOf y) :
    '/' :: x <:+: y := by
  obtain ⟨u, v, huv⟩ := h
  have hslash : bytesOf ('/' :: x) = slash :: bytesOf x := rfl
  rw [hslash, List.append_assoc, List.cons_append] at huv
  obtain ⟨y₁, y₂, rfl, hy₂⟩ := exists_of_bytesOf_eq huv.symm
  obtain ⟨z, rfl⟩ := prefix_of_bytesOf_prefix ⟨v, hy₂.symm⟩
  exact ⟨y₁, z, by simp⟩

/-! ### Behind a slash -/

/-- A part behind which a component begins. -/
def IsSlash (k : Token) : Prop :=
  k = .literal '/' ∨ k = .deepStart ∨ k = .deepMiddle

/-- What such a part leaves stands behind a slash, or is the whole text behind a `**` at the
start. -/
theorem suffix_of_isSlash (hk : IsSlash k) (hr : r ∈ rests components k t) :
    slash :: r <:+ t ∨ k = .deepStart ∧ r = t := by
  rcases hk with rfl | rfl | rfl
  · rw [mem_rests_literal] at hr
    exact .inl (by rw [hr]; exact List.suffix_rfl)
  · rw [rests] at hr
    rcases List.mem_cons.mp hr with rfl | hr
    · -- only `**/` at the beginning can do without a slash
      exact .inr ⟨rfl, rfl⟩
    · exact .inl (suffix_of_mem_afterSlashes hr)
  · match t with
    | [] => cases hr
    | x :: t =>
      rw [rests] at hr
      split at hr
      · next hx =>
        rcases List.mem_cons.mp hr with rfl | hr
        · exact .inl (by rw [hx])
        · exact .inl ((suffix_of_mem_afterSlashes hr).trans (List.suffix_cons x t))
      · cases hr

/-- A glob in which literal parts stand behind a slash matches only texts in which their characters
do. -/
theorem infix_of_matches {g : Glob} {x y : List Char} (hx : x ≠ [])
    (htokens : g.tokens = ks ++ [k] ++ (x.map .literal ++ ls)) (hk : IsSlash k)
    (halone : k = .deepStart → ks = []) (h : g.matches (bytesOf y)) : '/' :: x <:+: '/' :: y := by
  rw [Glob.matches] at h
  split at h
  · next heq =>
    -- a lone `**` has no literal parts behind it
    have hlength := congrArg List.length (htokens.symm.trans heq)
    have hpos := List.length_pos_of_ne_nil hx
    simp only [List.length_append, List.length_map, List.length_singleton] at hlength
    omega
  · rw [List.contains_iff_mem, htokens, mem_restsOfAll_append] at h
    obtain ⟨v, hv, hrest⟩ := h
    obtain ⟨w, hw, -⟩ := mem_restsOfAll_append.mp hrest
    obtain ⟨u, hu, hv⟩ := mem_restsOfAll_append.mp hv
    obtain ⟨v', hv', heq⟩ := mem_restsOfAll_cons.mp hv
    obtain rfl : v = v' := List.mem_singleton.mp heq
    have hbehind : slash :: v <:+ slash :: bytesOf y := by
      rcases suffix_of_isSlash hk hv' with hsuffix | ⟨hstart, rfl⟩
      · exact (hsuffix.trans (suffix_of_mem_restsOfAll hu)).trans (List.suffix_cons slash _)
      · rw [halone hstart] at hu
        rw [List.mem_singleton.mp hu]
    rw [mem_restsOfAll_literals.mp hw] at hbehind
    have hfirst : bytesOf ('/' :: x) <+: slash :: (bytesOf x ++ w) := ⟨w, rfl⟩
    exact infix_of_bytesOf_infix (y := '/' :: y) (hfirst.isInfix.trans hbehind.isInfix)

end ImportAtlas.Glob
