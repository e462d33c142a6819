import ImportAtlas.Text.Chars
import ImportAtlas.Text.Numeric
import Mathlib.Data.List.Infix

/-!
# Cutting and trimming texts

What the operations on lists of characters give for texts that were put together from parts.

* `Text.Blanks`, `Text.Solid` — texts of blanks only, and texts that `trim` leaves alone; a solid
  text is what trimming leaves of it between blanks (`trim_pad`);
* `Text.splitFirst?_eq_none`, `Text.splitFirst?_eq_some`, `Text.splitFirst?_append` — where a part
  stands first;
* `Text.append_cons_inj`, `Text.append_cons_inj_last` — a text has one first and one last element of
  a class;
* `Text.cutAt_append_cons`, `Text.mem_cutAt_of_infix` — the pieces between separators, and a word
  between two separators as one of them; `Text.cutAt_append`, `Text.cutAt_join` — the pieces of
  texts that were put together;
* `Text.lines_append_cons`, `Text.lines_join_cons` — the lines of a text; `Text.words_append`,
  `Text.words_append_blanks`, `Text.words_trim` — its words;
* `Text.not_isBlank_of_isAlphanumeric` — letters and digits are no blanks.
-/

namespace ImportAtlas.Text

variable {t b b' : List Char}

/-- What is said of all characters of a text is decided by going through the text, and not through
all characters that there are. -/
instance (priority := high) decidableForallMem (t : List Char) (p : Char → Prop) [DecidablePred p] :
    Decidable (∀ c ∈ t, p c) :=
  List.decidableBAll p t

/-! ### The first of a class -/

section First

variable {α : Type} {P : α → Prop} {u v x y : List α} {c d : α}

/-- A text has one first element of a class. -/
theorem append_cons_inj (h : u ++ c :: x = v ++ d :: y) (hu : ∀ a ∈ u, ¬ P a) (hc : P c)
    (hv : ∀ a ∈ v, ¬ P a) (hd : P d) : u = v ∧ c = d ∧ x = y := by
  -- both texts go on together until one of them comes to its element of the class, and then the
  -- other does
  induction u generalizing v with
  | nil =>
    cases v with
    | nil => simpa using h
    | cons a v =>
      obtain ⟨rfl, -⟩ := List.cons.inj h
      exact absurd hc (hv _ (.head _))
  | cons a u ih =>
    cases v with
    | nil =>
      obtain ⟨rfl, -⟩ := List.cons.inj h
      exact absurd hd (hu _ (.head _))
    | cons b v =>
      obtain ⟨rfl, hrest⟩ := List.cons.inj h
      obtain ⟨rfl, hcd⟩ := ih hrest (fun a ha => hu a (.tail _ ha)) fun a ha => hv a (.tail _ ha)
      exact ⟨rfl, hcd⟩

/-- A text has one last element of a class. -/
theorem append_cons_inj_last (h : u ++ c :: x = v ++ d :: y) (hx : ∀ a ∈ x, ¬ P a) (hc : P c)
    (hy : ∀ a ∈ y, ¬ P a) (hd : P d) : u = v ∧ c = d ∧ x = y := by
  have hrev : x.reverse ++ c :: u.reverse = y.reverse ++ d :: v.reverse := by
    simpa using congrArg List.reverse h
  obtain ⟨hxy, rfl, huv⟩ := append_cons_inj hrev (fun a ha => hx a (List.mem_reverse.mp ha)) hc
    (fun a ha => hy a (List.mem_reverse.mp ha)) hd
  exact ⟨List.reverse_injective huv, rfl, List.reverse_injective hxy⟩

/-- A text that is cut at a character, in an end that has this character once. -/
theorem eq_append_of_cut {c : Char} {v y rest s r : List Char}
    (h : v ++ (y ++ c :: rest) = s ++ c :: r) (hrest : c ∉ rest) (hy : c ∉ y)
    (hlen : v.length ≤ s.length) : s = v ++ y := by
  obtain ⟨z, rfl⟩ : v <+: s := List.prefix_of_prefix_length_le ⟨_, rfl⟩ ⟨_, h.symm⟩ hlen
  have hcut : y ++ c :: rest = z ++ c :: r := by simpa using h
  -- there is one such character on the left, so there is no more on the right
  have hcount := congrArg (List.count c) hcut
  simp only [List.count_append, List.count_cons_self, List.count_eq_zero_of_not_mem hrest,
    List.count_eq_zero_of_not_mem hy] at hcount
  have hr : c ∉ r := List.count_eq_zero.mp (by omega)
  have hinj := append_cons_inj_last (P := (· = c)) hcut (fun a ha heq => hrest (heq ▸ ha)) rfl
    (fun a ha heq => hr (heq ▸ ha)) rfl
  rw [hinj.1]

end First

/-! ### Known beginnings and ends -/

/-- A known beginning is dropped exactly if it is there. -/
theorem dropStart?_eq_some {α : Type} [DecidableEq α] {known t r : List α} :
    dropStart? known t = some r ↔ t = known ++ r := by
  induction known generalizing t with
  | nil => simp [dropStart?]
  | cons k ks ih =>
    cases t with
    | nil => simp [dropStart?]
    | cons c t =>
      rw [dropStart?]
      split
      · next h => simp [ih, h]
      · next h => simp [Ne.symm h]

/-- Without it nothing is dropped. -/
theorem dropStart?_eq_none {known : List Char} (h : ∀ r, t ≠ known ++ r) :
    dropStart? known t = none := by
  rw [Option.eq_none_iff_forall_not_mem]
  exact fun r hr => h r (dropStart?_eq_some.mp hr)

/-- A known end is dropped. -/
theorem dropEnd?_append (t known : List Char) : dropEnd? known (t ++ known) = some t := by
  have h : dropStart? known.reverse (t ++ known).reverse = some t.reverse := by
    rw [dropStart?_eq_some, List.reverse_append]
  rw [dropEnd?, h, Option.map_some, List.reverse_reverse]

/-! ### Trimming -/

/-- Only blanks. -/
def Blanks (t : List Char) : Prop :=
  ∀ c ∈ t, isBlank c

instance : DecidablePred Blanks :=
  List.decidableBAll (fun c => isBlank c)

/-- A text with no blank at either end. -/
structure Solid (t : List Char) : Prop where
  head : ∃ c r, t = c :: r ∧ isBlank c = false
  last : ∃ r c, t = r ++ [c] ∧ isBlank c = false

theorem Blanks.nil : Blanks [] := by
  simp [Blanks]

theorem Blanks.space : Blanks [' '] :=
  List.forall_mem_singleton.mpr (by decide)

/-- Blanks behind blanks are blanks. -/
theorem Blanks.append (hb : Blanks b) (hb' : Blanks b') : Blanks (b ++ b') := by
  intro c hc
  exact (List.mem_append.mp hc).elim (hb c) (hb' c)

/-- A text without blanks is solid, unless it is empty. -/
theorem Solid.of_forall (hne : t ≠ []) (h : ∀ c ∈ t, isBlank c = false) : Solid t where
  head := by
    obtain ⟨c, r, rfl⟩ := List.exists_cons_of_ne_nil hne
    exact ⟨c, r, rfl, h c (.head _)⟩
  last := ⟨_, _, (List.dropLast_append_getLast hne).symm, h _ (List.getLast_mem hne)⟩

theorem Solid.singleton {c : Char} (hc : isBlank c = false) : Solid [c] :=
  ⟨⟨c, [], rfl, hc⟩, ⟨[], c, rfl, hc⟩⟩

/-- A solid text is not empty, as it has a first character. -/
theorem Solid.ne_nil (h : Solid t) : t ≠ [] := by
  obtain ⟨c, r, rfl, -⟩ := h.head
  exact List.cons_ne_nil c r

/-- A text is solid when its beginning and its end are. -/
theorem Solid.append {u : List Char} (mid : List Char) (ht : Solid t) (hu : Solid u) :
    Solid (t ++ mid ++ u) where
  head := by
    obtain ⟨c, r, rfl, hc⟩ := ht.head
    exact ⟨c, _, List.cons_append .., hc⟩
  last := by
    obtain ⟨r, c, rfl, hc⟩ := hu.last
    exact ⟨_, c, (List.append_assoc ..).symm, hc⟩

theorem trimStart_append (hb : Blanks b) (t : List Char) : trimStart (b ++ t) = trimStart t :=
  List.dropWhile_append_of_pos hb

/-- Blanks at the end of a text make no difference to trimming its end. -/
theorem trimEnd_append (t : List Char) (hb : Blanks b) : trimEnd (t ++ b) = trimEnd t := by
  rw [trimEnd, trimEndOf, List.reverse_append,
    List.dropWhile_append_of_pos fun c hc => hb c (List.mem_reverse.mp hc)]
  rfl

/-- A text that begins with no blank is not trimmed at its start. -/
theorem trimStart_of_head {c : Char} (hc : isBlank c = false) (r : List Char) :
    trimStart (c :: r) = c :: r :=
  List.dropWhile_cons_of_neg (by simp [hc])

/-- A text that ends in no blank is not trimmed at its end. -/
theorem trimEnd_of_last (r : List Char) {c : Char} (hc : isBlank c = false) :
    trimEnd (r ++ [c]) = r ++ [c] := by
  rw [trimEnd, trimEndOf, List.reverse_append, List.reverse_singleton, List.singleton_append,
    List.dropWhile_cons_of_neg (by simp [hc])]
  simp

/-- Trimming stops at a character that is no blank. -/
theorem trimStart_append_cons (t : List Char) {c : Char} (hc : isBlank c = false) (r : List Char) :
    trimStart (t ++ c :: r) = trimStart t ++ c :: r := by
  rw [trimStart, List.dropWhile_append]
  split
  · next h => rw [trimStart, List.isEmpty_iff.mp h, List.nil_append]; exact trimStart_of_head hc r
  · rfl

/-- Trimming the end stops at a character that is no blank. -/
theorem trimEnd_append_cons (t : List Char) {c : Char} (hc : isBlank c = false) (r : List Char) :
    trimEnd (t ++ c :: r) = t ++ c :: trimEnd r := by
  have h := trimStart_append_cons r.reverse hc t.reverse
  simp only [trimEnd, trimEndOf, trimStart] at h ⊢
  simp [h]

/-- A text that is not blank is trimmed in the same way whatever stands before it. -/
theorem trimEnd_append_of_ne_nil (h : trimEnd t ≠ []) (u : List Char) :
    trimEnd (u ++ t) = u ++ trimEnd t := by
  rw [trimEnd, trimEndOf, List.reverse_append, List.dropWhile_append,
    if_neg (by simpa [trimEnd, trimEndOf] using h), List.reverse_append, List.reverse_reverse]
  rfl

/-- Nothing is left of blanks. -/
theorem Blanks.trimStart_eq (hb : Blanks b) : trimStart b = [] := by
  have h := trimStart_append hb []
  rwa [List.append_nil] at h

theorem Blanks.trimEnd_eq (hb : Blanks b) : trimEnd b = [] :=
  trimEnd_append [] hb

/-- What is trimmed away at the start are blanks. -/
theorem exists_trimStart (t : List Char) : ∃ b, Blanks b ∧ t = b ++ trimStart t :=
  ⟨_, fun _ hc => List.all_eq_true.mp List.all_takeWhile _ hc,
    List.takeWhile_append_dropWhile.symm⟩

/-- What a text begins with behind its blanks, it begins with however it goes on. -/
theorem prefix_trimStart_append {w : List Char} (hw : Solid w) (h : w <+: trimStart t)
    (r : List Char) : w <+: trimStart (t ++ r) := by
  obtain ⟨b, hb, ht⟩ := exists_trimStart t
  obtain ⟨z, hz⟩ := h
  obtain ⟨c, u, rfl, hc⟩ := hw.head
  refine ⟨z ++ r, ?_⟩
  rw [ht, ← hz, List.append_assoc, trimStart_append hb, List.append_assoc, List.cons_append,
    trimStart_of_head hc]

/-- What is trimmed away at the end are blanks. -/
theorem exists_trimEnd (t : List Char) : ∃ b, Blanks b ∧ t = trimEnd t ++ b := by
  obtain ⟨b, hb, ht⟩ := exists_trimStart t.reverse
  refine ⟨b.reverse, fun c hc => hb c (List.mem_reverse.mp hc), ?_⟩
  simpa [trimEnd, trimEndOf, trimStart] using congrArg List.reverse ht

/-- Trimming the end adds no character. -/
theorem mem_of_mem_trimEnd {c : Char} (h : c ∈ trimEnd t) : c ∈ t := by
  obtain ⟨b, -, ht⟩ := exists_trimEnd t
  rw [ht]
  exact List.mem_append_left b h

/-- Trimming adds no character. -/
theorem mem_of_mem_trim {c : Char} (h : c ∈ trim t) : c ∈ t := by
  obtain ⟨b, -, ht⟩ := exists_trimStart t
  rw [ht]
  exact List.mem_append_right b (mem_of_mem_trimEnd h)

/-- Without the blanks at its end, a text begins with the blanks that trimming takes away. -/
theorem exists_trimEnd_eq (t : List Char) : ∃ b, Blanks b ∧ trimEnd t = b ++ trim t := by
  obtain ⟨b, hb, ht⟩ := exists_trimStart t
  rw [trim]
  -- a text of blanks is trimmed to nothing from both sides; any other has a first character that is
  -- no blank, and trimming the end does not go past it
  cases hstart : trimStart t with
  | nil =>
    rw [hstart, List.append_nil] at ht
    exact ⟨[], .nil, Blanks.trimEnd_eq (ht ▸ hb)⟩
  | cons c r =>
    have hc : isBlank c = false := by
      have hhead := List.head?_dropWhile_not isBlank t
      rw [show t.dropWhile isBlank = c :: r from hstart] at hhead
      simpa using hhead
    rw [hstart] at ht
    refine ⟨b, hb, ?_⟩
    rw [ht, trimEnd_append_cons b hc, show c :: r = [] ++ c :: r from rfl,
      trimEnd_append_cons [] hc]
    rfl

/-- A text is what is left of it between blanks. -/
theorem exists_trim (t : List Char) : ∃ b b', Blanks b ∧ Blanks b' ∧ t = b ++ trim t ++ b' := by
  obtain ⟨b, hb, hstart⟩ := exists_trimEnd_eq t
  obtain ⟨b', hb', hend⟩ := exists_trimEnd t
  exact ⟨b, b', hb, hb', by rw [← hstart, ← hend]⟩

/-- What blanks around a text there are makes no difference to trimming. -/
theorem trim_between (hb : Blanks b) (t : List Char) (hb' : Blanks b') :
    trim (b ++ t ++ b') = trim t := by
  rw [trim, List.append_assoc, trimStart_append hb, trimStart, List.dropWhile_append]
  split
  · next h =>
    -- nothing but blanks
    have ht : t.dropWhile isBlank = [] := by simpa using h
    rw [show b'.dropWhile isBlank = [] from hb'.trimStart_eq, trim, trimStart, ht]
  · rw [trimEnd_append _ hb']
    rfl

/-- A solid text is not trimmed. -/
theorem Solid.trim_eq (ht : Solid t) : trim t = t := by
  obtain ⟨c, r, hhead, hc⟩ := ht.head
  obtain ⟨r', c', hlast, hc'⟩ := ht.last
  rw [trim, hhead, trimStart_of_head hc, ← hhead, hlast, trimEnd_of_last r' hc']

/-- Trimming takes the blanks around a solid text away. -/
theorem trim_pad (hb : Blanks b) (ht : Solid t) (hb' : Blanks b') : trim (b ++ t ++ b') = t :=
  (trim_between hb t hb').trans ht.trim_eq

/-- Nothing is left of blanks when they are trimmed. -/
theorem Blanks.trim_eq (hb : Blanks b) : trim b = [] := by
  rw [trim, hb.trimStart_eq]
  rfl

/-! ### The first place of a part -/

/-- A text is not split exactly if the part does not stand in it. -/
theorem splitFirst?_eq_none {part : List Char} :
    splitFirst? part t = none ↔ ¬ part <:+: t := by
  induction t with
  | nil => cases part <;> simp [splitFirst?]
  | cons c r ih =>
    rw [splitFirst?]
    split
    · -- the part stands at the beginning
      next after h =>
      rw [dropStart?_eq_some] at h
      simp only [reduceCtorEq, false_iff, not_not]
      exact ⟨[], after, by simp [h]⟩
    · -- it does not, so it stands in the rest or nowhere
      next h =>
      have hprefix : ¬ part <+: c :: r := by
        rintro ⟨after, hafter⟩
        rw [dropStart?_eq_some.mpr hafter.symm] at h
        exact absurd h (by simp)
      rw [Option.map_eq_none_iff, ih, List.infix_cons_iff, not_or, and_iff_right hprefix]

/-- A part does not end in a text that its last character does not stand in. -/
theorem infix_of_infix_append {part u : List Char} {c : Char} (hlast : part.getLast? = some c)
    (hc : c ∉ u) (h : part <:+: t ++ u) : part <:+: t := by
  obtain ⟨x, y, h⟩ := h
  obtain ⟨init, rfl⟩ := List.getLast?_eq_some_iff.mp hlast
  -- the last character would stand in the second text, if the part ended there
  have hcut : t ++ u = (x ++ init) ++ c :: y := by simp [← h]
  rcases List.append_eq_append_iff.mp hcut with ⟨z, -, hu⟩ | ⟨z, ht, hz⟩
  · exact absurd (hu ▸ List.mem_append_right z (.head y)) hc
  · cases z with
    | nil =>
      have hu : u = c :: y := hz.symm
      exact absurd (hu ▸ .head y) hc
    | cons d z =>
      obtain ⟨rfl, -⟩ := List.cons.inj hz
      exact ⟨x, z, by simp [ht]⟩

/-- A text and the part without its last character stand before the last character of the part. -/
theorem prefix_of_append_dropLast (before part after : List Char) :
    before ++ part.dropLast <+: before ++ part ++ after := by
  rw [List.append_assoc, List.prefix_append_right_inj]
  exact (List.dropLast_prefix part).trans (List.prefix_append part after)

/-- A part stands first behind a text when it does not stand in the text and its own beginning. -/
theorem splitFirst?_append {part : List Char} (hpart : part ≠ []) {before : List Char}
    (h : ¬ part <:+: before ++ part.dropLast) (after : List Char) :
    splitFirst? part (before ++ part ++ after) = some (before, after) := by
  induction before with
  | nil =>
    obtain ⟨c, r, rfl⟩ := List.exists_cons_of_ne_nil hpart
    have hdrop : dropStart? (c :: r) (c :: (r ++ after)) = some after := dropStart?_eq_some.mpr rfl
    rw [List.nil_append, List.cons_append, splitFirst?, hdrop]
  | cons c before ih =>
    have hnone : dropStart? part (c :: (before ++ part ++ after)) = none := by
      refine dropStart?_eq_none fun r hr => ?_
      -- the part would end before the last character of the part behind the text
      have hwhole : part <+: c :: (before ++ part ++ after) := ⟨r, hr.symm⟩
      have hshort : c :: before ++ part.dropLast <+: c :: (before ++ part ++ after) :=
        prefix_of_append_dropLast (c :: before) part after
      refine h (List.prefix_of_prefix_length_le hwhole hshort ?_).isInfix
      simp only [List.length_append, List.length_cons, List.length_dropLast]
      omega
    have hrest : ¬ part <:+: before ++ part.dropLast := fun hin => h (List.infix_cons hin)
    rw [List.cons_append, List.cons_append, splitFirst?, hnone]
    simp only [ih hrest, Option.map_some]

/-- A text is split at the first place of the part: there the part stands, and it does not stand in
what comes before together with its own beginning. -/
theorem splitFirst?_eq_some {part : List Char} (hpart : part ≠ []) {before after : List Char} :
    splitFirst? part t = some (before, after) ↔
      t = before ++ part ++ after ∧ ¬ part <:+: before ++ part.dropLast := by
  refine ⟨fun h => ?_, fun ⟨ht, hfirst⟩ => ht ▸ splitFirst?_append hpart hfirst after⟩
  induction t generalizing before after with
  | nil => simp [splitFirst?, hpart] at h
  | cons c r ih =>
    rw [splitFirst?] at h
    split at h
    · next rest hdrop =>
      obtain ⟨rfl, rfl⟩ := Prod.mk.inj (Option.some.inj h)
      refine ⟨by simp [dropStart?_eq_some.mp hdrop], fun hin => ?_⟩
      have hlength := hin.length_le
      have hpos := List.length_pos_iff.mpr hpart
      simp only [List.nil_append, List.length_dropLast] at hlength
      omega
    · next hdrop =>
      obtain ⟨⟨before', after'⟩, hrest, heq⟩ := Option.map_eq_some_iff.mp h
      obtain ⟨rfl, rfl⟩ := Prod.mk.inj heq
      obtain ⟨hr, hfirst⟩ := ih hrest
      refine ⟨by rw [hr]; rfl, fun hin => ?_⟩
      -- the part does not stand at the beginning, and not further on by induction
      rcases List.infix_cons_iff.mp hin with hprefix | hin
      · obtain ⟨z, hz⟩ := hprefix.trans (prefix_of_append_dropLast (c :: before') part after')
        have hbegin : c :: r = part ++ z := by rw [hz, hr]; rfl
        rw [dropStart?_eq_some.mpr hbegin] at hdrop
        exact absurd hdrop (by simp)
      · exact hfirst hin

/-- A text is split at a character that does not stand before it. -/
theorem splitFirst?_singleton {c : Char} {before : List Char} (h : c ∉ before)
    (after : List Char) : splitFirst? [c] (before ++ c :: after) = some (before, after) := by
  have hnone : ¬ [c] <:+: before ++ [c].dropLast := by
    rw [List.dropLast_singleton, List.append_nil]
    exact fun hin => h (hin.subset (.head _))
  simpa using splitFirst?_append (List.cons_ne_nil c []) hnone after

/-! ### Pieces -/

section Pieces

variable {sep : Char → Bool} {c : Char} {x y w : List Char}

/-- There is always a piece. -/
theorem cutAt_ne_nil (t : List Char) : cutAt sep t ≠ [] := by
  cases t with
  | nil => simp [cutAt]
  | cons c r =>
    rw [cutAt]
    split
    · simp
    · split <;> simp

/-- There is one piece more than there are separators. -/
theorem length_cutAt (t : List Char) : (cutAt sep t).length = t.countP sep + 1 := by
  induction t with
  | nil => rfl
  | cons c r ih =>
    obtain ⟨p, ps, hcut⟩ := List.exists_cons_of_ne_nil (@cutAt_ne_nil sep r)
    rw [hcut] at ih
    rw [cutAt, hcut, List.countP_cons]
    split
    · rw [List.length_cons, ih]
    · exact ih

/-- No piece has a separator in it. -/
theorem not_sep_of_mem_cutAt {t : List Char} : ∀ p ∈ cutAt sep t, ∀ c ∈ p, ¬ sep c := by
  induction t with
  | nil => simp [cutAt]
  | cons a t ih =>
    intro p hp c hc
    rw [cutAt] at hp
    -- a separator begins a new piece, another character is put before the first one
    split at hp
    · rcases List.mem_cons.mp hp with rfl | hp
      · exact absurd hc List.not_mem_nil
      · exact ih p hp c hc
    · next ha =>
      split at hp
      · rw [List.mem_singleton.mp hp, List.mem_singleton] at hc
        rwa [hc]
      · next q qs heq =>
        rw [heq] at ih
        rcases List.mem_cons.mp hp with rfl | hp
        · rcases List.mem_cons.mp hc with rfl | hc
          · exact ha
          · exact ih q List.mem_cons_self c hc
        · exact ih p (List.mem_cons_of_mem _ hp) c hc

/-- The characters of a piece are characters of the text. -/
theorem subset_of_mem_cutAt {t : List Char} : ∀ p ∈ cutAt sep t, p ⊆ t := by
  induction t with
  | nil => simp [cutAt]
  | cons c r ih =>
    obtain ⟨q, qs, hcut⟩ := List.exists_cons_of_ne_nil (@cutAt_ne_nil sep r)
    obtain ⟨hq, hqs⟩ := List.forall_mem_cons.mp (hcut ▸ ih)
    have hlater : ∀ p ∈ qs, p ⊆ c :: r := fun p hp => List.subset_cons_of_subset c (hqs p hp)
    -- a separator makes an empty piece, another character goes into the first one
    rw [cutAt, hcut]
    split
    · exact List.forall_mem_cons.mpr ⟨List.nil_subset _, List.forall_mem_cons.mpr
        ⟨List.subset_cons_of_subset c hq, hlater⟩⟩
    · exact List.forall_mem_cons.mpr ⟨List.cons_subset_cons c hq, hlater⟩

/-- Without a separator the text is one piece. -/
theorem cutAt_of_not_sep (h : ∀ c ∈ t, ¬ sep c) : cutAt sep t = [t] := by
  induction t with
  | nil => rfl
  | cons c t ih =>
    obtain ⟨hc, ht⟩ := List.forall_mem_cons.mp h
    rw [cutAt, if_neg hc, ih ht]

theorem cutAt_of_not_mem (h : c ∉ t) : cutAt (· == c) t = [t] :=
  cutAt_of_not_sep fun _ ha hac => h (beq_iff_eq.mp hac ▸ ha)

/-- A separator parts the pieces before it from those after it. -/
theorem cutAt_append_cons (hc : sep c) (t r : List Char) :
    cutAt sep (t ++ c :: r) = cutAt sep t ++ cutAt sep r := by
  induction t with
  | nil => simp [cutAt, hc]
  | cons a t ih =>
    rw [List.cons_append, cutAt, cutAt, ih]
    split
    · rfl
    · match hcut : cutAt sep t with
      | [] => exact absurd hcut (cutAt_ne_nil t)
      | p :: ps => rfl

/-- Where two texts meet, the last piece of one and the first of the other are one piece. -/
theorem cutAt_append {p q : List Char} {ps qs : List (List Char)} (hx : cutAt sep x = ps ++ [p])
    (hy : cutAt sep y = q :: qs) : cutAt sep (x ++ y) = ps ++ (p ++ q) :: qs := by
  induction x generalizing ps p with
  | nil =>
    -- of the empty text the empty piece is the only one
    obtain ⟨rfl, hp⟩ | ⟨-, hp⟩ := List.append_eq_singleton_iff.mp (hx.symm.trans (by rfl))
    · obtain rfl : p = [] := by simpa using hp
      exact hy
    · simp at hp
  | cons c x ih =>
    rw [List.cons_append, cutAt]
    rw [cutAt] at hx
    split
    · next hc =>
      rw [if_pos hc] at hx
      cases ps with
      | nil => exact absurd (List.cons.inj hx).2 (cutAt_ne_nil x)
      | cons a ps =>
        obtain ⟨rfl, htail⟩ := List.cons.inj hx
        rw [ih htail]
        rfl
    · next hc =>
      rw [if_neg hc] at hx
      cases hcut : cutAt sep x with
      | nil => exact absurd hcut (cutAt_ne_nil x)
      | cons a as =>
        simp only [hcut] at hx
        -- the character joins the first piece, which may be the last as well
        cases ps with
        | nil =>
          obtain ⟨rfl, rfl⟩ := List.cons.inj hx
          rw [ih (show cutAt sep x = [] ++ [a] from hcut)]
          rfl
        | cons b ps =>
          obtain ⟨rfl, rfl⟩ := List.cons.inj hx
          rw [ih (show cutAt sep x = (a :: ps) ++ [p] from hcut)]
          rfl

theorem join_cons_cons (sep p q : List Char) (ps : List (List Char)) :
    join sep (p :: q :: ps) = p ++ sep ++ join sep (q :: ps) := rfl

/-- Joined texts are the first of them and, for each other one, a separator and it. -/
theorem join_cons (sep p : List Char) (ps : List (List Char)) :
    join sep (p :: ps) = p ++ ps.flatMap (sep ++ ·) := by
  induction ps generalizing p with
  | nil => simp [join]
  | cons q ps ih =>
    rw [join_cons_cons, ih]
    simp

/-- One more text at the end comes with a separator before it. -/
theorem join_concat (sep : List Char) {ps : List (List Char)} (hne : ps ≠ []) (p : List Char) :
    join sep (ps ++ [p]) = join sep ps ++ sep ++ p := by
  obtain ⟨q, qs, rfl⟩ := List.exists_cons_of_ne_nil hne
  rw [List.cons_append, join_cons, join_cons]
  simp

/-- Texts without the separator, joined by it, are cut into themselves. -/
theorem cutAt_join {c : Char} {parts : List (List Char)} (hne : parts ≠ [])
    (h : ∀ p ∈ parts, c ∉ p) : cutAt (· == c) (join [c] parts) = parts := by
  induction parts with
  | nil => exact absurd rfl hne
  | cons p ps ih =>
    obtain ⟨hp, hps⟩ := List.forall_mem_cons.mp h
    have hcut : cutAt (· == c) p = [p] := cutAt_of_not_mem hp
    have hstep : ∀ r, cutAt (· == c) (p ++ c :: r) = cutAt (· == c) p ++ cutAt (· == c) r :=
      @cutAt_append_cons (· == c) c (beq_self_eq_true c) p
    -- behind the first text there is nothing, or a separator and the others
    cases ps with
    | nil => exact hcut
    | cons q qs =>
      rw [join_cons_cons, List.append_assoc, List.singleton_append, hstep, hcut,
        ih (List.cons_ne_nil q qs) hps, List.singleton_append]

/-- Pieces that each have a separator behind them; behind the last one nothing follows. -/
theorem cutAt_flatMap_concat {c : Char} {parts : List (List Char)} (h : ∀ p ∈ parts, c ∉ p) :
    cutAt (· == c) (parts.flatMap (· ++ [c])) = parts ++ [[]] := by
  induction parts with
  | nil => rfl
  | cons p ps ih =>
    obtain ⟨hp, hps⟩ := List.forall_mem_cons.mp h
    have hstep : ∀ r, cutAt (· == c) (p ++ c :: r) = cutAt (· == c) p ++ cutAt (· == c) r :=
      @cutAt_append_cons (· == c) c (beq_self_eq_true c) p
    rw [List.flatMap_cons, List.append_assoc, List.singleton_append, hstep, cutAt_of_not_mem hp,
      ih hps]
    rfl

/-- The pieces joined are the text. -/
theorem join_cutAt (c : Char) (t : List Char) : join [c] (cutAt (· == c) t) = t := by
  induction t with
  | nil => rfl
  | cons d t ih =>
    obtain ⟨p, ps, hp⟩ := List.exists_cons_of_ne_nil (@cutAt_ne_nil (· == c) t)
    rw [hp] at ih
    rw [cutAt, hp]
    split
    · next hd => rw [join_cons_cons, ih, beq_iff_eq.mp hd]; rfl
    · rw [← ih, join_cons, join_cons]
      rfl

/-- What stands between two separators is a piece, and not the last one. -/
theorem mem_cutAt_of_infix {s s' : Char} (hs : sep s) (hs' : sep s')
    (hw : ∀ c ∈ w, ¬ sep c) (h : s :: w ++ [s'] <:+: t) : w ∈ (cutAt sep t).dropLast := by
  obtain ⟨x, y, rfl⟩ := h
  have htext : x ++ (s :: w ++ [s']) ++ y = x ++ s :: (w ++ s' :: y) := by simp
  rw [htext, cutAt_append_cons hs, cutAt_append_cons hs', cutAt_of_not_sep hw, ← List.append_assoc,
    List.dropLast_append_of_ne_nil (cutAt_ne_nil y)]
  simp

/-- Separators make no pieces but empty ones. -/
theorem mem_cutAt_append (hx : ∀ c ∈ x, sep c) (hw : w ∈ cutAt sep (x ++ y)) :
    w = [] ∨ w ∈ cutAt sep y := by
  induction x with
  | nil => exact .inr hw
  | cons c x ih =>
    obtain ⟨hc, hx⟩ := List.forall_mem_cons.mp hx
    rw [List.cons_append, cutAt, if_pos hc, List.mem_cons] at hw
    exact hw.imp_right (ih hx) |>.elim .inl id

end Pieces

/-- Blanks at both ends of a text make no difference to its trimmed pieces. -/
theorem map_trim_cutAt_pad (hb : Blanks b) (hbsep : ∀ c ∈ b, ¬ sep c) (t : List Char)
    (hb' : Blanks b') (hbsep' : ∀ c ∈ b', ¬ sep c) :
    (cutAt sep (b ++ t ++ b')).map trim = (cutAt sep t).map trim := by
  -- blanks at the start become part of the first piece
  have hstart : (cutAt sep (b ++ t)).map trim = (cutAt sep t).map trim := by
    obtain ⟨q, qs, hq⟩ := List.exists_cons_of_ne_nil (@cutAt_ne_nil sep t)
    rw [cutAt_append (show cutAt sep b = [] ++ [b] from cutAt_of_not_sep hbsep) hq, hq]
    simpa using trim_between hb q .nil
  -- and those at the end part of the last
  have hend : ∀ t, (cutAt sep (t ++ b')).map trim = (cutAt sep t).map trim := by
    intro t
    obtain ⟨ps, p, hp⟩ : ∃ ps p, cutAt sep t = ps ++ [p] :=
      ⟨_, _, (List.dropLast_append_getLast (cutAt_ne_nil t)).symm⟩
    rw [cutAt_append hp (cutAt_of_not_sep hbsep'), hp]
    simpa using trim_between .nil p hb'
  rw [hend, hstart]

/-! ### Lines -/

/-- A line has a carriage return at its end that is dropped, or it is left as it is. -/
theorem dropReturn_eq (t : List Char) : dropReturn t = t ∨ t = dropReturn t ++ ['\r'] := by
  rw [dropReturn, dropEnd?]
  cases h : dropStart? ['\r'].reverse t.reverse with
  | none => exact .inl rfl
  | some r =>
    have hr := congrArg List.reverse (dropStart?_eq_some.mp h)
    exact .inr (by simpa using hr)

/-- Up to its end the first line stands alone, without its carriage return. -/
theorem lines_append_cons (h : '\n' ∉ t) (r : List Char) :
    lines (t ++ '\n' :: r) = dropReturn t :: lines r := by
  have hcut : cutAt (· == '\n') t = [t] := cutAt_of_not_mem h
  have hstep : cutAt (· == '\n') (t ++ '\n' :: r) = cutAt (· == '\n') t ++ cutAt (· == '\n') r :=
    @cutAt_append_cons (· == '\n') '\n' (beq_self_eq_true '\n') t r
  rw [lines, lines, hstep, hcut]
  cases hr : cutAt (· == '\n') r with
  | nil => exact absurd hr (cutAt_ne_nil r)
  | cons p ps => rfl

/-- Joined lines are the first of them and the others. -/
theorem lines_join_cons (h : '\n' ∉ t) (u : List Char) (us : List (List Char)) :
    lines (join ['\n'] (t :: u :: us)) = dropReturn t :: lines (join ['\n'] (u :: us)) := by
  rw [join_cons_cons, List.append_assoc, List.singleton_append, lines_append_cons h]

/-- A text without a line end is one line, unless it is empty. -/
theorem lines_of_not_mem (h : '\n' ∉ t) (hne : t ≠ []) : lines t = [t] := by
  have hcut : cutAt (· == '\n') t = [t] := cutAt_of_not_mem h
  rw [lines, hcut, lines.go]
  simp [hne]

/-! ### Words -/

/-- The words of a text are those on both sides of a blank. -/
theorem words_append_cons {c : Char} (hc : isBlank c) (t r : List Char) :
    words (t ++ c :: r) = words t ++ words r := by
  rw [words, cutAt_append_cons hc, List.filter_append]
  rfl

/-- A text without blanks is one word. -/
theorem words_of_not_isBlank (hne : t ≠ []) (h : ∀ c ∈ t, isBlank c = false) : words t = [t] := by
  rw [words, cutAt_of_not_sep fun c hc => by simp [h c hc]]
  simp [hne]

/-- A word is not empty, and has no blanks in it. -/
theorem mem_words {w : List Char} (h : w ∈ words t) : w ≠ [] ∧ ∀ c ∈ w, isBlank c = false := by
  obtain ⟨hw, hne⟩ := List.mem_filter.mp h
  exact ⟨by simpa using hne, fun c hc => by simpa using not_sep_of_mem_cutAt w hw c hc⟩

/-- Blanks before a text do not change its words. -/
theorem words_blanks_append (hb : Blanks b) (t : List Char) : words (b ++ t) = words t := by
  induction b with
  | nil => rfl
  | cons c b ih =>
    obtain ⟨hc, hb⟩ := List.forall_mem_cons.mp hb
    exact (words_append_cons hc [] (b ++ t)).trans (ih hb)

/-- Which blanks stand between two texts makes no difference to the words. -/
theorem words_append_blanks (hne : b ≠ []) (hb : Blanks b) (t r : List Char) :
    words (t ++ (b ++ r)) = words t ++ words r := by
  obtain ⟨c, b, rfl⟩ := List.exists_cons_of_ne_nil hne
  obtain ⟨hc, hb⟩ := List.forall_mem_cons.mp hb
  rw [List.cons_append, words_append_cons hc, words_blanks_append hb]

/-- A word in front of blanks is the first word. -/
theorem words_append {w : List Char} (hne : w ≠ []) (hw : ∀ c ∈ w, isBlank c = false)
    (hb0 : b ≠ []) (hb : Blanks b) (t : List Char) : words (w ++ b ++ t) = w :: words t := by
  rw [List.append_assoc, words_append_blanks hb0 hb, words_of_not_isBlank hne hw,
    List.singleton_append]

/-- Blanks behind a text do not change its words. -/
theorem words_append_of_blanks (t : List Char) (hb : Blanks b) : words (t ++ b) = words t := by
  cases b with
  | nil => rw [List.append_nil]
  | cons c r =>
    have hwords := words_append_blanks (List.cons_ne_nil c r) hb t []
    rwa [List.append_nil, show words [] = [] from rfl, List.append_nil] at hwords

/-- Trimming a text does not change its words. -/
theorem words_trim (t : List Char) : words (trim t) = words t := by
  obtain ⟨b, b', hb, hb', ht⟩ := exists_trim t
  calc words (trim t) = words (b ++ trim t) := (words_blanks_append hb _).symm
    _ = words (b ++ trim t ++ b') := (words_append_of_blanks _ hb').symm
    _ = words t := by rw [← ht]

/-- A text without words is blank. -/
theorem blanks_of_words_eq_nil (h : words t = []) : Blanks t := by
  induction t with
  | nil => exact .nil
  | cons c r ih =>
    by_cases hc : isBlank c
    · have hwords : words (c :: r) = words r := words_append_cons hc [] r
      exact List.forall_mem_cons.mpr ⟨hc, ih (hwords ▸ h)⟩
    · -- the first word begins with `c`
      obtain ⟨p, ps, hp⟩ := List.exists_cons_of_ne_nil (@cutAt_ne_nil isBlank r)
      rw [words, cutAt, if_neg hc, hp] at h
      simp at h

/-! ### Letters and digits -/

/-- The code points of the blanks beyond ASCII. -/
def lateBlanks : List Nat :=
  [0x85, 0xA0, 0x1680, 0x2000, 0x2001, 0x2002, 0x2003, 0x2004, 0x2005, 0x2006, 0x2007, 0x2008,
   0x2009, 0x200A, 0x2028, 0x2029, 0x202F, 0x205F, 0x3000]

/-- The blanks beyond ASCII are those of the list. -/
theorem mem_lateBlanks {c : Char} (h : isBlank c) (hlate : 128 ≤ c.toNat) :
    c.toNat ∈ lateBlanks := by
  simp only [isBlank, Bool.or_eq_true, Bool.and_eq_true, decide_eq_true_eq, beq_iff_eq] at h
  simp only [lateBlanks, List.mem_cons, List.not_mem_nil, or_false]
  omega

/-- The blanks beyond ASCII are in none of the tables of letters and numbers. -/
theorem not_inRanges_of_lateBlank : ∀ n ∈ lateBlanks,
    inRanges alphabeticRanges n = false ∧ inRanges numericRanges n = false := by
  decide +kernel

/-- What is checked for each ASCII character holds for all of them. -/
theorem forall_early {P : Char → Prop} (h : ∀ n < 128, P (Char.ofNat n)) :
    ∀ c : Char, c.toNat < 128 → P c := fun c hc => by
  have hchar := h c.toNat hc
  rwa [Char.ofNat_toNat] at hchar

/-- No ASCII blank is a letter or a digit. -/
theorem not_isAlphanumeric_of_earlyBlank :
    ∀ c : Char, c.toNat < 128 → isBlank c → isAlphanumeric c = false :=
  forall_early (by decide +kernel)

/-- Letters and digits are no blanks. -/
theorem not_isBlank_of_isAlphanumeric {c : Char} (h : isAlphanumeric c) : isBlank c = false := by
  rw [Bool.eq_false_iff]
  intro hblank
  by_cases hearly : c.toNat < 128
  · simp [not_isAlphanumeric_of_earlyBlank c hearly hblank] at h
  · obtain ⟨halpha, hnum⟩ := not_inRanges_of_lateBlank _ (mem_lateBlanks hblank (by omega))
    simp [isAlphanumeric, isAlphabetic, isNumeric, hearly, halpha, hnum] at h

end ImportAtlas.Text
