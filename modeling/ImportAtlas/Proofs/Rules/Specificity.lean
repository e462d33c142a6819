import ImportAtlas.Proofs.Glob.Match
import ImportAtlas.Proofs.Glob.Read
import ImportAtlas.Proofs.Rules

/-!
# What the specificity of a rule measures

A pattern that begins with an escaped text matches only names that begin with this text. What it
adds to the specificity of its rule is another number: backslashes are counted, and an escaped
wildcard ends the count as any other one does.

* `EscapedPattern` — a text, escaped, and what may follow it;
* `Rule.literalLength_pattern` — what such a pattern adds (`Rule.counted`);
* `EscapedPattern.prefix_of_matches` — what it asks of a name;
* `RuleSet.escaped_prefixes` — which of the rules that differ in such a pattern decides;
* `RuleSet.shorter_prefix_decides` — a rule that loses to one with a shorter text.
-/

namespace ImportAtlas

open Glob (escape escapeChar isMeta)

/-- The characters that begin a wildcard, a class or a group. -/
def isOpener (c : Char) : Bool :=
  c == '*' || c == '?' || c == '[' || c == '\x7b'

/-- A text that a pattern begins with, escaped, and what follows it: nothing, or what a wildcard, a
class or a group begins. -/
structure EscapedPattern where
  text : List Char
  tail : List Char := []
  opens : ∀ c ∈ tail.head?, isOpener c
  single : ¬ ['*', '*'] <+: tail

namespace EscapedPattern

/-- The pattern that is written: the text with escapes, then the rest. -/
def pattern (p : EscapedPattern) : String :=
  String.ofList (escape p.text ++ p.tail)

/-- A text with a star behind it. -/
def starred (text : String) : EscapedPattern where
  text := text.toList
  tail := ['*']
  opens := by
    rintro c ⟨⟩
    rfl
  single := by simp

/-- A name that the pattern matches begins with its text. -/
theorem prefix_of_matches {p : EscapedPattern} {g : Glob} {name : String}
    (h : Rule.compilePattern p.pattern = .ok g) (hmatch : g.matches (Glob.bytesOf name.toList)) :
    p.text <+: name.toList := by
  have hparse : Glob.parse false p.pattern = .ok g := by
    rw [Rule.compilePattern] at h
    split at h
    · next hparse => rw [hparse, Except.ok.inj h]
    · cases h
  have htokens := Glob.prefix_of_parse_escape (String.toList_ofList ..) p.single hparse
  exact Glob.prefix_of_bytesOf_prefix (Glob.prefix_of_matches htokens hmatch)

end EscapedPattern

namespace Rule

/-! ### What is counted -/

/-- What an escaped text adds to the specificity of a rule: the escaped length of what stands before
its first wildcard, and one more for the backslash of that. -/
def counted (x : List Char) : Nat :=
  (escape (x.takeWhile (!isOpener ·))).length + (if x.all (!isOpener ·) then 0 else 1)

variable {c : Char} {x y : List Char}

/-- What may begin something is escaped. -/
theorem isMeta_of_isOpener (h : isOpener c) : isMeta c := by
  simp only [isOpener, Bool.or_eq_true, beq_iff_eq] at h
  rcases h with ((rfl | rfl) | rfl) | rfl <;> decide

/-- An escape is one character more. -/
theorem length_escapeChar (c : Char) : (escapeChar c).length = if isMeta c then 2 else 1 := by
  unfold escapeChar
  split <;> rfl

/-- A text is longer by as many characters as have to be escaped. -/
theorem length_escape (x : List Char) : (escape x).length = x.length + x.countP isMeta := by
  induction x with
  | nil => rfl
  | cons c x ih =>
    rw [escape, List.flatMap_cons, ← escape, List.length_append, ih, length_escapeChar,
      List.length_cons, List.countP_cons]
    split <;> omega

theorem counted_nil : counted [] = 0 :=
  rfl

theorem counted_of_isOpener (h : isOpener c) (x : List Char) : counted (c :: x) = 1 := by
  simp [counted, h, escape]

/-- A character that begins nothing counts, with its escape if it has one. -/
theorem counted_of_not_isOpener (h : isOpener c = false) (x : List Char) :
    counted (c :: x) = (escapeChar c).length + counted x := by
  simp only [counted, List.takeWhile_cons, h, Bool.not_false, if_true, escape, List.flatMap_cons,
    List.length_append, List.all_cons, Bool.true_and, Nat.add_assoc]

/-- What a pattern adds that begins with an escaped text. -/
theorem literalLength_pattern (p : EscapedPattern) : literalLength p.pattern = counted p.text := by
  obtain ⟨x, w, hopens, -⟩ := p
  rw [literalLength, EscapedPattern.pattern, String.toList_ofList]
  change ((escape x ++ w).takeWhile (!isOpener ·)).length = _
  induction x with
  | nil =>
    cases w with
    | nil => rfl
    | cons c w => simp [escape, counted_nil, hopens c rfl]
  | cons c x ih =>
    rw [escape, List.flatMap_cons, ← escape, List.append_assoc]
    have hbackslash : isOpener '\\' = false := by decide
    cases hc : isOpener c with
    | true =>
      -- the backslash is counted and the character behind it is taken for a wildcard
      rw [counted_of_isOpener hc]
      simp [escapeChar, isMeta_of_isOpener hc, hbackslash, hc]
    | false =>
      rw [counted_of_not_isOpener hc, ← ih]
      unfold escapeChar
      split
      · simp [hbackslash, hc]
        omega
      · simp [hc, Nat.add_comm]

/-- What is counted is the length of the text only when the backslashes before its first wildcard,
with the one in front of it, are as many as the characters from there on. -/
theorem counted_eq_length_iff (x : List Char) : counted x = x.length ↔
    (x.takeWhile (!isOpener ·)).countP isMeta + (if x.all (!isOpener ·) then 0 else 1) =
      (x.dropWhile (!isOpener ·)).length := by
  have hsplit : x.length =
      (x.takeWhile (!isOpener ·)).length + (x.dropWhile (!isOpener ·)).length := by
    rw [← List.length_append, List.takeWhile_append_dropWhile]
  rw [counted, length_escape, hsplit]
  omega

/-- Of two texts one of which begins the other, the longer one counts for more exactly if the
shorter one has no wildcard. -/
theorem counted_lt_iff (h : x <+: y) :
    counted x ≤ counted y ∧
      (counted x < counted y ↔ x.length < y.length ∧ ∀ c ∈ x, isOpener c = false) := by
  induction x generalizing y with
  | nil =>
    rw [counted_nil]
    cases y with
    | nil => simp [counted_nil]
    | cons d y =>
      have hpos : 0 < counted (d :: y) := by
        cases hd : isOpener d with
        | true => simp [counted_of_isOpener hd]
        | false =>
          rw [counted_of_not_isOpener hd, length_escapeChar]
          split <;> omega
      simp [hpos]
  | cons c x ih =>
    obtain ⟨y', rfl⟩ := h
    rw [List.cons_append]
    cases hc : isOpener c with
    | true =>
      -- nothing behind a wildcard counts
      simp [counted_of_isOpener hc, hc]
    | false =>
      obtain ⟨hle, hlt⟩ := ih (List.prefix_append x y')
      rw [counted_of_not_isOpener hc, counted_of_not_isOpener hc]
      refine ⟨Nat.add_le_add_left hle _, ?_⟩
      rw [Nat.add_lt_add_iff_left, hlt, List.length_cons, List.length_cons,
        Nat.add_lt_add_iff_right, List.forall_mem_cons, and_iff_right hc]

end Rule

/-! ### Which rule decides -/

namespace RuleSet

variable {specs : List RuleSpec} {default : Policy} {s : RuleSet} {source target : String}

/-- The rules about a dependency differ in nothing but an escaped text: each has a pattern of its
own for the source, and all of them one for the target. -/
def DifferInPrefix (specs : List RuleSpec) (source target : String)
    (patterns : Nat → EscapedPattern) (shared : String) : Prop :=
  ∀ i spec, specs[i]? = some spec → spec.Matches source target →
    spec.source = (patterns i).pattern ∧ spec.target = shared

variable {patterns : Nat → EscapedPattern} {shared : String} {i : Nat} {spec : RuleSpec}

/-- A compiled rule has a compiled source. -/
theorem source_of_compile {r : Rule} (h : Rule.compile spec = .ok r) :
    Rule.compilePattern spec.source = .ok r.source := by
  rw [Rule.compile] at h
  cases hsource : Rule.compilePattern spec.source with
  | error f => simp [hsource, bind, Except.bind] at h
  | ok g =>
    cases htarget : Rule.compilePattern spec.target with
    | error f => simp [hsource, htarget, bind, Except.bind] at h
    | ok g' =>
      simp only [hsource, htarget, bind, Except.bind, pure, Except.pure, Except.ok.injEq] at h
      rw [← h]

namespace DifferInPrefix

/-- What the pattern of a rule begins with, the source begins with. -/
theorem prefix_source (hd : DifferInPrefix specs source target patterns shared)
    (hget : specs[i]? = some spec) (hmatch : spec.Matches source target) :
    (patterns i).text <+: source.toList := by
  have hsource := (hd i spec hget hmatch).1
  obtain ⟨r, hr, habout⟩ := hmatch
  rw [Rule.about, Bool.and_eq_true] at habout
  refine EscapedPattern.prefix_of_matches ?_ habout.1
  rw [← hsource]
  exact source_of_compile hr

/-- The specificity of rules that differ in one pattern only is what counts of that and the length
of the rest. -/
theorem specificity_eq (hd : DifferInPrefix specs source target patterns shared)
    (hget : specs[i]? = some spec) (hmatch : spec.Matches source target) :
    spec.specificity = Rule.counted (patterns i).text + Rule.literalLength shared := by
  obtain ⟨hsource, htarget⟩ := hd i spec hget hmatch
  rw [RuleSpec.specificity, hsource, htarget, Rule.literalLength_pattern]

/-- A rule whose text is no longer than that of another one is no more specific, and less so exactly
if its text is shorter and has no wildcard. -/
theorem specificity_lt_iff (hd : DifferInPrefix specs source target patterns shared)
    (hget : specs[i]? = some spec) (hmatch : spec.Matches source target) {j : Nat}
    {other : RuleSpec} (hget' : specs[j]? = some other) (hmatch' : other.Matches source target)
    (hle : (patterns j).text.length ≤ (patterns i).text.length) :
    other.specificity ≤ spec.specificity ∧
      (other.specificity < spec.specificity ↔
        (patterns j).text.length < (patterns i).text.length ∧
          ∀ c ∈ (patterns j).text, isOpener c = false) := by
  -- both texts begin the same source
  have hprefix := List.prefix_of_prefix_length_le (hd.prefix_source hget' hmatch')
    (hd.prefix_source hget hmatch) hle
  obtain ⟨hcounted, hlt⟩ := Rule.counted_lt_iff hprefix
  rw [hd.specificity_eq hget hmatch, hd.specificity_eq hget' hmatch', Nat.add_lt_add_iff_right]
  exact ⟨Nat.add_le_add_right hcounted _, hlt⟩

end DifferInPrefix

/-- **Escaped prefixes.** A pattern that begins with an escaped text adds what is counted of it,
which is the length of the text only when the backslashes make up for what is not counted; a rule
with such a pattern is about names that begin with the text; and of rules that differ in such a
pattern, one with the longest text decides exactly if each of the others has a shorter text without
a wildcard, or was declared later. -/
theorem escaped_prefixes (h : RuleSet.compile specs default = .ok s)
    (hd : DifferInPrefix specs source target patterns shared) (hget : specs[i]? = some spec)
    (hmatch : spec.Matches source target)
    (hlongest : ∀ j other, specs[j]? = some other → other.Matches source target →
      (patterns j).text.length ≤ (patterns i).text.length) :
    (∀ p : EscapedPattern,
      Rule.literalLength p.pattern = Rule.counted p.text ∧
        (Rule.literalLength p.pattern = p.text.length ↔
          (p.text.takeWhile (!isOpener ·)).countP isMeta +
              (if p.text.all (!isOpener ·) then 0 else 1) =
            (p.text.dropWhile (!isOpener ·)).length)) ∧
      (∀ j other, specs[j]? = some other → other.Matches source target →
        (patterns j).text <+: source.toList) ∧
      (s.deciding? source target = some i ↔
        ∀ j other, specs[j]? = some other → other.Matches source target → j ≠ i →
          (patterns j).text.length < (patterns i).text.length ∧
              (∀ c ∈ (patterns j).text, isOpener c = false) ∨
            i < j) := by
  refine ⟨fun p => ?_, fun j other hother hmatch' => hd.prefix_source hother hmatch', ?_⟩
  · rw [Rule.literalLength_pattern]
    exact ⟨rfl, Rule.counted_eq_length_iff p.text⟩
  rw [deciding?_eq_some h]
  constructor
  · -- the deciding rule is at least as specific as any other that matches, and more so than those
    -- before it
    rintro ⟨spec', hdecides⟩ j other hother hmatch' hne
    obtain rfl : spec = spec' := Option.some.inj (hget.symm.trans hdecides.get)
    obtain ⟨-, hlt⟩ :=
      hd.specificity_lt_iff hget hmatch hother hmatch' (hlongest j other hother hmatch')
    exact (hdecides.best j other hother hmatch' hne).imp hlt.mp And.right
  · -- the longest prefix is counted at least as long as the others, so a tie is decided by the
    -- order
    intro hbest
    refine ⟨spec, hget, hmatch, fun j other hother hmatch' hne => ?_⟩
    obtain ⟨hle, hlt⟩ :=
      hd.specificity_lt_iff hget hmatch hother hmatch' (hlongest j other hother hmatch')
    rcases Nat.lt_or_eq_of_le hle with hless | heq
    · exact .inl hless
    · refine .inr ⟨heq, (hbest j other hother hmatch' hne).resolve_left fun hshorter => ?_⟩
      exact Nat.ne_of_lt (hlt.mpr hshorter) heq

/-- Up to their first star, the second pattern has the longer text once the backslashes before its
brackets are taken away. Both match, and the second rule decides. -/
theorem escaped_prefixes_of_brackets :
    let specs : List RuleSpec :=
      [⟨.allow, "src/*", "*", none⟩, ⟨.deny, "src/\\[id\\]*", "*", none⟩]
    ∃ s, RuleSet.compile specs .allow = .ok s ∧ s.deciding? "src/[id]/a" "b" = some 1 ∧
      "src/[id]".toList <+: "src/[id]/a".toList := by
  intro specs
  let patterns : Nat → EscapedPattern
    | 0 => .starred "src/"
    | _ => .starred "src/[id]"
  obtain ⟨s, h⟩ : ∃ s, RuleSet.compile specs .allow = .ok s := ⟨_, rfl⟩
  -- both patterns are escaped prefixes with a star behind, and they share their target
  have hd : DifferInPrefix specs "src/[id]/a" "b" patterns "*" := by
    intro i spec hget _
    match i with
    | 0 | 1 =>
      obtain rfl := Option.some.inj hget
      decide +kernel
    | i + 2 => cases hget
  have hmatch : RuleSpec.Matches ⟨.deny, "src/\\[id\\]*", "*", none⟩ "src/[id]/a" "b" :=
    ⟨_, rfl, by decide +kernel⟩
  have hlongest : ∀ j other, specs[j]? = some other → other.Matches "src/[id]/a" "b" →
      (patterns j).text.length ≤ (patterns 1).text.length := by
    intro j other _ _
    match j with
    | 0 => decide +kernel
    | j + 1 => exact Nat.le_refl _
  obtain ⟨-, hprefix, hdecides⟩ := escaped_prefixes h hd (i := 1) rfl hmatch hlongest
  refine ⟨s, h, hdecides.mpr fun j other hget _ hne => ?_, hprefix 1 _ rfl hmatch⟩
  match j with
  | 0 => exact .inl (by decide +kernel)
  | 1 => exact absurd rfl hne
  | j + 2 => cases hget

/-- The rule with the longer text loses: both are taken to be as specific as a single backslash. -/
theorem shorter_prefix_decides :
    let short := EscapedPattern.starred "["
    let long := EscapedPattern.starred "[id]"
    let specs : List RuleSpec :=
      [⟨.allow, "\\[*", "*", none⟩, ⟨.deny, "\\[id\\]*", "*", none⟩]
    specs.map (·.source) = [short.pattern, long.pattern] ∧
      Rule.literalLength long.pattern ≠ long.text.length ∧
      ∃ s, RuleSet.compile specs .deny = .ok s ∧
        (∀ spec ∈ specs, spec.Matches "[id]/a" "b") ∧ s.deciding? "[id]/a" "b" = some 0 := by
  intro short long specs
  have h : RuleSet.compile specs .deny = .ok _ := rfl
  refine ⟨by decide +kernel, by decide +kernel, _, h, ?_, by decide +kernel⟩
  intro spec hspec
  rcases List.mem_cons.mp hspec with rfl | hspec
  · exact ⟨_, rfl, by decide +kernel⟩
  · obtain rfl := List.mem_singleton.mp hspec
    exact ⟨_, rfl, by decide +kernel⟩

end RuleSet

end ImportAtlas
