import ImportAtlas.Fault

/-!
# Dependency rules

A rule allows or denies dependencies between the modules that two globs name. Of the rules that
match a dependency the most specific one decides, and of equally specific ones the first; a default
policy decides where none matches.

* `Rule.specificity`: how many characters of its two globs come before the first wildcard.
* `RuleSet.deciding?`: the index of the rule that decides.
* `RuleSet.decide`: the policy for a dependency.
-/

namespace ImportAtlas

inductive Policy where
  | allow
  | deny
deriving DecidableEq, Repr, Inhabited

/-- A rule as it is written: a policy, two patterns, perhaps a reason. -/
structure RuleSpec where
  policy : Policy
  source : String
  target : String
  reason : Option String := none
deriving DecidableEq, Repr, Inhabited

/-- A rule with its patterns read. -/
structure Rule where
  spec : RuleSpec
  source : Glob
  target : Glob

namespace Rule

/-- How many characters of a pattern come before its first wildcard, class or group. -/
def literalLength (pattern : String) : Nat :=
  (pattern.toList.takeWhile fun c => !(c == '*' || c == '?' || c == '[' || c == '\x7b')).length

def specificity (r : Rule) : Nat :=
  literalLength r.spec.source + literalLength r.spec.target

/-- Whether a rule is about a dependency between modules of two names. -/
def about (r : Rule) (source target : String) : Bool :=
  r.source.matches (Glob.bytesOf source.toList) && r.target.matches (Glob.bytesOf target.toList)

/-- Reads one pattern, whose `*` may match slashes. -/
def compilePattern (pattern : String) : Except Fault Glob :=
  match Glob.parse false pattern with
  | .ok g => .ok g
  | .error f => .error (.badRule pattern f)

def compile (spec : RuleSpec) : Except Fault Rule := do
  let source ← compilePattern spec.source
  let target ← compilePattern spec.target
  return { spec, source, target }

end Rule

/-- Rules in the order of their declaration, and the policy where none of them matches. -/
structure RuleSet where
  rules : List Rule := []
  default : Policy := .deny

namespace RuleSet

/-- Reads rules; the first malformed pattern is the fault. -/
def compile (specs : List RuleSpec) (default : Policy) : Except Fault RuleSet :=
  (specs.mapM Rule.compile).map (⟨·, default⟩)

/-- The better of two candidates, an earlier and a later one: the more specific, at equality the
earlier. -/
def better (best : Option (Nat × Rule)) (new : Nat × Rule) : Option (Nat × Rule) :=
  match best with
  | none => some new
  | some old => if old.2.specificity < new.2.specificity then some new else some old

/-- The rule that decides about a dependency, with its index. -/
def decidingRule? (s : RuleSet) (source target : String) : Option (Nat × Rule) :=
  let candidates := s.rules.zipIdx.map fun (r, i) => (i, r)
  (candidates.filter fun c => c.2.about source target).foldl better none

/-- The index of the rule that decides about a dependency. -/
def deciding? (s : RuleSet) (source target : String) : Option Nat :=
  (s.decidingRule? source target).map (·.1)

def decide (s : RuleSet) (source target : String) : Policy :=
  match s.decidingRule? source target with
  | some (_, r) => r.spec.policy
  | none => s.default

end RuleSet

end ImportAtlas
