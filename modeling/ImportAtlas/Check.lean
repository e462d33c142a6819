import ImportAtlas.Rules
import ImportAtlas.Graph.Cycles

/-!
# Checking a graph

A graph is checked against dependency rules, edge by edge, and for circular dependencies.

* `Violation`, `RuleSet.violations`: the edges that the rules deny, in the order of the graph.
* `CheckReport`, `RuleSet.check`: these together with the cycles.
-/

namespace ImportAtlas

/-- An edge that the rules deny, by the names its modules are shown with; `rule` is the index of the
rule that denies it, if one does. -/
structure Violation where
  source : String
  target : String
  rule : Option Nat
  reason : String
deriving DecidableEq, Repr, Inhabited

structure CheckReport where
  violations : List Violation := []
  cycles : List (List String) := []
deriving DecidableEq, Repr, Inhabited

def CheckReport.isClean (r : CheckReport) : Bool :=
  r.violations.isEmpty && r.cycles.isEmpty

/-- Why a rule denies, in its own words if it has some. -/
def Rule.reason (r : Rule) (index : Nat) : String :=
  r.spec.reason.getD
    ("denied by rule #" ++ (index + 1).repr ++ ": " ++ r.spec.source ++ " -> " ++ r.spec.target)

namespace RuleSet

/-- The violation that a dependency is, unless it is allowed. -/
def violation? (s : RuleSet) (source target : String) : Option Violation :=
  match s.decidingRule? source target with
  | some (i, r) =>
    match r.spec.policy with
    | .allow => none
    | .deny => some ⟨source, target, some i, r.reason i⟩
  | none =>
    match s.default with
    | .allow => none
    | .deny => some ⟨source, target, none, "no rule allows this dependency"⟩

/-- The edges that the rules deny, in the order of the graph. -/
def violations (s : RuleSet) (g : ModuleGraph) : List Violation :=
  g.edges.filterMap fun e => s.violation? (g.displayName e.source) (g.displayName e.target)

/-- The denied edges of a graph and, unless they are allowed, its cycles. -/
def check (s : RuleSet) (allowCycles : Bool) (g : ModuleGraph) : CheckReport :=
  { violations := s.violations g
    cycles := if allowCycles then [] else g.cycles.map (·.map g.displayName) }

end RuleSet

end ImportAtlas
