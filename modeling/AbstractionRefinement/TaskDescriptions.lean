import AbstractionRefinement.DescriptionTrees
import AbstractionRefinement.RefinementLoop

/-!
# Descriptions of verification settings

A verification task says in which order nodes are explored, when exploration
stops, how nodes are covered, how the graph is pruned, how counterexamples are
checked and which limits hold.  Every setting has a usual value.
-/

namespace AbstractionRefinement

/-- The priority of a node that a text names, computed from the number of the
node and its depth. -/
def priorityNamed : String → Option (Nat → Nat → Int)
  | "shallow" => some fun _ depth => -(wrapInt64 depth)
  | "half" => some fun _ depth => -((depth / 2 : Nat) : Int)
  | "deep" => some fun _ depth => wrapInt64 depth
  | "index" => some fun node _ => node
  | "parity" => some fun node _ => (node % 2 : Nat)
  | "constant" => some fun _ _ => 7
  | _ => none

/-- A search strategy. -/
def SearchStrategy.ofDescription : Description → Reading SearchStrategy
  | .text "bfs" => .ok breadthFirst
  | .text "dfs" => .ok depthFirst
  | .record [("random", seed)] => random <$> seed.asWord64
  | .record [("priority", .text name)] =>
      match priorityNamed name with
      | some rank => .ok (priority rank)
      | none => malformed
  | _ => malformed

/-- A stop criterion. -/
def StopCriterion.ofDescription : Description → Reading StopCriterion
  | .text "first" => .ok firstTarget
  | .text "full" => .ok never
  | description => targets <$> description.asWord64

/-- A coverage mode. -/
def CoverageMode.ofDescription : Description → Reading CoverageMode
  | .text "none" => .ok none
  | .text "single" => .ok single
  | .text "join" => .ok join
  | _ => malformed

/-- A prune strategy. -/
def PruneStrategy.ofDescription : Description → Reading PruneStrategy
  | .text "lazy" => .ok lazy
  | .text "full" => .ok full
  | _ => malformed

/-- A way to refute traces. -/
def TraceChecker.ofDescription : Description → Reading TraceChecker
  | .text "seq" => .ok sequenceInterpolation
  | .text "bin" => .ok binaryInterpolation
  | .text "core" => .ok unsatCore
  | _ => malformed

/-- Limits of a run; an absent one does not exist. -/
def ResourceLimits.ofDescription (description : Description) : Reading ResourceLimits := do
  let limit (name : String) : Reading (Option Nat) :=
    description.fieldOr name (fun d => some <$> d.asWord64) none
  return {
    iterations := ← limit "iterations"
    solverCalls := ← limit "calls"
    timeout := ← limit "timeout_ms"
    cancelled := ← description.fieldOr "cancel" Description.asTruth false }

/-- Everything about a verification task but its model and its abstraction. -/
structure VerificationSettings where
  search : SearchStrategy
  stop : StopCriterion
  coverage : CoverageMode
  prune : PruneStrategy
  checker : TraceChecker
  limits : ResourceLimits
  /-- How often the same verifier runs. -/
  runs : Nat
  /-- Whether solver checks count against the limits. -/
  counted : Bool

/-- The settings of a task. -/
def VerificationSettings.ofDescription (description : Description) :
    Reading VerificationSettings := do
  let runs ← description.fieldOr "repeat" Description.asWord64 1
  if runs = 0 then malformed
  else
    return {
      search := ← description.fieldOr "search" SearchStrategy.ofDescription .breadthFirst
      stop := ← description.fieldOr "stop" StopCriterion.ofDescription .firstTarget
      coverage := ← description.fieldOr "coverage" CoverageMode.ofDescription .single
      prune := ← description.fieldOr "prune" PruneStrategy.ofDescription .lazy
      checker :=
        ← description.fieldOr "checker" TraceChecker.ofDescription .sequenceInterpolation
      limits := ← description.fieldOr "limits" ResourceLimits.ofDescription {}
      runs
      counted := !description.hasField "uncounted" }

/-- The number of checks that count against the limits. -/
def VerificationSettings.countedChecks {ω : Type} (settings : VerificationSettings)
    (checks : ω → Nat) (world : ω) : Nat :=
  if settings.counted then checks world else 0

end AbstractionRefinement
