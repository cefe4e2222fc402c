import AbstractionRefinement.GraphExploration
import AbstractionRefinement.TraceFeasibility

/-!
# The refinement loop

Exploration and refinement alternate until the graph is complete without
targets, a counterexample is feasible, or a limit is exceeded.  Precisions are
numbered by versions.  A counterexample through nodes of an older version that
teaches nothing new is pruned at its first such node; without such a node the
refinement has stalled.
-/

namespace AbstractionRefinement

/-- What a refiner finds out about a counterexample. -/
inductive RefinementResult (π : Type) where
  /-- The counterexample is feasible, with one valuation per state. -/
  | feasible (concrete : List Valuation)
  /-- It is infeasible; the graph is built again under the refined precision
  from the given state of the counterexample on. -/
  | spurious (refined : π) (pruneIndex : Nat)

/-- Analyses a counterexample found under a precision. -/
abbrev Refiner (ω σ α π : Type) := Trace σ α → π → Computation ω (RefinementResult π)

/-- The refiner that checks a counterexample as one formula and extends the
precision by its refutation. -/
def traceRefiner {σ α π : Type} [ExprState σ] [ExprAction α] (checker : TraceChecker)
    (refine : PrecisionRefiner π) (config : SolverConfig) (initial target : Expr) :
    Refiner SolverStatistics σ α π := fun trace precision => do
  match ← checker.check config initial target trace with
  | .feasible concrete => return .feasible concrete
  | .infeasible refutation =>
      return .spurious (refine precision refutation) refutation.pruneIndex

/-- What happens to the graph after a spurious counterexample. -/
inductive PruneStrategy where
  /-- Prune where the refiner says and keep the rest. -/
  | lazy
  /-- Start over. -/
  | full
deriving DecidableEq, Inhabited

/-- Why a run ended without a verdict. -/
inductive UnknownReason where
  | resource (kind : ResourceKind)
  | solver (cause : UnknownCause)
  | cancelled
  /-- An internal defect, including stalled refinement. -/
  | fatal (error : EngineError)
deriving DecidableEq, Inhabited

namespace UnknownReason

def isDefect : UnknownReason → Bool
  | fatal _ => true
  | _ => false

/-- Whether a session was refused for the size of its table. -/
def refusesTable : UnknownReason → Bool
  | fatal (.tableTooLarge _) => true
  | _ => false

/-- The reason given by an error that ended a run. -/
def ofError : EngineError → UnknownReason
  | .resourceExhausted kind => resource kind
  | .cancelled => cancelled
  | .solverUnknown cause => solver cause
  | .solver (.incomplete cause) => solver cause
  | error => fatal error

/-- The wording of a reason. -/
def display : UnknownReason → String
  | resource kind => kind.display
  | solver cause => "solver: " ++ cause.display
  | cancelled => "cancelled"
  | fatal error => "internal error: " ++ error.message

end UnknownReason

/-- Figures of a run. -/
structure RunStatistics where
  iterations : Nat := 0
  refinements : Nat := 0
  graphSize : Nat := 0
  graphDepth : Nat := 0
  precisionSize : Nat := 0
  solverChecks : Nat := 0
deriving DecidableEq, Inhabited

/-- The written form of the figures; time is not measured. -/
def RunStatistics.display (statistics : RunStatistics) : String :=
  toString statistics.iterations ++ " iteration(s), " ++
    toString statistics.refinements ++ " refinement(s), ARG " ++
    toString statistics.graphSize ++ " node(s) / depth " ++
    toString statistics.graphDepth ++ ", precision size " ++
    toString statistics.precisionSize ++ ", " ++
    toString statistics.solverChecks ++ " solver check(s), 0ns"

/-- A verdict. -/
inductive Verdict where
  | safe
  | violated
  | unknown
deriving DecidableEq, Inhabited

def Verdict.display : Verdict → String
  | safe => "SAFE"
  | violated => "UNSAFE"
  | unknown => "UNKNOWN"

/-- How a run ended. -/
inductive SafetyOutcome (σ α π : Type) where
  /-- The final graph proves that no target is reachable. -/
  | safe (graph : ReachabilityGraph σ α) (precision : π)
  /-- A counterexample with one valuation per state. -/
  | violated (trace : Trace σ α) (concrete : List Valuation)
      (graph : ReachabilityGraph σ α) (precision : π)
  | unknown (reason : UnknownReason)

namespace SafetyOutcome

variable {σ α π : Type}

def verdict : SafetyOutcome σ α π → Verdict
  | safe .. => .safe
  | violated .. => .violated
  | unknown _ => .unknown

def reason : SafetyOutcome σ α π → Option UnknownReason
  | unknown reason => some reason
  | _ => none

end SafetyOutcome

/-- An outcome with the figures of the run. -/
structure SafetyResult (σ α π : Type) where
  outcome : SafetyOutcome σ α π
  statistics : RunStatistics

/-- Everything that shapes a refinement loop. -/
structure Verifier (ω σ α π : Type) where
  explorer : Explorer ω σ α π
  refiner : Refiner ω σ α π
  prune : PruneStrategy

/-- The state of a run: that of its exploration, and the figures. -/
structure RunState (ω σ α : Type) where
  exploration : ExplorationState ω σ α
  statistics : RunStatistics

/-- A computation of the refinement loop. -/
abbrev Run (ω σ α : Type) := Computation (RunState ω σ α)

namespace Run

variable {ω σ α β : Type}

/-- A step of exploration in a run. -/
def explore (computation : Exploration ω σ α β) : Run ω σ α β := fun state =>
  let (result, exploration) := computation state.exploration
  (result, { state with exploration })

/-- Change the figures of a run. -/
def count (change : RunStatistics → RunStatistics) : Run ω σ α Unit :=
  modify fun state => { state with statistics := change state.statistics }

/-- The graph of a run. -/
def graph : Run ω σ α (ReachabilityGraph σ α) :=
  return (← get).exploration.graph

end Run

namespace Verifier

variable {ω σ α π : Type}

/-- The target node of least depth; among those, the one created first. -/
def nearestTarget? (graph : ReachabilityGraph σ α) : Option Nat :=
  let nearer (best : Option (GraphNode σ α)) (node : GraphNode σ α) :
      Option (GraphNode σ α) :=
    match best with
    | none => some node
    | some other => if node.depth < other.depth then some node else some other
  (graph.targetNodes.foldl nearer none).map GraphNode.id

/-- The first position of a path whose node was built under an older version. -/
def firstStale? (graph : ReachabilityGraph σ α) (version : Nat) (path : List Nat) :
    Option Nat :=
  path.findIdx? fun id => (graph.node? id).any fun node => node.version < version

/-- Prune the graph after a spurious counterexample. -/
def pruneAt (verifier : Verifier ω σ α π) (path : List Nat) (position : Nat) :
    Run ω σ α Unit :=
  Run.explore (Exploration.onGraph
    (match verifier.prune with
    | .full => modify ReachabilityGraph.pruneAll
    | .lazy => ReachabilityGraph.prune (path.getD position 0)))

/-- Explore under the current precision, with the figures kept up to date. -/
def abstractionStep [Precision π] (verifier : Verifier ω σ α π) (budget : Budget ω)
    (fuel : Nat) (precision : π) (version : Nat) : Run ω σ α ExplorationStatus := do
  if budget.limits.iterations.any (· ≤ (← get).statistics.iterations) then
    throw (.resourceExhausted .iterations)
  Run.explore (Exploration.poll budget)
  Run.count fun figures =>
    { figures with
      iterations := figures.iterations + 1
      precisionSize := Precision.size precision }
  let status ← Run.explore (verifier.explorer.check fuel precision version budget)
  let graph ← Run.graph
  Run.count fun figures => { figures with graphSize := graph.size, graphDepth := graph.depth }
  return status

/-- The counterexample at the nearest target. -/
def nearestCounterexample : Run ω σ α (Counterexample σ α) := do
  let graph ← Run.graph
  match nearestTarget? graph with
  | none => throw (.inconsistentGraph "no target node")
  | some target => (Counterexample.ofGraph graph target : Except EngineError _)

/-- Alternate exploration and refinement until the run ends. -/
def loop [Precision π] [DecidableEq π] (verifier : Verifier ω σ α π) (budget : Budget ω)
    (explorationFuel : Nat) :
    Nat → π → Nat → Run ω σ α (SafetyOutcome σ α π)
  | 0, _, _ => throw .outOfFuel
  | fuel + 1, precision, version => do
      match ← verifier.abstractionStep budget explorationFuel precision version with
      | .exhausted => return .safe (← Run.graph) precision
      | .targetFound => do
          let counterexample ← nearestCounterexample
          Run.explore (Exploration.poll budget)
          let found ← Run.explore (Exploration.ofAnalysis
            (verifier.refiner counterexample.trace precision))
          match found with
          | .feasible concrete =>
              return .violated counterexample.trace concrete (← Run.graph) precision
          | .spurious refined pruneIndex => do
              Run.count fun figures =>
                { figures with refinements := figures.refinements + 1 }
              let path := counterexample.nodes
              if refined = precision then
                match firstStale? (← Run.graph) version path with
                | none => throw (.refinementStalled (← get).statistics.iterations)
                | some position => do
                    verifier.pruneAt path position
                    verifier.loop budget explorationFuel fuel precision version
              else do
                verifier.pruneAt path (min pruneIndex (path.length - 1))
                verifier.loop budget explorationFuel fuel refined (version + 1)
      | status =>
          throw (.inconsistentGraph ("abstractor returned in state " ++ status.display))

/-- Verify from an initial precision: errors become an unknown outcome.  The
explorer's status before the run is kept until the first exploration. -/
def verify [Precision π] [DecidableEq π] (verifier : Verifier ω σ α π)
    (limits : ResourceLimits) (checks : ω → Nat) (fuel : Nat) (precision : π) :
    StateM (ω × ExplorationStatus) (SafetyResult σ α π) := fun (world, status) =>
  let budget := Budget.start limits checks world
  let (result, state) := verifier.loop budget fuel fuel precision 0
    { exploration := { world, graph := .empty, status }, statistics := {} }
  let outcome :=
    match result with
    | .ok outcome => outcome
    | .error error => .unknown (.ofError error)
  let world := state.exploration.world
  let statistics := { state.statistics with solverChecks := budget.solverCalls world }
  (⟨outcome, statistics⟩, (world, state.exploration.status))

end Verifier

end AbstractionRefinement
