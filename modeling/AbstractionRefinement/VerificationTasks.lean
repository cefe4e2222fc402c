import AbstractionRefinement.Abstractions
import AbstractionRefinement.ResultDescriptions
import AbstractionRefinement.TaskDescriptions

/-!
# Verification tasks

A task joins a model, an abstraction and the settings of the refinement loop
into a verifier.  The error location of an automaton, or the violation of a
system's property, is to be shown unreachable.  Counterexamples are checked
against the same initial and target conditions.
-/

namespace AbstractionRefinement

/-- Systems have no clocks. -/
instance : ClockAction TransitionAction where
  clockOperations _ := []

namespace VerificationSettings

variable (settings : VerificationSettings) (abstraction : Abstraction)
  (config : SolverConfig) (initial : Expr) (limit : Option Nat)

/-- The explorer of an automaton. -/
def automatonExplorer (automaton : ControlFlowAutomaton) :
    Explorer SolverStatistics (Located abstraction.State) ControlEdge abstraction.Tracked :=
  let inner := abstraction.analysis {
    config, initial, limit
    invariants := (automaton.locations.head?.map Location.invariants).getD []
    constants := automaton.clockConstants }
  Located.explorer automaton inner settings.search settings.stop settings.coverage

/-- The verifier of an automaton. -/
def automatonVerifier (refine : PrecisionRefiner abstraction.Tracked)
    (automaton : ControlFlowAutomaton) :
    Verifier SolverStatistics (Located abstraction.State) ControlEdge abstraction.Tracked where
  explorer := settings.automatonExplorer abstraction config initial limit automaton
  refiner := traceRefiner settings.checker refine config initial .top
  prune := settings.prune

/-- The verifier of a transition system, given the violation of its property. -/
def systemVerifier (refine : PrecisionRefiner abstraction.Tracked)
    (system : TransitionSystem) (violation : Expr) :
    Verifier SolverStatistics abstraction.State TransitionAction abstraction.Tracked where
  explorer := {
    analysis := abstraction.analysis {
      config, initial := system.initial, limit, invariants := [], constants := [] }
    enabled := fun _ => [system.action]
    target := targetFormula config violation
    projection := fun _ => 0
    strategy := settings.search
    stop := settings.stop
    coverage := settings.coverage }
  refiner := traceRefiner settings.checker refine config system.initial violation
  prune := settings.prune

end VerificationSettings

/-- Run a verifier several times; the state of its world and its status go on. -/
def VerificationSettings.runAll {ω σ α π : Type} [Precision π] [DecidableEq π]
    (settings : VerificationSettings) (verifier : Verifier ω σ α π) (checks : ω → Nat)
    (fuel : Nat) (precision : π) :
    Nat → ω × ExplorationStatus → List (SafetyResult σ α π × ω × ExplorationStatus)
  | 0, _ => []
  | runs + 1, start =>
      let (result, final) :=
        verifier.verify settings.limits (settings.countedChecks checks) fuel precision start
      (result, final) :: settings.runAll verifier checks fuel precision runs final

/-- A finished run of a task. -/
structure FinishedRun where
  summary : Summary
  report : Description

namespace Abstraction

/-- The refiner that a task asks for. -/
def refinerOfDescription (abstraction : Abstraction) (byCores : Bool)
    (description : Description) : Reading (PrecisionRefiner abstraction.Tracked) := do
  abstraction.refiner byCores
    (← description.listField "side" ProductSide.ofDescription)

/-- The precision that a task starts with. -/
def initialPrecision (abstraction : Abstraction) (vocabulary : Vocabulary)
    (description : Description) : Reading abstraction.Tracked := do
  abstraction.trackedOf vocabulary (← description.field "prec")

/-- Run the verification task that is described. -/
def runTask (abstraction : Abstraction) (vocabulary : Vocabulary) (config : SolverConfig)
    (fuel : Nat) (description : Description) : Reading (List FinishedRun) := do
  let settings ← VerificationSettings.ofDescription description
  let initial ← initialOfDescription vocabulary description
  let limit ← limitOfDescription description
  let refine ← abstraction.refinerOfDescription (settings.checker = .unsatCore) description
  let precision ← abstraction.initialPrecision vocabulary description
  let finish {σ α : Type} [Display σ] [Display α]
      (verifier : Verifier SolverStatistics σ α abstraction.Tracked) : List FinishedRun :=
    let results := settings.runAll verifier SolverStatistics.checks fuel precision settings.runs
      ({}, .idle)
    results.map fun (result, statistics, status) =>
      ⟨.ofResult result, .record
        (result.fields status ++ [("solver", toDescription statistics)])⟩
  match description.field? "cfa" with
  | some model => do
      let automaton ← ControlFlowAutomaton.ofDescription vocabulary model
      return finish
        (settings.automatonVerifier abstraction config initial limit refine automaton)
  | none => do
      let system ← TransitionSystem.ofDescription vocabulary (← description.field "sts")
      if abstraction.timed then malformed
      else
        let violation ← readFormula system.violation
        return finish
          (settings.systemVerifier abstraction config limit refine system violation)

end Abstraction

end AbstractionRefinement
