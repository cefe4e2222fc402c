import AbstractionRefinement.Proofs.AutomatonVerdicts
import AbstractionRefinement.Proofs.FeasibilityVerdicts
import AbstractionRefinement.Proofs.GraphOrigins
import AbstractionRefinement.Proofs.LocatedStates

/-!
# Executions behind a violated verdict

The trace of a violated verdict is a run of the analysis along edges of the automaton, from
the initial location to the error location.  The checker found it feasible, so an execution
within the configured intervals follows it and reaches the error.
-/

namespace AbstractionRefinement

open AbstractionRefinement.Computation

namespace Located

variable {ω σ π : Type} {automaton : ControlFlowAutomaton} {inner : Analysis ω σ ControlEdge π}
  {strategy : SearchStrategy} {stop : StopCriterion} {coverage : CoverageMode}

section Explicit

variable {config : SolverConfig} {initial : Expr}
  {admits : VerifierCall SolverStatistics (Located ExplicitState) ControlEdge
    ExplicitPrecision → Prop} [DecidablePred admits]
  (workable : config.Workable) (positive : 0 < config.margin)
  (supported : automaton.Supported initial config)
  (small : ∀ call, admits call → SmallTransfer config initial call)
include workable positive supported small

/-- The run of a restricted analysis goes along edges between well-formed states, and it is a
run of the analysis. -/
theorem steps_of_producedFrom {mayUse : ExplicitPrecision → Prop}
    {located : Located ExplicitState} {steps : List (ControlEdge × Located ExplicitState)}
    (wellFormed : located.state.WellFormed (automaton.vocabulary initial))
    (produced : ((explorer automaton (ExplicitState.analysis config initial none) strategy stop
      coverage).restricted admits).ProducedFrom mayUse located steps) :
    (explorer automaton (ExplicitState.analysis config initial none) strategy stop
      coverage).ProducedFrom mayUse located steps ∧
    ∀ step ∈ steps, step.1 ∈ automaton.edges ∧
      step.2.state.WellFormed (automaton.vocabulary initial) := by
  have soundFor := soundFor_explicit workable positive supported small strategy stop coverage
  induction produced with
  | done hits => exact ⟨.done hits, by simp⟩
  | step allowed steps' _ ih =>
      obtain ⟨enabled, world, states, after, run, member⟩ := steps'
      have wellFormed' := soundFor.successors_admissible wellFormed enabled run _ member
      obtain ⟨produced, along⟩ := ih wellFormed'
      have run := (Analysis.successors_of_restricted run).2
      exact ⟨.step allowed ⟨enabled, world, states, after, run, member⟩ produced,
        List.forall_mem_cons.mpr ⟨⟨(List.mem_filter.mp enabled).1, wellFormed'⟩, along⟩⟩

end Explicit

/-- An execution along a run of the analysis reaches the error location. -/
theorem exists_reachable_of_producedFrom {initial : Expr} [ExprState σ]
    {region : Expr → Store → Prop} {inside : Store → Prop}
    (within : ∀ formula store, inside store → region formula store) {mayUse : π → Prop}
    {located : Located σ} {steps : List (ControlEdge × Located σ)}
    (produced : (explorer automaton inner strategy stop coverage).ProducedFrom mayUse located
      steps) {target : Expr} {store : Store} {stores : List Store}
    (followed : Trace.FollowedFrom inside target store steps stores)
    (reached : (automaton.executions initial region).Reachable ⟨located.location, store⟩) :
    ∃ current, (automaton.executions initial region).Reachable current ∧
      some current.location = automaton.error := by
  induction produced generalizing store stores with
  | done hits =>
      have atError := location_of_hits hits
      exact ⟨_, reached, atError⟩
  | step _ steps' _ ih =>
      cases followed with
      | step executes _ rest =>
          obtain ⟨outgoing, arrives⟩ := location_of_steps steps'
          exact ih rest (.step reached ⟨outgoing, arrives, executes.mono (within _)⟩)

end Located

namespace Trace

theorem FollowedFrom.inside_first {σ : Type} [ExprState σ] {inside : Store → Prop}
    {target : Expr} {store : Store} {steps : List (ControlEdge × σ)} {stores : List Store}
    (followed : FollowedFrom inside target store steps stores) : inside store := by
  cases followed with
  | done inside _ => exact inside
  | step executes _ _ => exact executes.inside_first

end Trace

/-- A feasible answer of the refiner is one of its checker. -/
theorem check_of_traceRefiner {σ α π : Type} [ExprState σ] [ExprAction α]
    {checker : TraceChecker} {refine : PrecisionRefiner π} {config : SolverConfig}
    {initial target : Expr} {trace : Trace σ α} {precision : π} {world after : SolverStatistics}
    {concrete : List Valuation}
    (run : traceRefiner checker refine config initial target trace precision world =
      (.ok (.feasible concrete), after)) :
    ∃ after, checker.check config initial target trace world = (.ok (.feasible concrete), after) := by
  unfold traceRefiner at run
  rw [bind_run] at run
  rcases checked : checker.check config initial target trace world with
    ⟨error | concrete' | refutation, after'⟩
  · rw [checked] at run
    cases run
  · rw [checked] at run
    cases run
    exact ⟨_, rfl⟩
  · rw [checked] at run
    cases run

/-- The initial condition and the edges are encoded exactly and have values within the
configured intervals. -/
structure ControlFlowAutomaton.Regular (config : SolverConfig) (automaton : ControlFlowAutomaton)
    (initial : Expr) : Prop extends automaton.Supported initial config where
  definedInitial : initial.Defined config
  definedEdge {edge : ControlEdge} : edge ∈ automaton.edges →
    ∀ statement ∈ edge.statements, statement.Defined config

/-- The session that the checker takes for a call allocates few nodes. -/
def Located.SmallRefinement (checker : TraceChecker) (config : SolverConfig) (initial : Expr) :
    VerifierCall SolverStatistics (Located ExplicitState) ControlEdge ExplicitPrecision → Prop
  | .refinement trace _ world => checker.StaysSmall config initial .top trace world
  | .initialStates .. | .successors .. => True

/-- If the verdict is violated, an execution within the configured intervals reaches the error
location, whatever the settings, the limits and the precision are, as long as every session
allocates at most `32767` nodes.  The formulas of the trace have less Boolean variables than
literals can be numbered. -/
theorem VerificationSettings.error_reached_of_violated {config : SolverConfig}
    {automaton : ControlFlowAutomaton} {initial : Expr} (workable : config.Workable)
    (positive : 0 < config.margin) (regular : automaton.Regular config initial)
    (settings : VerificationSettings) (refine : PrecisionRefiner ExplicitPrecision)
    (limits : ResourceLimits) (checks : SolverStatistics → Nat) (fuel : Nat)
    (precision : ExplicitPrecision) (start : SolverStatistics × ExplorationStatus)
    (small : ∀ call ∈ (settings.automatonVerifier Abstraction.explicitValues config initial none
      refine automaton).calls limits checks fuel precision start,
        Located.SmallTransfer config initial call ∧
          Located.SmallRefinement settings.checker config initial call)
    {trace : Trace (Located ExplicitState) ControlEdge} {concrete : List Valuation}
    {graph : ReachabilityGraph (Located ExplicitState) ControlEdge} {last : ExplicitPrecision}
    (violated : ((settings.automatonVerifier Abstraction.explicitValues config initial none refine
      automaton).verify limits checks fuel precision start).1.outcome =
        .violated trace concrete graph last)
    (fewLevels : ∀ path, PathFormula.ofTrace initial .top trace = .ok path →
      Encoding.levelTotal config path.symbols < 2147483648) :
    ∃ current, (automaton.executions initial fun _ => config.InRange).Reachable current ∧
      some current.location = automaton.error := by
  classical
  let verifier := settings.automatonVerifier Abstraction.explicitValues config initial none refine
    automaton
  let admits call := Located.SmallTransfer config initial call ∧
    Located.SmallRefinement settings.checker config initial call
  have same := verifier.verify_restricted admits small
  have violated := (congrArg (fun result => result.outcome) same).trans violated
  have confirmed : (verifier.restricted admits).Confirmed (.violated trace concrete graph last) :=
    violated ▸ (verifier.restricted admits).confirmed_of_verify limits checks fuel precision start
  obtain ⟨⟨⟨used, -, world, states, after, run, member⟩, produced⟩, world', after', refined⟩ :=
    confirmed
  have supported := regular.toSupported
  have transfers (call) : admits call → Located.SmallTransfer config initial call := And.left
  have soundFor := Located.soundFor_explicit workable positive supported transfers
    settings.search settings.stop settings.coverage
  have wellFormed := soundFor.initial_admissible run _ member
  obtain ⟨produced, along⟩ :=
    Located.steps_of_producedFrom workable positive supported transfers wellFormed produced
  have regularTrace : trace.Regular config initial .top :=
    { regularInitial := ⟨supported.properInitial, regular.definedInitial⟩
      regularTarget := Expr.regularCondition_ofBool true config
      regularFirst := wellFormed.regularCondition_toExpr config
      regularSteps := fun step member =>
        ⟨⟨supported.properEdge (along step member).1, regular.definedEdge (along step member).1⟩,
          (along step member).2.regularCondition_toExpr config⟩
      fewLevels := fun {path} => fewLevels path }
  obtain ⟨admitted, refined⟩ := Verifier.refiner_of_restricted refined
  obtain ⟨after, checked⟩ := check_of_traceRefiner refined
  obtain ⟨-, stores, ⟨holds, -, rest⟩, -⟩ :=
    TraceChecker.decides_of_check workable regularTrace admitted.2 checked
  have initialLocation := Located.location_of_starts
    ⟨world, states, _, (Analysis.initialStates_of_restricted run).2, member⟩
  exact Located.exists_reachable_of_producedFrom (fun _ _ inside => inside) produced rest
    (.initial ⟨initialLocation, holds, rest.inside_first⟩)

end AbstractionRefinement
