import AbstractionRefinement.Proofs.ReachedErrors
import AbstractionRefinement.Proofs.RefinementProgress
import AbstractionRefinement.Proofs.RefutedTraces

/-!
# Stalled refinements

A counterexample whose nodes are all of the current version consists of states that are listed
under the current precision.  If its refutation by interpolants taught nothing new, the explorer
would replay it under a precision that tracks the interpolants.  So for explicit states an answer
that leaves the precision unchanged meets a node of an older version, which is pruned, and the
refinement does not stall.
-/

namespace AbstractionRefinement

open AbstractionRefinement.Computation

namespace Verifier

variable {ω σ α π : Type} {verifier : Verifier ω σ α π} {budget : Budget ω}

/-- The answer of the refiner to a run of the analysis, under the current precision if all nodes
are of the current version. -/
def AnswersCurrent (verifier : Verifier ω σ α π) (precision : π) (version : Nat)
    (answer : SpuriousAnswer π) (after : RunState ω σ α) : Prop :=
  ∃ trace world last, verifier.explorer.Produces
    (fun used => Explorer.Fresh after.exploration.graph version answer.path → used = precision)
      trace ∧
    verifier.refiner trace precision world =
      (.ok (.spurious answer.refined answer.pruneIndex), last)

variable [Precision π]

theorem Explained.ensures_examine {precision : π} {version fuel : Nat} (state : RunState ω σ α)
    (explained : Explained verifier.explorer precision version state.exploration.graph) :
    (verifier.examine budget fuel precision version).Ensures state fun result after =>
      Explained verifier.explorer precision version after.exploration.graph ∧
        ∀ answer, result = .inr answer →
          verifier.AnswersCurrent precision version answer after := by
  unfold examine
  rw [ensures_bind]
  apply (explained.ensures_abstractionStep budget fuel state).mono
  intro status explored explained
  cases status with
  | exhausted =>
      simp only [Run.graph, ensures_bind, ensures_get, ensures_pure]
      exact ⟨explained, by rintro _ ⟨⟩⟩
  | idle => trivial
  | exploring => trivial
  | targetFound =>
      dsimp only
      rw [ensures_bind]
      apply (explained.ensures_nearestCounterexample explored).mono
      rintro counterexample _ ⟨rfl, produces⟩
      simp only [ensures_bind, ensures_explore, ensures_ofAnalysis]
      apply ensures_poll
      apply ensures_of_run
      intro found world run
      cases found with
      | feasible concrete =>
          simp only [Run.graph, ensures_bind, ensures_get, ensures_pure]
          exact ⟨explained, by rintro _ ⟨⟩⟩
      | spurious refined pruneIndex =>
          refine (ensures_pure _).mpr ⟨explained, ?_⟩
          rintro _ ⟨⟩
          exact ⟨_, _, _, produces, run⟩

variable {start stage next : Stage ω σ α π}

theorem Answers.explained {answer : SpuriousAnswer π} {after : RunState ω σ α}
    (answers : verifier.Answers budget stage answer after)
    (explained : Explained verifier.explorer stage.precision stage.version
      stage.state.exploration.graph) :
    Explained verifier.explorer stage.precision stage.version after.exploration.graph ∧
      verifier.AnswersCurrent stage.precision stage.version answer after := by
  obtain ⟨enough, gives⟩ := answers
  have ensured := (explained.ensures_examine stage.state).of_run (gives enough (Nat.le_refl enough))
  exact ⟨ensured.1, ensured.2 answer rfl⟩

section Reactions

variable [DecidableEq π]

omit [Precision π] in
theorem Explained.ensures_react {precision : π} {version : Nat} (answer : SpuriousAnswer π)
    (state : RunState ω σ α)
    (explained : Explained verifier.explorer precision version state.exploration.graph) :
    (verifier.react precision version answer).Ensures state fun next after =>
      Explained verifier.explorer next.1 next.2 after.exploration.graph := by
  unfold react
  simp only [Run.count, ensures_bind, ensures_modify]
  split
  case isTrue =>
    simp only [Run.graph, ensures_bind, ensures_get, ensures_pure]
    split
    case h_1 => trivial
    case h_2 position _ =>
      rw [ensures_bind]
      refine (Explained.ensures_pruneAt answer.path position _ (by exact explained)).mono ?_
      exact fun _ pruned explained => (ensures_pure _).mpr explained
  case isFalse =>
    rw [ensures_bind]
    refine (Explained.ensures_pruneAt answer.path _ _ (by exact explained)).mono ?_
    exact fun _ pruned explained =>
      (ensures_pure _).mpr ⟨explained.built.refined answer.refined, explained.sound⟩

theorem ReachedAfter.explained {changes : Nat}
    (reached : verifier.ReachedAfter budget start changes stage)
    (first : Explained verifier.explorer start.precision start.version
      start.state.exploration.graph) :
    Explained verifier.explorer stage.precision stage.version stage.state.exploration.graph := by
  have goesOn {stage next : Stage ω σ α π} (advances : verifier.Advances budget stage next)
      (explained : Explained verifier.explorer stage.precision stage.version
        stage.state.exploration.graph) :
      Explained verifier.explorer next.precision next.version next.state.exploration.graph := by
    obtain ⟨answer, after, answers, reacts⟩ := advances
    exact ((answers.explained explained).1.ensures_react answer after).of_run reacts
  induction reached with
  | start => exact first
  | same _ advances _ ih => exact goesOn advances ih
  | changed _ advances _ ih => exact goesOn advances ih

/-- If the refiner refines the precision whenever a trace is listed under it, no answer stalls
the refinement: where the precision stays the same, a node of an older version is pruned. -/
theorem prunes_of_unchanged {limits : ResourceLimits} {checks : ω → Nat} {precision : π}
    {begin : ω × ExplorationStatus} {changes : Nat} {answer : SpuriousAnswer π}
    {after : RunState ω σ α}
    (learns : ∀ trace precision world pruneIndex last,
      verifier.explorer.Produces (· = precision) trace →
        verifier.refiner trace precision world ≠ (.ok (.spurious precision pruneIndex), last))
    (reached : verifier.ReachedAfter (.start limits checks begin.1) (.first precision begin)
      changes stage)
    (answers : verifier.Answers (.start limits checks begin.1) stage answer after)
    (same : answer.refined = stage.precision) :
    ∃ position next, IsFirstStale after.exploration.graph stage.version answer.path position ∧
      verifier.pruneAt answer.path position (countRefinement after) = (.ok (), next) ∧
      verifier.Advances (.start limits checks begin.1) stage
        ⟨stage.precision, stage.version, next⟩ ∧
      next.exploration.graph.staleCount stage.version <
        after.exploration.graph.staleCount stage.version := by
  have explained := reached.explained ⟨Explorer.built_empty, ReachabilityGraph.sound_empty⟩
  obtain ⟨-, trace, world, last, produces, answered⟩ := answers.explained explained
  cases answers.stallsOrPrunes reached same with
  | stalls fresh =>
      rw [same] at answered
      exact absurd answered (learns _ _ _ _ _ (produces.mono fun used isCurrent => isCurrent fresh))
  | prunes first pruned advances fewer => exact ⟨_, _, first, pruned, advances, fewer⟩

end Reactions

end Verifier

namespace Explorer.Attests

variable {ω σ π : Type} [ExprState σ] {explorer : Explorer ω σ ControlEdge π}
  {config : SolverConfig} {initial : Expr} {precision : π} {conditions : List Expr}
  {admissible : σ → Prop}
  (attests : explorer.Attests config initial precision conditions admissible)
  (regular : ∀ state, ∀ edge ∈ explorer.enabled state, edge.Regular config)
  (refl : ∀ state, admissible state → explorer.analysis.leq precision state state = true)
include attests regular refl

theorem replaysFrom_of_producedFrom {state : σ} {steps : List (ControlEdge × σ)}
    (isAdmissible : admissible state)
    (produced : explorer.ProducedFrom (· = precision) state steps) :
    explorer.ReplaysFrom precision state steps ∧
      ∀ step ∈ steps, step.1.Regular config ∧ admissible step.2 := by
  induction produced with
  | done hits => exact ⟨.done hits, List.forall_mem_nil _⟩
  | step isCurrent lists _ ih =>
      subst isCurrent
      have regularEdge := regular _ _ lists.1
      have nextAdmissible := (attests.steps isAdmissible regularEdge lists).1
      obtain ⟨replays, along⟩ := ih nextAdmissible
      exact ⟨.step lists (refl _ nextAdmissible) replays,
        List.forall_mem_cons.mpr ⟨⟨regularEdge, nextAdmissible⟩, along⟩⟩

theorem replays_of_produces {trace : Trace σ ControlEdge}
    (produces : explorer.Produces (· = precision) trace) :
    explorer.Replays precision trace ∧ admissible trace.first ∧
      ∀ step ∈ trace.steps, step.1.Regular config ∧ admissible step.2 := by
  obtain ⟨⟨_, rfl, starts⟩, rest⟩ := produces
  have isAdmissible := (attests.starts starts).1
  obtain ⟨replays, along⟩ :=
    attests.replaysFrom_of_producedFrom regular refl isAdmissible rest
  exact ⟨⟨_, starts, refl _ isAdmissible, replays⟩, isAdmissible, along⟩

end Explorer.Attests

/-- Sequence interpolation refutes by interpolants. -/
theorem TraceChecker.exists_interpolants_of_check {σ α : Type} [ExprState σ] [ExprAction α]
    {config : SolverConfig} {initial target : Expr} {trace : Trace σ α}
    {world after : SolverStatistics} {refutation : Refutation}
    (run : sequenceInterpolation.check config initial target trace world =
      (.ok (.infeasible refutation), after)) :
    ∃ interpolants, refutation = .interpolants interpolants := by
  have ensures : (sequenceInterpolation.check config initial target trace).Ensures world
      fun outcome _ => ∀ refutation, outcome = .infeasible refutation →
        ∃ interpolants, refutation = .interpolants interpolants := by
    unfold check
    rw [ensures_bind]
    apply ensures_of_run
    intro path _ _
    dsimp only
    rw [ensures_bind]
    apply ensures_of_run
    rintro (concrete | interpolants) checked _
    · rintro _ ⟨⟩
    · unfold refuteByInterpolants
      dsimp only
      rw [ensures_bind]
      apply ensures_of_run
      rintro pruneIndex _ _ _ ⟨⟩
      exact ⟨_, rfl⟩
  exact ensures.of_run run refutation rfl

/-- A spurious answer of the refiner extends the precision by a refutation of its checker. -/
theorem infeasible_of_traceRefiner {σ α π : Type} [ExprState σ] [ExprAction α]
    {checker : TraceChecker} {refine : PrecisionRefiner π} {config : SolverConfig}
    {initial target : Expr} {trace : Trace σ α} {precision refined : π} {pruneIndex : Nat}
    {world after : SolverStatistics}
    (run : traceRefiner checker refine config initial target trace precision world =
      (.ok (.spurious refined pruneIndex), after)) :
    ∃ refutation after, checker.check config initial target trace world =
      (.ok (.infeasible refutation), after) ∧ refined = refine precision refutation := by
  unfold traceRefiner at run
  rw [bind_run] at run
  rcases checked : checker.check config initial target trace world with
    ⟨error | concrete | refutation, after'⟩
  · rw [checked] at run
    cases run
  · rw [checked] at run
    cases run
  · rw [checked] at run
    cases run
    exact ⟨refutation, _, rfl, rfl⟩

/-- Few nodes are allocated for a call and its Boolean variables can be numbered, and the
interpolants of a trace are computed over the same ranges. -/
def ExplicitState.InterpolatedCall (config : SolverConfig) (initial : Expr)
    (call : VerifierCall SolverStatistics (Located ExplicitState) ControlEdge ExplicitPrecision) :
    Prop :=
  AffordableCall config initial call ∧
    match call with
    | .refinement trace _ _ => ∀ path, PathFormula.ofTrace initial .top trace = .ok path →
        Encoding.levelTotal config path.symbols < 2147483648 ∧
          ∃ ranges, TraceChecker.SharesRanges config ranges path
    | .initialStates .. | .successors .. => True

namespace VerificationSettings

variable {config : SolverConfig} {automaton : ControlFlowAutomaton} {initial : Expr}
  {settings : VerificationSettings}
  {admits : VerifierCall SolverStatistics (Located ExplicitState) ControlEdge
    ExplicitPrecision → Prop} [DecidablePred admits]
  (workable : config.Workable) (trusted : 0 ≤ config.margin)
  (regularInitial : initial.RegularCondition config)
  (regularEdges : ∀ edge ∈ automaton.edges, edge.Regular config)
  (bySequence : settings.checker = .sequenceInterpolation)
  (interpolated : ∀ call, admits call → ExplicitState.InterpolatedCall config initial call)
include workable trusted regularInitial regularEdges bySequence interpolated

/-- What refutes a trace that is listed under the precision is not yet tracked. -/
theorem refined_ne_of_produces {trace : Trace (Located ExplicitState) ControlEdge}
    {precision refined : ExplicitPrecision} {world after : SolverStatistics} {pruneIndex : Nat}
    (produces : ((settings.automatonVerifier Abstraction.explicitValues config initial none
      ExplicitPrecision.refine automaton).restricted admits).explorer.Produces (· = precision)
        trace)
    (answered : ((settings.automatonVerifier Abstraction.explicitValues config initial none
      ExplicitPrecision.refine automaton).restricted admits).refiner trace precision world =
        (.ok (.spurious refined pruneIndex), after)) : refined ≠ precision := by
  rintro rfl
  have affordable (call) (admitted : admits call) := (interpolated call admitted).1
  have regular (located : Located ExplicitState) (edge : ControlEdge)
      (outgoing : edge ∈ automaton.outgoing located.location) : edge.Regular config :=
    regularEdges edge (List.mem_filter.mp outgoing).1
  have attests : ((settings.automatonVerifier Abstraction.explicitValues config initial none
      ExplicitPrecision.refine automaton).restricted admits).explorer.Attests config initial refined
        [] fun located => located.state.Assigns :=
    ExplicitState.attests workable regularInitial affordable (List.forall_mem_nil _)
  obtain ⟨replays, assigns, along⟩ := attests.replays_of_produces regular
    (fun located assigns => Bool.and_eq_true_iff.mpr ⟨decide_eq_true rfl, assigns.leq_refl⟩)
    produces
  obtain ⟨admitted, answered⟩ := Verifier.refiner_of_restricted answered
  have answered : traceRefiner settings.checker ExplicitPrecision.refine config initial .top trace
      refined world = (.ok (.spurious refined pruneIndex), after) := answered
  obtain ⟨refutation, last, checked, same⟩ := infeasible_of_traceRefiner answered
  rw [bySequence] at checked
  obtain ⟨refutation, rfl⟩ := TraceChecker.exists_interpolants_of_check checked
  obtain ⟨path, written⟩ := TraceChecker.exists_path_of_check checked
  have transfers (path) := (interpolated _ admitted).2 path
  obtain ⟨-, ranges, shares⟩ := transfers path written
  have regularTrace : trace.Regular config initial .top :=
    { regularInitial
      regularTarget := Expr.regularCondition_ofBool true config
      regularFirst := assigns.regularCondition config
      regularSteps := fun step member =>
        ⟨(along step member).1, (along step member).2.regularCondition config⟩
      fewLevels := fun {path} written => (transfers path written).1 }
  have currentSteps : ∀ state ∈ trace.steps.map Prod.snd, (ExprState.toExpr state).IsCurrent :=
    List.forall_mem_map.mpr fun step member => (regularTrace.regularSteps step member).2.current
  have refutes : TraceChecker.Refutes config ranges initial .top trace path refutation :=
    { currentInitial := regularInitial.current
      currentTarget := ⟨rfl, rfl⟩
      currentStates := List.forall_mem_cons.mpr ⟨regularTrace.regularFirst.current, currentSteps⟩
      written, shares
      refuted := ⟨world, last, checked⟩ }
  refine refutes.not_replays_explicit workable trusted regularTrace affordable
    (fun decl mentioned => ?_) replays
  rw [same]
  exact OrderedSet.mem_union.mpr (.inr (OrderedSet.mem_ofList.mpr mentioned))

/-- No answer of the refiner stalls a run with explicit states and interpolants for all prefixes,
if formulas do not choose between truth values and no limit is hit: where an answer leaves the
precision unchanged, a node of an older version on the path is pruned. -/
theorem prunes_of_unchanged_explicit {limits : ResourceLimits}
    {checks : SolverStatistics → Nat} {precision : ExplicitPrecision}
    {begin : SolverStatistics × ExplorationStatus} :
    let verifier := (settings.automatonVerifier Abstraction.explicitValues config initial none
      ExplicitPrecision.refine automaton).restricted admits
    ∀ {changes stage answer after},
      verifier.ReachedAfter (.start limits checks begin.1) (.first precision begin) changes stage →
      verifier.Answers (.start limits checks begin.1) stage answer after →
      answer.refined = stage.precision →
        ∃ position next,
          Verifier.IsFirstStale after.exploration.graph stage.version answer.path position ∧
          verifier.pruneAt answer.path position (Verifier.countRefinement after) = (.ok (), next) ∧
          verifier.Advances (.start limits checks begin.1) stage
            ⟨stage.precision, stage.version, next⟩ ∧
          next.exploration.graph.staleCount stage.version <
            after.exploration.graph.staleCount stage.version := by
  intro verifier changes stage answer after
  refine Verifier.prunes_of_unchanged fun trace precision world pruneIndex last produces => ?_
  intro answered
  exact refined_ne_of_produces workable trusted regularInitial regularEdges bySequence interpolated
    produces answered rfl

end VerificationSettings

section Stalls

/-- Why the usual search for a path through the statements of some edges has no verdict. -/
def undecidedReason (abstraction : Abstraction) (config : SolverConfig) (limit : Option Nat)
    (refine : PrecisionRefiner abstraction.Tracked) (precision : abstraction.Tracked)
    (initial : Expr) (path : List (List Statement)) : Option UnknownReason :=
  let locations := List.replicate (path.length + 1) ⟨"location", [], false⟩
  let edges := path.zipIdx.map fun (statements, source) => (source, source + 1, statements)
  (ControlFlowAutomaton.build locations edges (some path.length)).toOption.bind fun automaton =>
    ((usualSettings.automatonVerifier abstraction config initial limit refine automaton).verify {}
      SolverStatistics.checks 9 precision ({}, .idle)).1.outcome.reason

/-- With formulas that choose between truth values, a listed counterexample can be refuted although
nothing is learnt from it: refinement stalls with explicit states and with predicates. -/
theorem choice_stalls :
    undecidedReason .explicitValues {} none ExplicitPrecision.refine ⟨[]⟩ Analysis.eitherValue
      [[.assume Analysis.leadingChoice]] = some (.fatal (.refinementStalled 1)) ∧
    undecidedReason .predicates {} none PredicatePrecision.refine ⟨[]⟩ Analysis.eitherValue
      [[.assume Analysis.leadingChoice]] = some (.fatal (.refinementStalled 1)) := by
  decide +kernel

def gaugeBelow (number : Int) : Expr :=
  .binary .lt gauge.toExpr (.lit (.int number)) .bool

/-- The components of a product are listed apart from each other.  So the gauge may be one in a
state in which it is not below five, and what refutes the trace through this state is falsity. -/
theorem product_stalls :
    undecidedReason (.product .predicates .explicitValues)
      { Analysis.trustedConfig with defaultRange := (0, 7) } none
      (PrecisionRefiner.second ExplicitPrecision.refine) (⟨[gaugeBelow 5]⟩, ⟨[gauge]⟩)
      (.nary .or [gaugeIs 1, gaugeIs 7] .bool) [[.assume (.unary .not (gaugeIs 7) .bool)]] =
        some (.fatal (.refinementStalled 1)) := by
  decide +kernel

/-- Where there are more values than the limit, a variable that is tracked stays unknown, and the
trace that is refuted by its values is found again. -/
theorem limit_stalls :
    undecidedReason .explicitValues Analysis.trustedConfig (some 1) ExplicitPrecision.refine ⟨[]⟩
      .top [[.havoc gauge, .assume (.binary .lt (.lit (.int 0)) gauge.toExpr .bool),
        .assume (gaugeBelow 3)], [.assume (gaugeIs 3)]] = some (.fatal (.refinementStalled 3)) ∧
    (UnknownReason.fatal (.refinementStalled 3)).isDefect = true := by
  decide +kernel

end Stalls

end AbstractionRefinement
