import AbstractionRefinement.TraceFeasibility
import AbstractionRefinement.Proofs.QueryRuns

/-!
# Verdicts of trace checkers

Each checker asserts the formulas of a trace.  It reports a model when a check of all
of them is satisfiable, and a refutation when a check of some of them is not.  Both are
right if the session of the checker allocated few nodes.
-/

namespace AbstractionRefinement

open AbstractionRefinement.Computation

/-- A feasible outcome is a model of the trace's formulas, and an infeasible one
excludes their solutions. -/
def Feasibility.Judges (config : SolverConfig) (path : PathFormula) : Feasibility → Prop
  | feasible concrete =>
      ∃ model, config.Solves path.steps model ∧ concrete = path.concretize model
  | infeasible _ => config.Excludes path.steps

namespace Session

variable {session : Session}

theorem createMarker_state {marker : Nat} (created : (createMarker session).1 = .ok marker) :
    marker = session.markers ∧
      (createMarker session).2 = { session with markers := marker + 1 } := by
  generalize run : createMarker session = outcome at created ⊢
  unfold createMarker at run
  rw [SessionState.bind_run, SessionState.get_run] at run
  dsimp only at run
  split at run
  case isTrue =>
    rw [← run] at created ⊢
    cases created
    exact ⟨rfl, rfl⟩
  case isFalse =>
    rw [← run] at created
    cases created

/-- A partition that is known takes a formula as the session does. -/
theorem addTo_eq_assertAs {marker : Nat} {formula : Expr} {value : Unit}
    (added : (addTo marker formula session).1 = .ok value) :
    addTo marker formula session = assertAs false (some marker) formula session := by
  generalize run : addTo marker formula session = outcome at added ⊢
  unfold addTo at run
  rw [SessionState.bind_run, SessionState.get_run] at run
  dsimp only at run
  split at run
  case isTrue =>
    rw [← run] at added
    cases added
  case isFalse =>
    rw [SessionState.bind_run, SessionState.get_run] at run
    dsimp only at run
    split at run
    case isTrue =>
      rw [← run] at added
      cases added
    case isFalse => exact run.symm

theorem addTo_state {marker : Nat} {formula : Expr} {value : Unit}
    (added : (addTo marker formula session).1 = .ok value) :
    (addTo marker formula session).2 = session.asserted false (some marker) formula := by
  rw [addTo_eq_assertAs added, assertAs_run] at *
  split
  case isTrue => rfl
  case isFalse other =>
    rw [if_neg other] at added
    cases added

end Session

namespace TraceChecker

open Query

/-- A list of valuations comes from a model of the trace's formulas, and interpolants
are only given when the formulas exclude each other. -/
def Reports (config : SolverConfig) (path : PathFormula) : List Valuation ⊕ List Expr → Prop
  | .inl concrete => Feasibility.Judges config path (.feasible concrete)
  | .inr _ => config.Excludes path.steps

variable {config : SolverConfig} {alphabet : List Symbol} {formulas : List Expr}
  {state : OpenSession}

/-- Formulas over listed symbols that are encoded exactly. -/
def AllEncodable (alphabet : List Symbol) (formulas : List Expr) : Prop :=
  ∀ formula ∈ formulas, formula.Encodable ∧ ∀ symbol ∈ formula.symbols, symbol ∈ alphabet

theorem AllEncodable.plain (encodable : AllEncodable alphabet formulas) :
    ∀ formula ∈ formulas, formula.choosesTruth = false :=
  fun formula member => (encodable formula member).1.plain

theorem keeps_createMarker (holds : state.Few → state.Holds config alphabet formulas) :
    (perform Session.createMarker).Keeps state fun _ after =>
      after.Holds config alphabet formulas := by
  apply keeps_of_run (evolving_perform .createMarker nofun nofun fun _ => rfl)
  intro marker after run few few'
  obtain ⟨created, rfl⟩ := (ensures_perform_run _).of_run run
  have created := (Session.createMarker_state created).2
  refine ⟨fun punctual => ?_, fun late => ((holds few).undecided late).perform .createMarker⟩
  have serves := (holds few).serves punctual
  refine ⟨serves.within.perform .createMarker nofun, ?_⟩
  rw [created]
  exact serves.formulas_eq

theorem keeps_addTo (holds : state.Few → state.Holds config alphabet formulas) (marker : Nat)
    {formula : Expr} (occurs : ∀ symbol ∈ formula.symbols, symbol ∈ alphabet) :
    (perform (Session.addTo marker formula)).Keeps state fun _ after =>
      after.Holds config alphabet (formulas ++ [formula]) := by
  apply keeps_of_run (evolving_perform (.addTo marker formula) nofun nofun fun _ => rfl)
  intro value after run few few'
  have asserted : perform (Session.assertAs false (some marker) formula) state =
      (.ok value, after) := by
    have added := (ensures_perform_run _).of_run run
    unfold perform at run ⊢
    rwa [← Session.addTo_eq_assertAs added.1]
  exact (keeps_assertAs_of_holds holds false (some marker) occurs).of_run asserted few'

theorem keeps_addStep (holds : state.Few → state.Holds config alphabet formulas) {formula : Expr}
    (occurs : ∀ symbol ∈ formula.symbols, symbol ∈ alphabet) :
    (addStep formula).Keeps state fun _ after =>
      after.Holds config alphabet (formulas ++ [formula]) := by
  unfold addStep
  apply keeps_bind (keeps_createMarker holds)
  intro marker marked _ holds'
  apply keeps_bind (keeps_addTo holds' marker occurs)
  intro _ after _ holds''
  exact keeps_pure holds''

/-- Asserting all steps of a trace. -/
theorem keeps_addSteps {steps : List Expr} (encodable : AllEncodable alphabet steps)
    (holds : state.Few → state.Holds config alphabet formulas) :
    Keeps (steps.mapM addStep) state fun _ after =>
      after.Holds config alphabet (formulas ++ steps) := by
  induction steps generalizing state formulas with
  | nil =>
      rw [List.mapM_nil, List.append_nil]
      exact keeps_pure holds
  | cons step steps ih =>
      obtain ⟨⟨_, occurs⟩, encodable⟩ := List.forall_mem_cons.mp encodable
      rw [List.mapM_cons]
      apply keeps_bind (keeps_addStep holds occurs)
      intro marker after _ holds'
      apply keeps_bind (ih encodable holds')
      intro markers after' _ holds''
      rw [List.append_assoc] at holds''
      exact keeps_pure holds''

theorem keeps_trackSteps {steps : List Expr} (encodable : AllEncodable alphabet steps)
    (holds : state.Few → state.Holds config alphabet formulas) :
    Keeps (steps.forM fun step => perform (Session.track step)) state fun _ after =>
      after.Holds config alphabet (formulas ++ steps) := by
  induction steps generalizing state formulas with
  | nil =>
      rw [List.forM_eq_forM, List.forM_nil, List.append_nil]
      exact keeps_pure holds
  | cons step steps ih =>
      obtain ⟨⟨_, occurs⟩, encodable⟩ := List.forall_mem_cons.mp encodable
      rw [List.forM_eq_forM, List.forM_cons]
      apply keeps_bind (keeps_assertAs_of_holds holds true none occurs)
      intro _ after _ holds'
      have rest := ih encodable holds'
      rw [List.append_assoc] at rest
      exact rest

/-- Asserting the steps one by one either makes all of them known, or stops at some that
already exclude every solution. -/
theorem keeps_findInfeasibleStep {steps : List Expr} (workable : config.Workable)
    (plain : ∀ formula ∈ formulas, formula.choosesTruth = false)
    (encodable : AllEncodable alphabet steps) (markers : List Nat)
    (holds : state.Few → state.Holds config alphabet formulas) :
    (findInfeasibleStep markers steps).Keeps state fun found after =>
      match found.1 with
      | none => after.Holds config alphabet (formulas ++ steps)
      | some _ => config.Excludes (formulas ++ steps) := by
  induction steps generalizing state formulas markers with
  | nil =>
      rw [findInfeasibleStep, List.append_nil]
      exact keeps_pure holds
  | cons step steps ih =>
      obtain ⟨⟨encodableStep, occurs⟩, encodable⟩ := List.forall_mem_cons.mp encodable
      have plain' : ∀ formula ∈ formulas ++ [step], formula.choosesTruth = false :=
        List.forall_mem_append.mpr ⟨plain, List.forall_mem_singleton.mpr encodableStep.plain⟩
      rw [findInfeasibleStep]
      apply keeps_bind (keeps_addStep holds occurs)
      intro marker after _ holds'
      apply keeps_bind (keeps_isSatisfiable_of_holds holds' workable plain')
      intro answer after' _ answered
      split
      case isTrue =>
        have rest := ih plain' encodable (markers ++ [marker]) fun few => (answered few).1
        rwa [List.append_assoc] at rest
      case isFalse unsat =>
        apply keeps_pure
        intro few
        apply ((answered few).2 unsat).mono
        intro formula member
        simp only [List.mem_append, List.mem_singleton] at member
        simp only [List.mem_append, List.mem_cons]
        exact member.imp_right Or.inl

theorem ensures_refuteByInterpolants {σ : Type} [ExprState σ] {path : PathFormula}
    (states : List σ) (interpolants : List Expr) {statistics : SolverStatistics}
    (excludes : config.Excludes path.steps) :
    (refuteByInterpolants config states interpolants).Ensures statistics fun outcome _ =>
      outcome.Judges config path := by
  unfold refuteByInterpolants
  rw [ensures_bind]
  apply ensures_of_run
  intro pruneIndex _ _
  rw [ensures_pure]
  exact excludes

theorem evolving_interpolant (markers : List Nat) :
    (perform (Session.interpolant markers)).Evolving :=
  evolving_perform (.interpolant markers) nofun nofun fun _ => rfl

theorem evolving_prefixInterpolants (markers : List Nat) (count : Nat)
    (indexings : List Indexing) : (prefixInterpolants markers count indexings).Evolving := by
  induction indexings generalizing count with
  | nil => exact evolving_pure []
  | cons indexing indexings ih =>
      rw [prefixInterpolants]
      refine (evolving_interpolant _).bind fun interpolant => ?_
      exact (ih _).bind fun rest => evolving_pure _

section Checkers

variable {path : PathFormula} (workable : config.Workable)
  (encodable : AllEncodable alphabet path.steps)
  (fewLevels : Encoding.levelTotal config alphabet < 2147483648)
include workable encodable fewLevels

theorem keeps_checkBySequence (holds : state.Holds config alphabet []) :
    (checkBySequence path).Keeps state fun outcome _ => Reports config path outcome := by
  unfold checkBySequence
  apply keeps_bind (keeps_addSteps encodable fun _ => holds)
  intro markers after _ holds'
  apply keeps_bind (keeps_isSatisfiable_of_holds holds' workable encodable.plain)
  intro answer after' _ answered
  split
  case isTrue =>
    apply keeps_bind (keeps_model_of_holds (fun few => (answered few).1) fewLevels
      encodable.plain)
    intro model _ _ solves
    exact keeps_pure fun few => ⟨model, solves few, rfl⟩
  case isFalse unsat =>
    apply keeps_bind (keeps_of_run (evolving_prefixInterpolants markers 1 path.indexings)
      fun _ _ _ few _ => (answered few).2 unsat)
    intro interpolants _ _ excludes
    exact keeps_pure excludes

theorem keeps_checkByPrefix (holds : state.Holds config alphabet []) :
    (checkByPrefix path).Keeps state fun outcome _ => Reports config path outcome := by
  unfold checkByPrefix
  apply keeps_bind (keeps_findInfeasibleStep workable (List.forall_mem_nil _) encodable []
    fun _ => holds)
  rintro ⟨_ | position, markers⟩ after _ found
  · apply keeps_bind (keeps_model_of_holds found fewLevels encodable.plain)
    intro model _ _ solves
    exact keeps_pure fun few => ⟨model, solves few, rfl⟩
  · have excludes : after.Few → config.Excludes path.steps := found
    dsimp only
    split
    case isTrue => exact keeps_pure excludes
    case isFalse =>
      apply keeps_bind (keeps_of_run (evolving_interpolant _) fun _ _ _ few _ => excludes few)
      intro interpolant _ _ excludes
      exact keeps_pure excludes

theorem keeps_checkByCore (holds : state.Holds config alphabet []) :
    (checkByCore path).Keeps state fun outcome _ => outcome.Judges config path := by
  unfold checkByCore
  apply keeps_bind (keeps_trackSteps encodable fun _ => holds)
  intro _ after _ holds'
  apply keeps_bind (keeps_isSatisfiable_of_holds holds' workable encodable.plain)
  intro answer after' _ answered
  split
  case isTrue =>
    apply keeps_bind (keeps_model_of_holds (fun few => (answered few).1) fewLevels
      encodable.plain)
    intro model _ _ solves
    exact keeps_pure fun few => ⟨model, solves few, rfl⟩
  case isFalse unsat =>
    apply keeps_bind (keeps_of_run (evolving_perform .unsatCore nofun nofun fun _ => rfl)
      fun _ _ _ few _ => (answered few).2 unsat)
    intro core _ _ excludes
    exact keeps_pure excludes

end Checkers

/-- The session of a checker at the end of its run on the formulas of a trace. -/
def lastSession (checker : TraceChecker) (config : SolverConfig) (path : PathFormula)
    (statistics : SolverStatistics) : OpenSession :=
  match checker with
  | sequenceInterpolation =>
      (checkBySequence path (opened config .forInterpolation statistics)).2
  | binaryInterpolation => (checkByPrefix path (opened config .forInterpolation statistics)).2
  | unsatCore => (checkByCore path (opened config .forIncrementalUse statistics)).2

/-- What a checker decides about the formulas of a trace, if its session has few nodes. -/
theorem judges_of_check {σ α : Type} [ExprState σ] [ExprAction α] {checker : TraceChecker}
    {path : PathFormula} {initial target : Expr} {trace : Trace σ α} (workable : config.Workable)
    (encodable : AllEncodable alphabet path.steps)
    (fewLevels : Encoding.levelTotal config alphabet < 2147483648)
    (written : PathFormula.ofTrace initial target trace = .ok path)
    {statistics after : SolverStatistics} {outcome : Feasibility}
    (few : (checker.lastSession config path statistics).Few)
    (run : checker.check config initial target trace statistics = (.ok outcome, after)) :
    outcome.Judges config path := by
  have byInterpolants {query : Query (List Valuation ⊕ List Expr)}
      (few : (query (opened config .forInterpolation statistics)).2.Few)
      (keeps : query.Keeps (opened config .forInterpolation statistics) fun outcome _ =>
        Reports config path outcome) :
      Computation.Ensures (do
        match ← Query.inSession config .forInterpolation query with
        | .inl concrete => return .feasible concrete
        | .inr interpolants => refuteByInterpolants config trace.states interpolants)
        statistics fun outcome _ => Feasibility.Judges config path outcome := by
    rw [ensures_bind]
    apply ensures_of_run
    intro reported after answered
    have reports := keeps.of_inSession few answered
    cases reported with
    | inl concrete => exact (ensures_pure _).mpr reports
    | inr interpolants => exact ensures_refuteByInterpolants trace.states interpolants reports
  have holds (theme : SessionTheme) : (opened config theme statistics).Holds config alphabet [] :=
    opened_holds workable.lawful theme statistics alphabet
  unfold check at run
  rw [written] at run
  cases checker with
  | sequenceInterpolation =>
      exact (byInterpolants few (keeps_checkBySequence workable encodable fewLevels
        (holds _))).of_run run
  | binaryInterpolation =>
      exact (byInterpolants few (keeps_checkByPrefix workable encodable fewLevels
        (holds _))).of_run run
  | unsatCore =>
      exact (keeps_checkByCore workable encodable fewLevels (holds _)).of_inSession few run

end TraceChecker

end AbstractionRefinement
