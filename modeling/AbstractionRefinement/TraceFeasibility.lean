import AbstractionRefinement.Refutations
import AbstractionRefinement.Traces

/-!
# Feasibility of traces

A trace is written as one formula per step over time-indexed symbols: the
initial condition with the first state, then each action with the state it
leads to, and last the target condition.  The trace is feasible exactly when
their conjunction is satisfiable, and a model then gives one valuation per
state.  An infeasible trace is refuted by interpolants over all prefixes, by
one interpolant where the prefix becomes infeasible, or by an unsatisfiable
core.
-/

namespace AbstractionRefinement

/-- The formulas of a trace. -/
structure PathFormula where
  /-- One formula per state, and the target condition. -/
  steps : List Expr
  /-- The time steps of the variables at each state. -/
  indexings : List Indexing
deriving Inhabited

namespace PathFormula

variable {σ α : Type}

/-- The formulas of the actions after a state with the given time steps. -/
def ofActions [ExprState σ] [ExprAction α] (target : Expr) (indexing : Indexing) :
    List (α × σ) → Except FormulaError PathFormula
  | [] => return ⟨[target.unfold indexing], [indexing]⟩
  | (action, state) :: rest => do
      let next := indexing.add (ExprAction.nextIndexing action)
      let step ← Expr.mkAnd
        [(ExprAction.toExpr action).unfold indexing, (ExprState.toExpr state).unfold next]
      let following ← ofActions target next rest
      return ⟨step :: following.steps, indexing :: following.indexings⟩

/-- The formulas of a trace under an initial and a target condition. -/
def ofTrace [ExprState σ] [ExprAction α] (initial target : Expr) (trace : Trace σ α) :
    Except FormulaError PathFormula := do
  let start := Indexing.constant 0
  let first ← Expr.mkAnd [initial, ExprState.toExpr trace.first]
  let following ← ofActions target start trace.steps
  return ⟨first.unfold start :: following.steps, following.indexings⟩

/-- The set of variables of the formulas. -/
def vars (path : PathFormula) : List VarDecl :=
  OrderedSet.ofList (path.steps.flatMap Expr.vars)

/-- The values of the variables at each state in a model. -/
def concretize (path : PathFormula) (model : Valuation) : List Valuation :=
  let vars := path.vars
  path.indexings.map fun indexing =>
    .ofList (vars.filterMap fun decl =>
      (model.get? ⟨decl, some (indexing.get decl)⟩).map fun value => (⟨decl, none⟩, value))

end PathFormula

/-- The outcome of a feasibility check. -/
inductive Feasibility where
  /-- One valuation per state. -/
  | feasible (concrete : List Valuation)
  | infeasible (refutation : Refutation)
deriving Inhabited

/-- The ways to refute an infeasible trace. -/
inductive TraceChecker where
  | sequenceInterpolation
  | binaryInterpolation
  | unsatCore
deriving DecidableEq, Inhabited

namespace TraceChecker

variable {σ α : Type}

/-- The first position, from the given one on, whose state does not imply its
interpolant, or the last one. -/
def firstNotImplied [ExprState σ] (config : SolverConfig) :
    Nat → Nat → List (σ × Expr) → Computation SolverStatistics Nat
  | last, _, [] => return last
  | last, position, (state, interpolant) :: rest => do
      if interpolant.isTop then firstNotImplied config last (position + 1) rest
      else
        let violated ← Query.inSession config .plain do
          let negation ← Computation.ofFormula interpolant.mkNot
          let query ← Computation.ofFormula (Expr.mkAnd [ExprState.toExpr state, negation])
          Query.add (query.unfold (.constant 0))
          Query.isSatisfiable
        if violated then return position
        else firstNotImplied config last (position + 1) rest

/-- The refutation by interpolants, one per state. -/
def refuteByInterpolants [ExprState σ] (config : SolverConfig) (states : List σ)
    (interpolants : List Expr) : Computation SolverStatistics Feasibility := do
  let pruneIndex ←
    firstNotImplied config (interpolants.length - 1) 0 (states.zip interpolants)
  return .infeasible (.interpolants (.new interpolants pruneIndex))

/-- Assert a formula into a new interpolation partition. -/
def addStep (formula : Expr) : Query Nat := do
  let marker ← Query.perform Session.createMarker
  Query.perform (Session.addTo marker formula)
  return marker

/-- The interpolants of the prefixes that end at each of the given states. -/
def prefixInterpolants (markers : List Nat) :
    Nat → List Indexing → Query (List Expr)
  | _, [] => return []
  | count, indexing :: indexings => do
      let interpolant ← Query.perform (Session.interpolant (markers.take count))
      return interpolant.fold indexing ::
        (← prefixInterpolants markers (count + 1) indexings)

/-- Check a trace, with interpolants over all prefixes. -/
def checkBySequence (path : PathFormula) : Query (List Valuation ⊕ List Expr) := do
  let markers ← path.steps.mapM addStep
  if ← Query.isSatisfiable then return .inl (path.concretize (← Query.model))
  else return .inr (← prefixInterpolants markers 1 path.indexings)

/-- Assert the steps one by one until they are unsatisfiable, and give the
position of the last one together with the partitions. -/
def findInfeasibleStep (markers : List Nat) :
    List Expr → Query (Option Nat × List Nat)
  | [] => return (none, markers)
  | step :: steps => do
      let marker ← addStep step
      let known := markers ++ [marker]
      if ← Query.isSatisfiable then findInfeasibleStep known steps
      else return (some markers.length, known)

/-- Check a trace, with one interpolant where its prefix becomes infeasible:
states before it get truth, states after it falsity. -/
def checkByPrefix (path : PathFormula) : Query (List Valuation ⊕ List Expr) := do
  match ← findInfeasibleStep [] path.steps with
  | (none, _) => return .inl (path.concretize (← Query.model))
  | (some position, markers) => do
      let count := path.indexings.length
      if position = 0 then return .inr (List.replicate count .bottom)
      else
        let interpolant ← Query.perform (Session.interpolant (markers.take position))
        let indexing := path.indexings.getD (position - 1) default
        return .inr (List.replicate (position - 1) .top ++
          interpolant.fold indexing :: List.replicate (count - position) .bottom)

/-- Check a trace, with an unsatisfiable core of its steps. -/
def checkByCore (path : PathFormula) : Query Feasibility := do
  path.steps.forM fun step => Query.perform (Session.track step)
  if ← Query.isSatisfiable then return .feasible (path.concretize (← Query.model))
  else
    let core ← Query.perform Session.unsatCore
    let position := (path.steps.findIdx? fun step => core.contains step).getD 0
    return .infeasible (.core ⟨core, min position (path.indexings.length - 1)⟩)

/-- Decide whether a trace is feasible under an initial and a target
condition. -/
def check [ExprState σ] [ExprAction α] (checker : TraceChecker) (config : SolverConfig)
    (initial target : Expr) (trace : Trace σ α) :
    Computation SolverStatistics Feasibility := do
  let path ← Computation.ofFormula (PathFormula.ofTrace initial target trace)
  let byInterpolants (query : Query (List Valuation ⊕ List Expr)) :
      Computation SolverStatistics Feasibility := do
    match ← Query.inSession config .forInterpolation query with
    | .inl concrete => return .feasible concrete
    | .inr interpolants => refuteByInterpolants config trace.states interpolants
  match checker with
  | sequenceInterpolation => byInterpolants (checkBySequence path)
  | binaryInterpolation => byInterpolants (checkByPrefix path)
  | unsatCore => Query.inSession config .forIncrementalUse (checkByCore path)

end TraceChecker

end AbstractionRefinement
