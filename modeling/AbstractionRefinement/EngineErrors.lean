import AbstractionRefinement.SolverAnswers

/-!
# Errors of the verification engine

Whatever goes wrong while an abstraction is built or refined is an engine
error.  The engine's computations carry a state that survives an error, so
that what was counted or built before the error is still known afterwards.
-/

namespace AbstractionRefinement

/-- A limited resource of a verification run. -/
inductive ResourceKind where
  | iterations
  | wallClock
  | solverCalls
deriving DecidableEq, Inhabited

def ResourceKind.display : ResourceKind → String
  | iterations => "iteration limit"
  | wallClock => "wall-clock limit"
  | solverCalls => "solver call limit"

/-- What went wrong in the engine.  A session is refused when its computed table
would have too many slots.  Running out of fuel means that a bounded loop of this
library was given too small a bound. -/
inductive EngineError where
  | formula (error : FormulaError)
  | solver (error : SolverError)
  | solverUnknown (cause : UnknownCause)
  | resourceExhausted (kind : ResourceKind)
  | cancelled
  | refinementStalled (iteration : Nat)
  | inconsistentGraph (reason : String)
  | tableTooLarge (bits : Nat)
  | outOfFuel
deriving DecidableEq, Inhabited

/-- The wording of an error. -/
def EngineError.message : EngineError → String
  | formula error => error.message
  | solver error => error.message
  | solverUnknown cause => "solver returned unknown: " ++ cause.display
  | resourceExhausted kind => "resource exhausted: " ++ kind.display
  | cancelled => "verification was cancelled"
  | refinementStalled iteration =>
      "refinement stalled in iteration " ++ toString iteration ++
        ": the precision did not grow"
  | inconsistentGraph reason => "inconsistent ARG: " ++ reason
  | tableTooLarge bits => "table of 2^" ++ toString bits ++ " slots is too large"
  | outOfFuel => "out of fuel"

/-- A computation of the engine over a state that survives errors. -/
abbrev Computation (ω : Type) := ExceptT EngineError (StateM ω)

namespace Computation

variable {ω α : Type}

/-- A checked construction of formulas as part of a computation. -/
def ofFormula (construction : Except FormulaError α) : Computation ω α :=
  (construction.mapError EngineError.formula : Except _ _)

/-- Run a computation on a state. -/
def runOn (computation : Computation ω α) (state : ω) : Except EngineError α × ω :=
  computation state

end Computation

end AbstractionRefinement
