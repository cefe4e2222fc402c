import AbstractionRefinement.FormulaErrors

/-!
# Answers of a solver

A check of a solver session is satisfiable, unsatisfiable or inconclusive for a
stated cause.  Trouble of the solver itself, such as an exceeded limit or an
unsupported type, makes an answer inconclusive; wrong use of a session is an
error.
-/

namespace AbstractionRefinement

/-- Why a query was inconclusive. -/
inductive UnknownCause where
  | timeout
  | resourceLimit
  | unsupported (what : String)
  | unavailable (why : String)
deriving DecidableEq, Inhabited

/-- The wording of a cause. -/
def UnknownCause.display : UnknownCause → String
  | timeout => "timeout"
  | resourceLimit => "resource limit"
  | unsupported what => "unsupported: " ++ what
  | unavailable why => "unavailable: " ++ why

/-- The answer of a check. -/
inductive SolverStatus where
  | sat
  | unsat
  | unknown (cause : UnknownCause)
deriving DecidableEq, Inhabited

namespace SolverStatus

/-- The wording of an answer. -/
def display : SolverStatus → String
  | sat => "sat"
  | unsat => "unsat"
  | unknown cause => "unknown (" ++ cause.display ++ ")"

/-- Satisfiability, unless the answer is inconclusive. -/
def decided : SolverStatus → Except UnknownCause Bool
  | sat => .ok true
  | unsat => .ok false
  | unknown cause => .error cause

end SolverStatus

/-- What went wrong in the use of a solver session. -/
inductive SolverError where
  | formula (error : FormulaError)
  | stackUnderflow
  | noModel (status : String)
  | noUnsatCore (status : String)
  | notInterpolating
  | unknownMarker (marker : Nat)
  | noInterpolant
  | incomplete (cause : UnknownCause)
deriving DecidableEq, Inhabited

/-- The wording of an error. -/
def SolverError.message : SolverError → String
  | formula error => error.message
  | stackUnderflow => "pop on an empty assertion stack"
  | noModel status => "no model available (last status: " ++ status ++ ")"
  | noUnsatCore status => "no unsat core available (last status: " ++ status ++ ")"
  | notInterpolating => "session was not opened for interpolation"
  | unknownMarker marker => "unknown interpolation marker #" ++ toString marker
  | noInterpolant => "interpolant requested while the assertions are not unsat"
  | incomplete cause => "operation could not be completed: " ++ cause.display

/-- What a session will be used for. -/
structure SessionTheme where
  incremental : Bool
  interpolating : Bool
deriving DecidableEq, Inhabited

namespace SessionTheme

def plain : SessionTheme := ⟨false, false⟩

def forIncrementalUse : SessionTheme := ⟨true, false⟩

def forInterpolation : SessionTheme := ⟨true, true⟩

end SessionTheme

/-- How many sessions were opened, how many checks were asked for, and how many
of the computed answers were inconclusive. -/
structure SolverStatistics where
  sessions : Nat := 0
  checks : Nat := 0
  unknowns : Nat := 0
deriving DecidableEq, Inhabited

end AbstractionRefinement
