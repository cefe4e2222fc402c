import AbstractionRefinement.EngineErrors
import AbstractionRefinement.FormulaDescriptions
import AbstractionRefinement.ValueDescriptions

/-!
# Descriptions of errors

An error is described by its kind and its message.  An error that merely wraps
another one has the kind of the innermost one.  Errors can be read back from
their kinds and the details of their messages.
-/

namespace AbstractionRefinement

/-- The kind of a formula error. -/
def FormulaError.kind : FormulaError → String
  | typeMismatch .. => "TypeMismatch"
  | arity .. => "Arity"
  | primedIndexedSymbol _ => "PrimedIndexedSymbol"
  | unexpectedPrime _ => "UnexpectedPrime"
  | bitVecWidth _ => "BitVecWidth"
  | model _ => "Model"

/-- The kind of a solver error. -/
def SolverError.kind : SolverError → String
  | formula error => error.kind
  | stackUnderflow => "StackUnderflow"
  | noModel _ => "NoModel"
  | noUnsatCore _ => "NoUnsatCore"
  | notInterpolating => "NotInterpolating"
  | unknownMarker _ => "UnknownMarker"
  | noInterpolant => "NoInterpolant"
  | incomplete _ => "Incomplete"

namespace EngineError

/-- The kind of an error. -/
def kind : EngineError → String
  | formula error => error.kind
  | solver error => error.kind
  | solverUnknown _ => "SolverUnknown"
  | resourceExhausted _ => "ResourceExhausted"
  | cancelled => "Cancelled"
  | refinementStalled _ => "RefinementStalled"
  | inconsistentGraph _ => "InconsistentArg"
  | tableTooLarge _ => "TableTooLarge"
  | outOfFuel => "OutOfFuel"

instance : Describable EngineError where
  toDescription error := .record [("error", .text error.kind), ("message", .text error.message)]

end EngineError

/-- A cause of an inconclusive answer. -/
def UnknownCause.ofDescription : Description → Reading UnknownCause
  | .list [.text "Timeout"] => .ok timeout
  | .list [.text "ResourceLimit"] => .ok resourceLimit
  | .list [.text "Unsupported", what] => unsupported <$> what.asText
  | .list [.text "Unavailable", why] => unavailable <$> why.asText
  | _ => malformed

namespace EngineError

/-- A formula error of a kind. -/
def formulaErrorOf : String → List Description → Reading FormulaError
  | "Model", [reason] => FormulaError.model <$> reason.asText
  | "PrimedIndexedSymbol", [symbol] => FormulaError.primedIndexedSymbol <$> symbol.asText
  | "BitVecWidth", [width] => FormulaError.bitVecWidth <$> width.asWord32
  | "Arity", [found] => FormulaError.arity "op" "two" <$> found.asWord64
  | "TypeMismatch", [expected, found] => do
      return .typeMismatch "op" (← expected.asText) (← Ty.ofDescription found)
  | _, _ => malformed

/-- A solver error of a kind. -/
def solverErrorOf : String → List Description → Reading SolverError
  | "UnexpectedPrime", [subject] => do
      return .formula (.unexpectedPrime (← subject.asText))
  | "StackUnderflow", [] => return .stackUnderflow
  | "NoModel", [status] => SolverError.noModel <$> status.asText
  | "NoUnsatCore", [status] => SolverError.noUnsatCore <$> status.asText
  | "NotInterpolating", [] => return .notInterpolating
  | "UnknownMarker", [marker] => SolverError.unknownMarker <$> marker.asWord64
  | "NoInterpolant", [] => return .noInterpolant
  | "Incomplete", [cause] => SolverError.incomplete <$> UnknownCause.ofDescription cause
  | _, _ => malformed

/-- An error of a kind, with the details of its message. -/
def ofKind (kind : String) (details : List Description) : Reading EngineError :=
  match kind, details with
  | "SolverUnknown", [cause] => solverUnknown <$> UnknownCause.ofDescription cause
  | "Iterations", [] => .ok (resourceExhausted .iterations)
  | "WallClock", [] => .ok (resourceExhausted .wallClock)
  | "SolverCalls", [] => .ok (resourceExhausted .solverCalls)
  | "Cancelled", [] => .ok cancelled
  | "RefinementStalled", [iteration] => refinementStalled <$> iteration.asWord64
  | "InconsistentArg", [reason] => inconsistentGraph <$> reason.asText
  | "Model", _ | "PrimedIndexedSymbol", _ | "BitVecWidth", _ | "Arity", _
  | "TypeMismatch", _ => formula <$> formulaErrorOf kind details
  | _, _ => solver <$> solverErrorOf kind details

end EngineError

end AbstractionRefinement
