import AbstractionRefinement.BitDecoding

/-!
# Solver sessions

A session holds assertions on a stack of frames and decides their conjunction
over the configured intervals.  An unsatisfiable answer is confirmed over
widened intervals; a solution found there makes the answer inconclusive.  After
an unsatisfiable answer a session gives unsatisfiable cores and interpolants,
and after a satisfiable one a model.
-/

namespace AbstractionRefinement

/-- The least and the greatest integer seen so far together with another. -/
def includeInteger (bounds : Option (Int × Int)) (number : Int) : Option (Int × Int) :=
  match bounds with
  | some (least, greatest) => some (min least number, max greatest number)
  | none => some (number, number)

namespace Expr

mutual

/-- The least and greatest integer literal of a formula and of what was seen
before. -/
def literalBounds (bounds : Option (Int × Int)) : Expr → Option (Int × Int)
  | lit (.int number) => includeInteger bounds number
  | lit _ | sym _ => bounds
  | unary _ operand _ => operand.literalBounds bounds
  | binary _ left right _ => right.literalBounds (left.literalBounds bounds)
  | ternary _ first second third _ =>
      third.literalBounds (second.literalBounds (first.literalBounds bounds))
  | nary _ operands _ => literalBoundsAll bounds operands

/-- The least and greatest integer literal of several formulas. -/
def literalBoundsAll (bounds : Option (Int × Int)) : List Expr → Option (Int × Int)
  | [] => bounds
  | operand :: operands => literalBoundsAll (operand.literalBounds bounds) operands

end

/-- Whether an integer symbol occurs. -/
def hasIntSymbol (formula : Expr) : Bool :=
  formula.symbols.any fun symbol => symbol.ty = .int

end Expr

/-- An asserted formula with its diagram. -/
structure Assertion where
  formula : Expr
  encoded : Except UnknownCause Edge
  tracked : Bool
  marker : Option Nat

/-- A session: frames of assertions with the innermost one apart. -/
structure Session where
  config : SolverConfig
  theme : SessionTheme
  encoder : Encoder
  outer : List (List Assertion)
  innermost : List Assertion
  markers : Nat
  status : Option SolverStatus
  conjunction : Edge

/-- A computation over a session. -/
abbrev SessionState := StateM Session

namespace Session

/-- A session without assertions. -/
def start (config : SolverConfig) (theme : SessionTheme) : Session where
  config := config
  theme := theme
  encoder := .new config
  outer := []
  innermost := []
  markers := 0
  status := none
  conjunction := .one

/-- All assertions, from the outermost frame inwards. -/
def live (session : Session) : List Assertion :=
  session.outer.reverse.flatten ++ session.innermost

/-- The asserted formulas. -/
def formulas (session : Session) : List Expr :=
  session.live.map Assertion.formula

/-- Run an encoding on the session's encoder. -/
def encoding {α : Type} (computation : Encoding α) :
    SessionState (Except UnknownCause α) := fun session =>
  let (result, encoder) := computation session.encoder
  (result, { session with encoder })

/-- Assert a Boolean formula. -/
def assertAs (tracked : Bool) (marker : Option Nat) (formula : Expr) :
    SessionState (Except SolverError Unit) := do
  if formula.ty = .bool then
    let encoded ← encoding do
      let edge ← Encoder.encodeValid formula
      Encoder.checkExhausted
      return edge
    modify fun session =>
      { session with
        status := none
        innermost := session.innermost ++ [{ formula, encoded, tracked, marker }] }
    return .ok ()
  else return .error (.formula (.typeMismatch "assert" Ty.bool.display formula.ty))

/-- Assert a formula. -/
def add : Expr → SessionState (Except SolverError Unit) :=
  assertAs false none

/-- Assert a formula that may appear in an unsatisfiable core. -/
def track : Expr → SessionState (Except SolverError Unit) :=
  assertAs true none

/-- Open a frame. -/
def push : SessionState Unit :=
  modify fun session =>
    { session with outer := session.innermost :: session.outer, innermost := [] }

/-- Discard the innermost frame. -/
def pop : SessionState (Except SolverError Unit) := do
  match (← get).outer with
  | [] => return .error .stackUnderflow
  | frame :: outer =>
      modify fun session => { session with outer, innermost := frame, status := none }
      return .ok ()

/-- The conjunction of the assertions that satisfy a condition. -/
def conjoin (assertions : List Assertion) : Encoding Edge := do
  let total ← assertions.foldlM
    (fun (total : Edge) assertion => do
      let edge ← (assertion.encoded : Except UnknownCause Edge)
      Encoder.diagram (DiagramManager.conj total edge))
    .one
  Encoder.checkExhausted
  return total

/-- An encoder over intervals widened for some formulas.  There is none when
the configured intervals are trusted or no integer symbol occurs. -/
def widenedEncoder (config : SolverConfig) (formulas : List Expr) (deadlinePassed : Bool) :
    Option Encoder :=
  if config.margin = 0 || !formulas.any Expr.hasIntSymbol then none
  else
    let encoder := Encoder.new (config.widened (Expr.literalBoundsAll none formulas))
    some { encoder with manager := encoder.manager.setDeadline deadlinePassed }

/-- Whether formulas that are unsatisfiable over the configured intervals have
a solution over the widened ones. -/
def escapesRange (config : SolverConfig) (formulas : List Expr) (deadlinePassed : Bool) :
    Except UnknownCause Bool :=
  match widenedEncoder config formulas deadlinePassed with
  | none => .ok false
  | some encoder =>
      match Encoder.encodeAllValid formulas encoder with
      | (.ok edge, _) => .ok (!edge.isZero)
      | (.error cause, _) => .error cause

/-- The answer when the conjunction is false over the configured intervals. -/
def confirmUnsat (config : SolverConfig) (formulas : List Expr) (deadlinePassed : Bool) :
    SolverStatus :=
  match escapesRange config formulas deadlinePassed with
  | .ok false => .unsat
  | .ok true => .unknown (.unsupported "integer range")
  | .error cause => .unknown cause

/-- Decide the conjunction of all assertions. -/
def decideConjunction : SessionState SolverStatus := do
  let deadlinePassed := (← get).config.timeoutPasses
  let setDeadline (passed : Bool) : SessionState Unit :=
    modify fun session =>
      { session with
        encoder :=
          { session.encoder with manager := session.encoder.manager.setDeadline passed } }
  setDeadline deadlinePassed
  let assertions := (← get).live
  let answer ←
    match ← encoding (conjoin assertions) with
    | .ok edge =>
        modify fun session => { session with conjunction := edge }
        if edge.isZero then
          pure (confirmUnsat (← get).config (assertions.map Assertion.formula) deadlinePassed)
        else pure .sat
    | .error cause => pure (.unknown cause)
  let answer ←
    match ← encoding Encoder.checkExhausted with
    | .ok () => pure answer
    | .error cause => pure (.unknown cause)
  setDeadline false
  return answer

/-- The answer of the last check, or a new one after the assertions changed. -/
def check : SessionState SolverStatus := do
  match (← get).status with
  | some status => return status
  | none =>
      let status ← decideConjunction
      modify fun session => { session with status := some status }
      return status

/-- The wording of the last answer. -/
def lastStatus (session : Session) : String :=
  match session.status with
  | some status => status.display
  | none => "unchecked"

/-- The set of symbols of some assertions. -/
def symbolsOf (assertions : List Assertion) : List Symbol :=
  Expr.collectSymbolsAll (assertions.map Assertion.formula) []

/-- Values of the symbols of the assertions, after a satisfiable answer. -/
def model (session : Session) : Except SolverError Valuation :=
  if session.status = some .sat then
    match session.encoder.manager.onePath? session.conjunction with
    | some path => .ok (session.encoder.modelOfPath path (symbolsOf session.live))
    | none => .error (.noModel session.lastStatus)
  else .error (.noModel session.lastStatus)

/-- Drop candidates one after the other as long as the rest stays
unsatisfiable, also over the widened intervals. -/
def minimizeCore (config : SolverConfig) (untracked : List Expr) (base : Edge)
    (kept : List (Expr × Edge)) : List (Expr × Edge) → Encoding (List (Expr × Edge))
  | [] => return kept
  | candidate :: candidates => do
      let others := kept ++ candidates
      let rest ← others.foldlM
        (fun (total : Edge) (other : Expr × Edge) =>
          Encoder.diagram (DiagramManager.conj total other.2))
        base
      modify fun encoder => { encoder with manager := encoder.manager.noticeDeadline }
      if (← get).manager.exhaustion.isSome then return kept ++ candidate :: candidates
      let removable :=
        rest.isZero &&
          match escapesRange config (untracked ++ others.map Prod.fst) false with
          | .ok escapes => !escapes
          | .error _ => false
      if removable then minimizeCore config untracked base kept candidates
      else minimizeCore config untracked base (kept ++ [candidate]) candidates

/-- Tracked assertions that are unsatisfiable together with the untracked ones,
after an unsatisfiable answer. -/
def unsatCore : SessionState (Except SolverError (List Expr)) := do
  if (← get).status = some .unsat then
    let assertions := (← get).live
    let config := (← get).config
    let core ← encoding do
      let untracked := assertions.filter fun assertion => !assertion.tracked
      let base ← conjoin untracked
      let tracked ← (assertions.filter Assertion.tracked).mapM fun assertion => do
        let edge ← (assertion.encoded : Except UnknownCause Edge)
        return (assertion.formula, edge)
      minimizeCore config (untracked.map Assertion.formula) base [] tracked
    return (core.map fun pairs => pairs.map Prod.fst).mapError .incomplete
  else return .error (.noUnsatCore (← get).lastStatus)

/-- Open an interpolation partition. -/
def createMarker : SessionState (Except SolverError Nat) := do
  if (← get).theme.interpolating then
    let marker := (← get).markers
    modify fun session => { session with markers := marker + 1 }
    return .ok marker
  else return .error .notInterpolating

/-- Assert a formula into a partition. -/
def addTo (marker : Nat) (formula : Expr) : SessionState (Except SolverError Unit) := do
  if !(← get).theme.interpolating then return .error .notInterpolating
  else if (← get).markers ≤ marker then return .error (.unknownMarker marker)
  else assertAs false (some marker) formula

/-- The strongest consequence of a diagram without the given symbols. -/
def projectAway (symbols : List Symbol) (edge : Edge) : Encoding Expr := do
  let levels := (← get).levelsOf symbols
  let projected ← Encoder.diagram (DiagramManager.quantify levels.contains edge)
  Encoder.checkExhausted
  ((← get).decode projected : Except UnknownCause Expr)

/-- The interpolant between some partitions and everything else, after an
unsatisfiable answer: the strongest consequence of the partitions over the
shared symbols.  It is taken over the widened intervals, or over the configured
ones when that is inconclusive. -/
def interpolant (markers : List Nat) : SessionState (Except SolverError Expr) := do
  if !(← get).theme.interpolating then return .error .notInterpolating
  let known := (← get).markers
  match markers.find? fun marker => known ≤ marker with
  | some marker => return .error (.unknownMarker marker)
  | none =>
      if (← get).status ≠ some .unsat then return .error .noInterpolant
      let assertions := (← get).live
      let inFirst (assertion : Assertion) : Bool :=
        match assertion.marker with
        | some marker => markers.contains marker
        | none => false
      let first := assertions.filter inFirst
      let second := assertions.filter fun assertion => !inFirst assertion
      let shared := symbolsOf second
      let localSymbols := (symbolsOf first).filter fun symbol =>
        !OrderedSet.contains symbol shared
      let computation : Encoding Expr := do
        let edge ← Encoder.encodeAllValid (first.map Assertion.formula)
        projectAway localSymbols edge
      let overWidened :=
        (widenedEncoder (← get).config (assertions.map Assertion.formula) false).bind
          fun encoder => (computation encoder).1.toOption
      match overWidened with
      | some result => return .ok result
      | none =>
          let result ← encoding do
            let edge ← conjoin first
            projectAway localSymbols edge
          return result.mapError .incomplete

end Session

end AbstractionRefinement
