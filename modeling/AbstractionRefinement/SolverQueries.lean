import AbstractionRefinement.EngineErrors
import AbstractionRefinement.SolverSessions

/-!
# Solver queries

A query opens a session, asks it and closes it again, and the opened sessions
and checks are counted.  On top of checks and models, this file enumerates the
projections of all models onto some symbols and finds the symbols that have the
same value in every model.  Neither changes the assertions of the session.
-/

namespace AbstractionRefinement

/-- Count a check; only a newly computed answer counts as inconclusive. -/
def SolverStatistics.countCheck (statistics : SolverStatistics) (fresh : Bool)
    (status : SolverStatus) : SolverStatistics :=
  let inconclusive :=
    match status with
    | .unknown _ => fresh
    | _ => false
  { statistics with
    checks := statistics.checks + 1
    unknowns := statistics.unknowns + inconclusive.toNat }

/-- An open session together with the counts. -/
structure OpenSession where
  session : Session
  statistics : SolverStatistics

/-- A computation over an open session. -/
abbrev Query := Computation OpenSession

namespace Query

/-- Perform a session operation. -/
def perform {α : Type} (operation : SessionState (Except SolverError α)) : Query α :=
  fun state =>
    let (result, session) := operation state.session
    (result.mapError .solver, { state with session })

/-- Check the assertions and count the check. -/
def check : Query SolverStatus := fun state =>
  let fresh := state.session.status.isNone
  let (status, session) := Session.check state.session
  (.ok status, ⟨session, state.statistics.countCheck fresh status⟩)

/-- Check the assertions; an inconclusive answer is an error. -/
def isSatisfiable : Query Bool := do
  match (← check).decided with
  | .ok answer => return answer
  | .error cause => throw (.solverUnknown cause)

/-- The model of a satisfiable answer. -/
def model : Query Valuation :=
  perform do return (← get).model

def add (formula : Expr) : Query Unit :=
  perform (Session.add formula)

/-- Run a query in a frame of its own, which is discarded also after an
error. -/
def inFrame {α : Type} (query : Query α) : Query α := fun state =>
  let (_, session) := Session.push state.session
  let (result, state) := query { state with session }
  let (_, session) := Session.pop state.session
  (result, { state with session })

/-- Open a session and count it. -/
def openSession (config : SolverConfig) (theme : SessionTheme) :
    Computation SolverStatistics Session := do
  modify fun statistics => { statistics with sessions := statistics.sessions + 1 }
  if ComputedTable.maxBits < config.cacheBits then throw (.tableTooLarge config.cacheBits)
  return .start config theme

/-- Run a query in an open session. -/
def runIn {α : Type} (query : Query α) (session : Session) :
    Computation SolverStatistics α := fun statistics =>
  let (result, state) := query ⟨session, statistics⟩
  (result, state.statistics)

/-- Open a session, run a query in it and close it. -/
def inSession {α : Type} (config : SolverConfig) (theme : SessionTheme) (query : Query α) :
    Computation SolverStatistics α := do
  query.runIn (← openSession config theme)

/-- Number of assignments of all symbols a session has encoded. -/
def assignmentCount (session : Session) : Nat :=
  session.encoder.symbols.foldl (fun total (_, encoded) => total * encoded.size) 1

/-- The part of a model on the listed symbols. -/
def restrictModel (model : Valuation) (symbols : List Symbol) : Valuation :=
  .ofList (symbols.filterMap fun symbol =>
    (model.get? symbol).map fun value => (symbol, value))

/-- Enumerate projections of models after those found so far, excluding every
one that was found. -/
def enumerateModels (symbols : List Symbol) (limit : Option Nat) :
    Nat → List Valuation → Query (Option (List Valuation))
  | 0, _ => throw .outOfFuel
  | fuel + 1, found => do
      if ← isSatisfiable then
        let projection := restrictModel (← model) symbols
        if projection.isEmpty then return some (found ++ [projection])
        else
          add (← Computation.ofFormula (Expr.mkNot projection.toExpr))
          let found := found ++ [projection]
          if limit.any (· < found.length) then return none
          else enumerateModels symbols limit fuel found
      else return some found

/-- The distinct projections of the models onto the listed symbols, unless there
are more than the limit.  Symbols that do not occur in the assertions are left
out.  Every round excludes an assignment, so their number bounds the rounds. -/
def allModels (symbols : List Symbol) (limit : Option Nat) :
    Query (Option (List Valuation)) := do
  let rounds := assignmentCount (← get).session + 2
  inFrame (enumerateModels symbols limit rounds [])

/-- Whether a symbol has the given value in every model; an inconclusive answer
means no. -/
def isForced (symbol : Symbol) (value : Value) : Query Bool :=
  inFrame do
    add (← Computation.ofFormula (Expr.mkNot (symbol.hasValue value)))
    return (← check) = .unsat

/-- The symbols that have the same value in every model, with that value. -/
def forcedValues (symbols : List Symbol) : Query Valuation := do
  if ← isSatisfiable then
    let model ← model
    symbols.foldlM
      (fun forced symbol => do
        match model.get? symbol with
        | none => return forced
        | some value =>
            if ← isForced symbol value then return forced.insert symbol value
            else return forced)
      .empty
  else return .empty

end Query

end AbstractionRefinement
