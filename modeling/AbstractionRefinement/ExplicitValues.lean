import AbstractionRefinement.Analyses

/-!
# Explicit-value abstraction

An explicit state gives each tracked variable one value or leaves it unknown.
Successors are enumerated with the solver up to a limit; beyond it only the
variables with a unique successor value are kept.
-/

namespace AbstractionRefinement

/-- The set of tracked variables. -/
structure ExplicitPrecision where
  vars : List VarDecl := []
deriving DecidableEq, Inhabited

/-- A partial assignment of the tracked variables, or no state at all. -/
inductive ExplicitState where
  | bottom
  | values (valuation : Valuation)
deriving DecidableEq, Inhabited

namespace ExplicitPrecision

def ofList (vars : List VarDecl) : ExplicitPrecision :=
  ⟨OrderedSet.ofList vars⟩

/-- Forget the values of untracked variables. -/
def createState (precision : ExplicitPrecision) (valuation : Valuation) : ExplicitState :=
  .values (valuation.project precision.vars)

instance : Precision ExplicitPrecision where
  join first second := ⟨OrderedSet.union first.vars second.vars⟩
  size precision := precision.vars.length

instance : Display ExplicitPrecision :=
  ⟨fun precision => displaySet (precision.vars.map VarDecl.name)⟩

end ExplicitPrecision

namespace ExplicitState

/-- The state without known values. -/
def top : ExplicitState :=
  .values .empty

/-- A state is subsumed by one whose known values it has. -/
def leq : ExplicitState → ExplicitState → Bool
  | bottom, _ => true
  | _, bottom => false
  | values first, values second =>
      second.entries.all fun (symbol, value) => first.get? symbol = some value

/-- The only symbol on which two valuations of the same symbols differ, if it
is a truth value in the first. -/
def booleanDifference (second : Valuation) :
    List (Symbol × Value) → Option Symbol → Option Symbol
  | [], difference => difference
  | (symbol, value) :: entries, difference =>
      match second.get? symbol with
      | none => none
      | some other =>
          if other = value then booleanDifference second entries difference
          else
            match difference, value with
            | none, .bool _ => booleanDifference second entries (some symbol)
            | _, _ => none

/-- Two states can be joined exactly when one subsumes the other or when they
differ in the value of one Boolean variable. -/
def join (first second : ExplicitState) : Option ExplicitState :=
  if first.leq second then some second
  else if second.leq first then some first
  else
    match first, second with
    | values left, values right =>
        if left.size = right.size then
          (booleanDifference right left.entries none).map fun symbol =>
            values (left.erase symbol)
        else none
    | _, _ => none

instance : ExprState ExplicitState where
  toExpr
    | bottom => .bottom
    | values valuation => valuation.toExpr

instance : Display ExplicitState where
  display
    | bottom => bottomText
    | values valuation => valuation.display

/-- The domain of explicit states. -/
def domain : Domain ExplicitState ExplicitPrecision where
  top _ := top
  isBottom state := state = bottom
  leq _ := leq
  join _ := join
  hasExactJoin := true

/-- The valuation with all time steps dropped. -/
def dropSteps (valuation : Valuation) : Valuation :=
  .ofList (valuation.entries.map fun (symbol, value) => (⟨symbol.decl, none⟩, value))

/-- The explicit states of a formula, read off the tracked variables at the
given time steps. -/
def statesOf (config : SolverConfig) (limit : Option Nat) (precision : ExplicitPrecision)
    (next : Indexing) (formula : Expr) : Computation SolverStatistics (List ExplicitState) :=
  let symbols : List Symbol :=
    precision.vars.map fun decl => ⟨decl, some (next.get decl)⟩
  Query.inSession config .forIncrementalUse do
    Query.add formula
    match ← Query.allModels symbols limit with
    | some models => return models.map fun model => values (dropSteps model)
    | none => return [values (dropSteps (← Query.forcedValues symbols))]

/-- The usual limit on enumerated successors. -/
def defaultLimit : Nat := 16

/-- The explicit-value analysis from the states of an initial formula. -/
def analysis {α : Type} [ExprAction α] (config : SolverConfig) (initial : Expr)
    (limit : Option Nat) : Analysis SolverStatistics ExplicitState α ExplicitPrecision where
  toDomain := domain
  initialStates precision :=
    let start := Indexing.constant 0
    statesOf config limit precision start (initial.unfold start)
  successors precision state action :=
    if state = bottom then return []
    else do
      let query ← Computation.ofFormula
        (Expr.mkAnd [ExprState.toExpr state, ExprAction.toExpr action])
      statesOf config limit precision (ExprAction.nextIndexing action)
        (query.unfold (.constant 0))

end ExplicitState

end AbstractionRefinement
