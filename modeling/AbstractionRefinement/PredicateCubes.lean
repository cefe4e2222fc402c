import AbstractionRefinement.Analyses

/-!
# Predicate abstraction

A predicate state is a cube over the tracked predicates: each occurs positively,
negatively or not at all.  Successors are computed by Boolean abstraction:
every combination of predicate values that is consistent with the transition
gives one cube.
-/

namespace AbstractionRefinement

/-- The set of tracked predicates, none of them a negation or a constant. -/
structure PredicatePrecision where
  predicates : List Expr := []
deriving DecidableEq, Inhabited

/-- A conjunction of predicates and negated predicates, or no state at all. -/
inductive PredicateState where
  | bottom
  | cube (literals : List Expr)
deriving DecidableEq, Inhabited

namespace PredicatePrecision

/-- Track the given predicates.  Outermost negations are stripped, and literals
are dropped. -/
def ofList (predicates : List Expr) : PredicatePrecision :=
  ⟨OrderedSet.ofList
    ((predicates.map Expr.stripNegations).filter fun predicate =>
      predicate.asLiteral.isNone)⟩

instance : Precision PredicatePrecision where
  join first second := ⟨OrderedSet.union first.predicates second.predicates⟩
  size precision := precision.predicates.length

instance : Display PredicatePrecision :=
  ⟨fun precision => displaySet (precision.predicates.map Expr.display)⟩

end PredicatePrecision

namespace PredicateState

/-- The state without literals. -/
def top : PredicateState :=
  .cube []

instance : ExprState PredicateState where
  toExpr
    | bottom => .bottom
    | cube literals => (Expr.mkAnd literals).toOption.getD .bottom

instance : Display PredicateState where
  display
    | bottom => bottomText
    | state => (ExprState.toExpr state).display

/-- A cube is subsumed by one whose literals it has. -/
def leq : PredicateState → PredicateState → Bool
  | bottom, _ => true
  | _, bottom => false
  | cube first, cube second => OrderedSet.isSubset second first

/-- The opposite literal. -/
def opposite : Expr → Option Expr
  | .unary .not operand _ => some operand
  | predicate => (Expr.mkNot predicate).toOption

/-- Two cubes can be joined exactly when one subsumes the other or when they
differ in the sign of one predicate. -/
def join (first second : PredicateState) : Option PredicateState :=
  if first.leq second then some second
  else if second.leq first then some first
  else
    match first, second with
    | cube left, cube right =>
        if left.length = right.length then
          let onlyLeft := left.filter fun literal => !OrderedSet.contains literal right
          let onlyRight := right.filter fun literal => !OrderedSet.contains literal left
          match onlyLeft, onlyRight with
          | [positive], [negative] =>
              if opposite positive = some negative then
                some (cube (left.filter fun literal => literal ≠ positive))
              else none
          | _, _ => none
        else none
    | _, _ => none

/-- The domain of predicate states. -/
def domain : Domain PredicateState PredicatePrecision where
  top _ := top
  isBottom state := state = bottom
  leq _ := leq
  join _ := join
  hasExactJoin := true

/-- The Boolean variable that stands for a predicate in a query. -/
def activation (position : Nat) : VarDecl :=
  ⟨"__pred" ++ toString position, .bool⟩

/-- The literals that a model of the activation variables selects. -/
def selectLiterals (model : Valuation) :
    List (Expr × Nat) → Except FormulaError (List Expr)
  | [] => .ok []
  | (predicate, position) :: rest => do
      match model.get? ⟨activation position, none⟩ with
      | some (.bool true) => return OrderedSet.insert predicate (← selectLiterals model rest)
      | some (.bool false) => do
          let negated ← Expr.mkNot predicate
          return OrderedSet.insert negated (← selectLiterals model rest)
      | _ => selectLiterals model rest

/-- The cubes of a formula over the tracked predicates at the given time
steps. -/
def statesOf (config : SolverConfig) (precision : PredicatePrecision) (next : Indexing)
    (formula : Expr) : Computation SolverStatistics (List PredicateState) :=
  let numbered := precision.predicates.zipIdx
  Query.inSession config .forIncrementalUse do
    Query.add formula
    numbered.forM fun (predicate, position) => do
      Query.add (← Computation.ofFormula
        (Expr.mkIff (activation position).toExpr (predicate.unfold next)))
    let symbols : List Symbol := numbered.map fun (_, position) => ⟨activation position, none⟩
    match ← Query.allModels symbols none with
    | none => return [top]
    | some models =>
        models.mapM fun model => do
          return cube (← Computation.ofFormula (selectLiterals model numbered))

/-- The predicate analysis from the states of an initial formula. -/
def analysis {α : Type} [ExprAction α] (config : SolverConfig) (initial : Expr) :
    Analysis SolverStatistics PredicateState α PredicatePrecision where
  toDomain := domain
  initialStates precision :=
    let start := Indexing.constant 0
    statesOf config precision start (initial.unfold start)
  successors precision state action :=
    if state = bottom then return []
    else do
      let query ← Computation.ofFormula
        (Expr.mkAnd [ExprState.toExpr state, ExprAction.toExpr action])
      statesOf config precision (ExprAction.nextIndexing action)
        (query.unfold (.constant 0))

end PredicateState

end AbstractionRefinement
