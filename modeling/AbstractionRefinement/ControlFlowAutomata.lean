import AbstractionRefinement.ClockZones
import AbstractionRefinement.GraphExploration

/-!
# Control-flow automata

An automaton has locations connected by edges that carry sequences of
statements.  The data statements of an edge become its formula in single
assignment form: the `k`-th assignment of a variable writes its value under `k`
primes.  The clock statements become clock operations; after them the
invariants of the target location hold, time elapses unless the target is
urgent, and the invariants hold again.

An analysis of edges is lifted to pairs of a location and a state.  Nodes only
cover nodes at the same location, and the error location is the target.
-/

namespace AbstractionRefinement

/-- A location.  Time does not elapse in an urgent one. -/
structure Location where
  name : String
  invariants : List ClockConstraint := []
  urgent : Bool := false
deriving DecidableEq, Inhabited

/-- A statement of an edge. -/
inductive Statement where
  | assume (condition : Expr)
  | assign (target : VarDecl) (value : Expr)
  | havoc (target : VarDecl)
  | clockGuard (constraint : ClockConstraint)
  | clockReset (clock : VarDecl) (value : Int)
deriving DecidableEq, Inhabited

namespace Statement

/-- The written form of a statement. -/
def display : Statement → String
  | assume condition => "assume " ++ condition.display
  | assign target value => target.name ++ " := " ++ value.display
  | havoc target => "havoc " ++ target.name
  | clockGuard constraint => "guard " ++ constraint.describe
  | clockReset clock value => clock.name ++ " := " ++ toString value

/-- Require a formula over current values. -/
def expectUnprimed (statement : String) (formula : Expr) : Except FormulaError Unit :=
  if formula.hasPrime || formula.isIndexed then .error (.unexpectedPrime statement)
  else .ok ()

/-- Require well-typed formulas over current values. -/
def validate : Statement → Except FormulaError Unit
  | assume condition => do
      expectUnprimed "assume" condition
      Expr.expectType "assume" condition .bool
  | assign target value => do
      expectUnprimed "assign" value
      Expr.expectType "assign" value target.ty
  | _ => .ok ()

/-- The data variables of a statement. -/
def vars : Statement → List VarDecl
  | assume condition => condition.vars
  | assign target value => OrderedSet.insert target value.vars
  | havoc target => [target]
  | _ => []

/-- The clock constraint of a guard. -/
def clockConstraint? : Statement → Option ClockConstraint
  | clockGuard constraint => some constraint
  | _ => none

/-- The effect of a statement on the clocks. -/
def clockOperation? : Statement → Option ClockOperation
  | clockGuard constraint => some (.guard constraint)
  | clockReset clock value => some (.reset clock value)
  | _ => none

end Statement

/-- The formula in which every variable stands under as many primes as it was
assigned before. -/
def Expr.shift (offsets : Indexing) (formula : Expr) : Expr :=
  formula.replaceBottomUp fun
    | .sym ⟨decl, none⟩ => some (primedVariable decl (offsets.get decl))
    | _ => none

/-- The conjuncts of data statements after some assignments, and the number of
assignments of each variable in the end. -/
def encodeStatements (offsets : Indexing) :
    List Statement → Except FormulaError (List Expr × Indexing)
  | [] => .ok ([], offsets)
  | .assume condition :: statements => do
      let (conjuncts, final) ← encodeStatements offsets statements
      return (condition.shift offsets :: conjuncts, final)
  | .assign target value :: statements => do
      let assigned := offsets.increment target
      let equation ← Expr.mkEq (Expr.primedVariable target (assigned.get target))
        (value.shift offsets)
      let (conjuncts, final) ← encodeStatements assigned statements
      return (equation :: conjuncts, final)
  | .havoc target :: statements => encodeStatements (offsets.increment target) statements
  | .clockGuard _ :: statements => encodeStatements offsets statements
  | .clockReset .. :: statements => encodeStatements offsets statements

/-- An edge, which is also the action of its analysis. -/
structure ControlEdge where
  source : Nat
  target : Nat
  statements : List Statement
  formula : Expr
  next : Indexing
  clockOperations : List ClockOperation
deriving DecidableEq, Inhabited

namespace ControlEdge

instance : ExprAction ControlEdge where
  toExpr := formula
  nextIndexing := next

instance : ClockAction ControlEdge where
  clockOperations := clockOperations

instance : Display ControlEdge where
  display edge :=
    "L" ++ toString edge.source ++ " -> L" ++ toString edge.target ++
      String.join (edge.statements.zipIdx.map fun (statement, position) =>
        (if position = 0 then ": " else "; ") ++ statement.display)

/-- The edge between two of the given locations, which need not exist. -/
def ofStatements (locations : List Location) (source target : Nat)
    (statements : List Statement) : Except FormulaError ControlEdge := do
  let (conjuncts, next) ← encodeStatements (.constant 0) statements
  let formula ← Expr.mkAnd conjuncts
  let entry :=
    match locations[target]? with
    | none => []
    | some location =>
        let invariants := location.invariants.map ClockOperation.invariant
        if location.urgent then invariants else invariants ++ .delay :: invariants
  return {
    source, target, statements, formula, next
    clockOperations := statements.filterMap Statement.clockOperation? ++ entry }

end ControlEdge

/-- Locations, the first of which is initial, with edges and the error
location. -/
structure ControlFlowAutomaton where
  locations : List Location
  edges : List ControlEdge
  error : Option Nat
deriving DecidableEq, Inhabited

namespace ControlFlowAutomaton

/-- The automaton of some locations and validated edges. -/
def build (locations : List Location) (edges : List (Nat × Nat × List Statement))
    (error : Option Nat) : Except FormulaError ControlFlowAutomaton := do
  let edges ← edges.mapM fun (source, target, statements) =>
    ControlEdge.ofStatements locations source target statements
  return ⟨locations, edges, error⟩

/-- The number of the initial location. -/
def initial : Nat := 0

/-- The edges that leave a location. -/
def outgoing (automaton : ControlFlowAutomaton) (location : Nat) : List ControlEdge :=
  automaton.edges.filter fun edge => edge.source = location

/-- All statements of all edges. -/
def statements (automaton : ControlFlowAutomaton) : List Statement :=
  automaton.edges.flatMap ControlEdge.statements

/-- The set of data variables. -/
def vars (automaton : ControlFlowAutomaton) : List VarDecl :=
  OrderedSet.ofList (automaton.statements.flatMap Statement.vars)

/-- The clock constraints of guards and invariants. -/
def clockConstraints (automaton : ControlFlowAutomaton) : List ClockConstraint :=
  automaton.statements.filterMap Statement.clockConstraint? ++
    automaton.locations.flatMap Location.invariants

/-- The set of clocks of guards, invariants and resets. -/
def clocks (automaton : ControlFlowAutomaton) : List VarDecl :=
  let reset? : Statement → Option VarDecl
    | .clockReset clock _ => some clock
    | _ => none
  OrderedSet.ofList (automaton.clockConstraints.flatMap ClockConstraint.clocks ++
    automaton.statements.filterMap reset?)

/-- The greatest constant each clock is compared with. -/
def clockConstants (automaton : ControlFlowAutomaton) : Zone.ClockConstants :=
  ZoneState.constantsOf automaton.clockConstraints

end ControlFlowAutomaton

/-- A state at a location. -/
structure Located (σ : Type) where
  location : Nat
  state : σ
deriving DecidableEq, Inhabited

namespace Located

variable {ω σ π : Type}

instance [ExprState σ] : ExprState (Located σ) :=
  ⟨fun located => ExprState.toExpr located.state⟩

instance [Display σ] : Display (Located σ) :=
  ⟨fun located =>
    "(L" ++ toString located.location ++ ", " ++ display located.state ++ ")"⟩

/-- The domain of located states: only states at one location are compared. -/
def domain (inner : Domain σ π) : Domain (Located σ) π where
  top precision := ⟨ControlFlowAutomaton.initial, inner.top precision⟩
  isBottom located := inner.isBottom located.state
  leq precision first second :=
    first.location = second.location && inner.leq precision first.state second.state
  join precision first second :=
    if first.location = second.location then
      (inner.join precision first.state second.state).map fun state =>
        ⟨first.location, state⟩
    else none
  hasExactJoin := inner.hasExactJoin

/-- The analysis of located states that moves along edges. -/
def analysis (inner : Analysis ω σ ControlEdge π) :
    Analysis ω (Located σ) ControlEdge π where
  toDomain := domain inner.toDomain
  initialStates precision := do
    let states ← inner.initialStates precision
    return states.map fun state => ⟨ControlFlowAutomaton.initial, state⟩
  successors precision located edge :=
    if edge.source = located.location then do
      let states ← inner.successors precision located.state edge
      return states.map fun state => ⟨edge.target, state⟩
    else return []

/-- The explorer of an automaton: locations are the projection, and the error
location is the target. -/
def explorer (automaton : ControlFlowAutomaton) (inner : Analysis ω σ ControlEdge π)
    (strategy : SearchStrategy) (stop : StopCriterion) (coverage : CoverageMode) :
    Explorer ω (Located σ) ControlEdge π where
  analysis := analysis inner
  enabled located := automaton.outgoing located.location
  target located := return some located.location = automaton.error
  projection := location
  strategy := strategy
  stop := stop
  coverage := coverage

end Located

end AbstractionRefinement
