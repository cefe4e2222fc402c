import AbstractionRefinement.Analyses

/-!
# Symbolic transition systems

A system is given by an initial condition, a transition relation over current
and next-state values, and a property that should hold in every reachable
state.  Every step is the one action of the system and moves every variable to
its next version; a variable that the relation does not constrain takes any
value.
-/

namespace AbstractionRefinement

/-- A system with the property it should have. -/
structure TransitionSystem where
  initial : Expr
  transition : Expr
  property : Expr
deriving DecidableEq, Inhabited

/-- The action of a system. -/
structure TransitionAction where
  transition : Expr
deriving DecidableEq, Inhabited

instance : ExprAction TransitionAction where
  toExpr action := action.transition
  nextIndexing _ := .constant 1

instance : Display TransitionAction :=
  ⟨fun _ => "trans"⟩

namespace TransitionSystem

/-- Require a truth value of the current state. -/
def expectStateFormula (role : String) (formula : Expr) : Except FormulaError Unit := do
  Expr.expectType role formula .bool
  if formula.hasPrime then throw (.unexpectedPrime role)

/-- The system of three formulas. -/
def new (initial transition property : Expr) : Except FormulaError TransitionSystem := do
  expectStateFormula "init" initial
  expectStateFormula "prop" property
  Expr.expectType "trans" transition .bool
  return ⟨initial, transition, property⟩

/-- The set of variables. -/
def vars (system : TransitionSystem) : List VarDecl :=
  OrderedSet.ofList
    ([system.initial, system.transition, system.property].flatMap Expr.vars)

def action (system : TransitionSystem) : TransitionAction :=
  ⟨system.transition⟩

/-- The condition of the states that violate the property. -/
def violation (system : TransitionSystem) : Except FormulaError Expr :=
  Expr.mkNot system.property

end TransitionSystem

end AbstractionRefinement
