import AbstractionRefinement.ControlFlowAutomata
import AbstractionRefinement.Proofs.FormulaTyping

/-!
# Executions of statements

A store gives every variable a value.  Statements are executed on stores by
evaluating their formulas; clock statements do not concern the data.  A trace is
followed by stores that satisfy the formulas of its states and between which the
statements of its edges lead.
-/

namespace AbstractionRefinement

/-- The current values of the variables. -/
abbrev Store := VarDecl → Value

namespace Store

/-- The values of the symbols; a symbol at a time step has none. -/
def read (store : Store) (symbol : Symbol) : Option Value :=
  if symbol.index = none then some (store symbol.decl) else none

@[simp]
theorem read_unindexed (store : Store) (decl : VarDecl) :
    store.read ⟨decl, none⟩ = some (store decl) :=
  rfl

/-- The store with one new value. -/
def write (store : Store) (decl : VarDecl) (value : Value) : Store :=
  Function.update store decl value

@[simp]
theorem write_self (store : Store) (decl : VarDecl) (value : Value) :
    store.write decl value decl = value :=
  Function.update_self ..

theorem write_of_ne (store : Store) {decl other : VarDecl} (differ : other ≠ decl) (value : Value) :
    store.write decl value other = store other :=
  Function.update_of_ne differ ..

end Store

/-- The formula holds at the store. -/
def Expr.Holds (formula : Expr) (store : Store) : Prop :=
  formula.evalBool store.read = some true

/-- A statement takes one store to another. -/
inductive Statement.Runs : Statement → Store → Store → Prop
  | assume {condition : Expr} {store : Store} (holds : condition.Holds store) :
      Runs (assume condition) store store
  | assign {target : VarDecl} {value : Expr} {store : Store} {result : Value}
      (evaluates : value.eval store.read = some result) :
      Runs (assign target value) store (store.write target result)
  | havoc {target : VarDecl} {store : Store} (result : Value)
      (typed : result.HasType target.ty) : Runs (havoc target) store (store.write target result)
  | clockGuard {constraint : ClockConstraint} {store : Store} :
      Runs (clockGuard constraint) store store
  | clockReset {clock : VarDecl} {value : Int} {store : Store} :
      Runs (clockReset clock value) store store

/-- The statements take one store to another, and all stores on the way are in the
region. -/
inductive Executes (region : Store → Prop) : List Statement → Store → Store → Prop
  | nil {store : Store} (inside : region store) : Executes region [] store store
  | cons {statement : Statement} {statements : List Statement} {store middle final : Store}
      (inside : region store) (runs : statement.Runs store middle)
      (rest : Executes region statements middle final) :
      Executes region (statement :: statements) store final

namespace Executes

variable {region region' : Store → Prop} {statements statements' : List Statement}
  {store middle final : Store}

theorem inside_first (executes : Executes region statements store final) : region store := by
  cases executes with
  | nil inside => exact inside
  | cons inside _ _ => exact inside

theorem inside_last (executes : Executes region statements store final) : region final := by
  induction executes with
  | nil inside => exact inside
  | cons _ _ _ ih => exact ih

theorem append (executes : Executes region statements store middle)
    (executes' : Executes region statements' middle final) :
    Executes region (statements ++ statements') store final := by
  induction executes with
  | nil _ => exact executes'
  | cons inside runs _ ih => exact .cons inside runs (ih executes')

theorem mono (executes : Executes region statements store final)
    (larger : ∀ store, region store → region' store) :
    Executes region' statements store final := by
  induction executes with
  | nil inside => exact .nil (larger _ inside)
  | cons inside runs _ ih => exact .cons (larger _ inside) runs ih

end Executes

/-- Every variable has a value of its domain. -/
def Store.Within (domain : VarDecl → Value → Prop) (store : Store) : Prop :=
  ∀ decl, domain decl (store decl)

/-- A statement takes one store to another, where a freed variable gets any value of its
domain. -/
inductive Statement.RunsOver (domain : VarDecl → Value → Prop) : Statement → Store → Store → Prop
  | assume {condition : Expr} {store : Store} (holds : condition.Holds store) :
      RunsOver domain (assume condition) store store
  | assign {target : VarDecl} {value : Expr} {store : Store} {result : Value}
      (evaluates : value.eval store.read = some result) :
      RunsOver domain (assign target value) store (store.write target result)
  | havoc {target : VarDecl} {store : Store} (result : Value) (admits : domain target result) :
      RunsOver domain (havoc target) store (store.write target result)
  | clockGuard {constraint : ClockConstraint} {store : Store} :
      RunsOver domain (clockGuard constraint) store store
  | clockReset {clock : VarDecl} {value : Int} {store : Store} :
      RunsOver domain (clockReset clock value) store store

/-- The statements take one store to another, and all variables have values of their domain
on the way. -/
inductive ExecutesOver (domain : VarDecl → Value → Prop) : List Statement → Store → Store → Prop
  | nil {store : Store} (within : store.Within domain) : ExecutesOver domain [] store store
  | cons {statement : Statement} {statements : List Statement} {store middle final : Store}
      (within : store.Within domain) (runs : statement.RunsOver domain store middle)
      (rest : ExecutesOver domain statements middle final) :
      ExecutesOver domain (statement :: statements) store final

namespace ExecutesOver

variable {domain : VarDecl → Value → Prop} {statements : List Statement} {store final : Store}

/-- If all values of the domain are of the types of the variables, these are the executions
whose stores are within the domain. -/
theorem executes_iff (typed : ∀ decl value, domain decl value → value.HasType decl.ty) :
    ExecutesOver domain statements store final ↔
      Executes (Store.Within domain) statements store final := by
  constructor
  · intro executes
    induction executes with
    | nil within => exact .nil within
    | cons within runs _ ih =>
        refine .cons within ?_ ih
        cases runs with
        | assume holds => exact .assume holds
        | assign evaluates => exact .assign evaluates
        | havoc result admits => exact .havoc result (typed _ _ admits)
        | clockGuard => exact .clockGuard
        | clockReset => exact .clockReset
  · intro executes
    induction executes with
    | nil within => exact .nil within
    | cons within runs rest ih =>
        refine .cons within ?_ ih
        cases runs with
        | assume holds => exact .assume holds
        | assign evaluates => exact .assign evaluates
        | @havoc target store result _ =>
            have admits := rest.inside_first target
            rw [Store.write_self] at admits
            exact .havoc result admits
        | clockGuard => exact .clockGuard
        | clockReset => exact .clockReset

end ExecutesOver

namespace Trace

variable {σ : Type} [ExprState σ]

/-- The stores follow the steps of a trace to one that satisfies the target
condition. -/
inductive FollowedFrom (region : Store → Prop) (target : Expr) :
    Store → List (ControlEdge × σ) → List Store → Prop
  | done {store : Store} (inside : region store) (holds : target.Holds store) :
      FollowedFrom region target store [] []
  | step {store next : Store} {edge : ControlEdge} {state : σ}
      {steps : List (ControlEdge × σ)} {stores : List Store}
      (executes : Executes region edge.statements store next)
      (holds : (ExprState.toExpr state).Holds next)
      (rest : FollowedFrom region target next steps stores) :
      FollowedFrom region target store ((edge, state) :: steps) (next :: stores)

/-- The stores are a concrete execution of the trace within the region. -/
inductive FollowedBy (region : Store → Prop) (initial target : Expr)
    (trace : Trace σ ControlEdge) : List Store → Prop
  | intro {store : Store} {stores : List Store} (starts : initial.Holds store)
      (holds : (ExprState.toExpr trace.first).Holds store)
      (rest : FollowedFrom region target store trace.steps stores) :
      FollowedBy region initial target trace (store :: stores)

end Trace

end AbstractionRefinement
