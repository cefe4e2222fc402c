import AbstractionRefinement.Proofs.StateFormulas
import AbstractionRefinement.Proofs.TraceInterpolation

/-!
# Formulas of the steps of a trace

The formulas of a path lie one after the other in time: that of an action with the state it
leads to speaks about the values between two times, and what follows about values from the
second one on.
-/

namespace AbstractionRefinement

open AbstractionRefinement.Computation

/-- Values of a step from the first time on, moved to the time of the step. -/
def placed (indexing : Indexing) (values : Symbol → Value) (symbol : Symbol) : Value :=
  values ⟨symbol.decl, symbol.index.map (· - indexing.get symbol.decl)⟩

theorem admits_placed {config : SolverConfig} {values : Symbol → Value}
    (admitted : ∀ symbol, config.Admits symbol.decl (values symbol)) (indexing : Indexing)
    (symbol : Symbol) : config.Admits symbol.decl (placed indexing values symbol) :=
  admitted ⟨symbol.decl, _⟩

theorem storeAt_placed (indexing : Indexing) (values : Symbol → Value) :
    storeAt (placed indexing values) indexing.get = storeAt values (Indexing.constant 0).get := by
  funext decl
  show values ⟨decl, some (indexing.get decl - indexing.get decl)⟩ = _
  rw [Nat.sub_self]
  rfl

theorem storeAt_placed_add (indexing next : Indexing) (values : Symbol → Value) :
    storeAt (placed indexing values) (indexing.add next).get = storeAt values next.get := by
  funext decl
  show values ⟨decl, some ((indexing.add next).get decl - indexing.get decl)⟩ = _
  rw [Indexing.get_add, Nat.add_sub_cancel_left]
  rfl

/-- The formula of the action speaks about the values from the current ones to the last
ones that the action writes. -/
structure Timely {α : Type} [ExprAction α] (action : α) : Prop where
  unindexed : (ExprAction.toExpr action).isIndexed = false
  upTo : ((ExprAction.toExpr action).unfold (.constant 0)).UpTo
    (ExprAction.nextIndexing action).get

namespace Timely

variable {α : Type} [ExprAction α] {action : α} (timely : Timely action) (indexing : Indexing)
include timely

theorem placed_moved (values : Symbol → Value) {symbol : Symbol}
    (occurs : symbol ∈ ((ExprAction.toExpr action).unfold (.constant 0)).symbols) :
    total (placed indexing values) (symbol.moved (Expr.later indexing)) = total values symbol := by
  obtain ⟨step, isIndex, -⟩ := timely.upTo symbol occurs
  obtain ⟨decl, index⟩ := symbol
  obtain rfl : index = some step := isIndex
  show some (values ⟨decl, some (indexing.get decl + step - indexing.get decl)⟩) = _
  rw [Nat.add_sub_cancel_left]

theorem evalBool_unfold (values : Symbol → Value) :
    ((ExprAction.toExpr action).unfold indexing).evalBool (total (placed indexing values)) =
      ((ExprAction.toExpr action).unfold (.constant 0)).evalBool (total values) := by
  rw [Expr.unfold_eq_moved indexing timely.unindexed, Expr.evalBool, Expr.eval_moved]
  exact Expr.evalBool_congr fun symbol => timely.placed_moved indexing values

theorem from_and_upTo : ((ExprAction.toExpr action).unfold indexing).From indexing.get ∧
    ((ExprAction.toExpr action).unfold indexing).UpTo
      (indexing.add (ExprAction.nextIndexing action)).get := by
  rw [Expr.unfold_eq_moved indexing timely.unindexed]
  refine forall₂_and.mp fun symbol occurs => ?_
  obtain ⟨other, inside, rfl⟩ := Expr.mem_symbols_moved.mp occurs
  obtain ⟨step, isIndex, bound⟩ := timely.upTo other inside
  have index : (other.moved (Expr.later indexing)).index =
      some (indexing.get other.decl + step) := by
    show other.index.map _ = _
    rw [isIndex, Option.map_some]
  refine ⟨⟨_, index, Nat.le_add_right ..⟩, ⟨_, index, ?_⟩⟩
  rw [Indexing.get_add]
  exact Nat.add_le_add_left bound _

end Timely

theorem le_get_add (first second : Indexing) (decl : VarDecl) :
    first.get decl ≤ (first.add second).get decl := by
  rw [Indexing.get_add]
  exact Nat.le_add_right ..

namespace Expr

variable {formula : Expr} {indexing : Indexing}

theorem IsCurrent.from_unfold (current : formula.IsCurrent) :
    (formula.unfold indexing).From indexing.get := fun _ occurs =>
  ⟨_, current.index_of_mem_symbols_unfold indexing occurs, Nat.le_refl _⟩

theorem IsCurrent.upTo_unfold (current : formula.IsCurrent) :
    (formula.unfold indexing).UpTo indexing.get := fun _ occurs =>
  ⟨_, current.index_of_mem_symbols_unfold indexing occurs, Nat.le_refl _⟩

theorem IsConjunction.from {operands : List Expr} {steps : VarDecl → Nat}
    (isConjunction : IsConjunction operands formula)
    (each : ∀ operand ∈ operands, operand.From steps) : formula.From steps := by
  intro symbol occurs
  obtain ⟨operand, member, inside⟩ := isConjunction.mem_symbols.mp occurs
  exact each operand member symbol inside

theorem IsConjunction.upTo {operands : List Expr} {steps : VarDecl → Nat}
    (isConjunction : IsConjunction operands formula)
    (each : ∀ operand ∈ operands, operand.UpTo steps) : formula.UpTo steps := by
  intro symbol occurs
  obtain ⟨operand, member, inside⟩ := isConjunction.mem_symbols.mp occurs
  exact each operand member symbol inside

end Expr

/-- The steps of a trace whose formulas can be placed in time. -/
def TimelySteps {σ α : Type} [ExprState σ] [ExprAction α] (steps : List (α × σ)) : Prop :=
  ∀ step ∈ steps, Timely step.1 ∧ (ExprState.toExpr step.2).IsCurrent

namespace PathFormula

variable {σ α : Type} [ExprState σ] [ExprAction α] {target : Expr} {indexing : Indexing}
  {steps : List (α × σ)} {path : PathFormula}

theorem ofActions_cons {action : α} {state : σ}
    (written : ofActions target indexing ((action, state) :: steps) = .ok path) :
    let next := indexing.add (ExprAction.nextIndexing action)
    ∃ step following, Expr.IsConjunction [(ExprAction.toExpr action).unfold indexing,
        (ExprState.toExpr state).unfold next] step ∧
      ofActions target next steps = .ok following ∧
      path = ⟨step :: following.steps, indexing :: following.indexings⟩ := by
  obtain ⟨step, joined, composed⟩ := exists_of_bind_eq_ok written
  obtain ⟨following, writtenRest, result⟩ := exists_of_bind_eq_ok composed
  exact ⟨step, following, Expr.isConjunction_of_mkAnd joined, writtenRest,
    (Except.ok.inj result).symm⟩

theorem head?_indexings (written : ofActions target indexing steps = .ok path) :
    path.indexings[0]? = some indexing := by
  cases steps with
  | nil =>
      cases written
      rfl
  | cons step steps =>
      obtain ⟨_, _, -, -, rfl⟩ := ofActions_cons written
      rfl

/-- The formulas of a step lie between the time of the step and the next one. -/
theorem from_and_upTo_step {action : α} {state : σ} {step : Expr} (timely : Timely action)
    (current : (ExprState.toExpr state).IsCurrent)
    (isConjunction : Expr.IsConjunction [(ExprAction.toExpr action).unfold indexing,
      (ExprState.toExpr state).unfold (indexing.add (ExprAction.nextIndexing action))] step) :
    step.From indexing.get ∧ step.UpTo (indexing.add (ExprAction.nextIndexing action)).get := by
  obtain ⟨later, upTo⟩ := timely.from_and_upTo indexing
  have laterState : ((ExprState.toExpr state).unfold
      (indexing.add (ExprAction.nextIndexing action))).From indexing.get :=
    current.from_unfold.mono (le_get_add indexing _)
  constructor
  · exact isConjunction.from
      (List.forall_mem_cons.mpr ⟨later, List.forall_mem_singleton.mpr laterState⟩)
  · exact isConjunction.upTo
      (List.forall_mem_cons.mpr ⟨upTo, List.forall_mem_singleton.mpr current.upTo_unfold⟩)

theorem from_of_ofActions (written : ofActions target indexing steps = .ok path)
    (currentTarget : target.IsCurrent) (timely : TimelySteps steps) :
    ∀ formula ∈ path.steps, formula.From indexing.get := by
  induction steps generalizing indexing path with
  | nil =>
      cases written
      exact List.forall_mem_singleton.mpr currentTarget.from_unfold
  | cons step steps ih =>
      obtain ⟨⟨timelyAction, current⟩, timelyRest⟩ := List.forall_mem_cons.mp timely
      obtain ⟨formula, following, isConjunction, writtenRest, rfl⟩ := ofActions_cons written
      refine List.forall_mem_cons.mpr
        ⟨(from_and_upTo_step timelyAction current isConjunction).1, fun formula member => ?_⟩
      exact (ih writtenRest timelyRest formula member).mono (le_get_add indexing _)

end PathFormula

end AbstractionRefinement
