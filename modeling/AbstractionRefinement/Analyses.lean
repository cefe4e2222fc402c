import AbstractionRefinement.SolverQueries

/-!
# Analyses

The engine is generic in the abstract states, in the actions that label
transitions, and in the precision, the amount of information an abstraction
tracks.  A domain orders abstract states; an analysis adds the initial states
and the successors under an action, which may consult a solver.

An analysis is sound when a state below another one under a precision has no
successor outside the successors of the other one under the same action and
precision.
-/

namespace AbstractionRefinement

/-- Values with a written form. -/
class Display (α : Type) where
  display : α → String

export Display (display)

instance : Display String := ⟨id⟩

/-- The written form of a set of written elements. -/
def displaySet (elements : List String) : String :=
  "\x7b" ++ ", ".intercalate elements ++ "\x7d"

/-- The written form of an unsatisfiable state. -/
def bottomText : String := "⊥"

/-- Precisions can be joined and have a number of tracked items. -/
class Precision (π : Type) where
  /-- The least precision that tracks what either side tracks. -/
  join : π → π → π
  size : π → Nat

/-- States with a meaning as a formula over unindexed variables. -/
class ExprState (σ : Type) where
  toExpr : σ → Expr

/-- Actions with a meaning as a formula over current and next-state values, and
the time steps of the last values they write. -/
class ExprAction (α : Type) where
  toExpr : α → Expr
  nextIndexing : α → Indexing

/-- The order of abstract states under a precision. -/
structure Domain (σ π : Type) where
  /-- The state that represents everything. -/
  top : π → σ
  isBottom : σ → Bool
  /-- Whether the first state is subsumed by the second. -/
  leq : π → σ → σ → Bool
  /-- A state that represents exactly what the two states represent. -/
  join : π → σ → σ → Option σ
  /-- Whether joining can ever succeed. -/
  hasExactJoin : Bool

/-- A domain with initial states and successors. -/
structure Analysis (ω σ α π : Type) extends Domain σ π where
  initialStates : π → Computation ω (List σ)
  successors : π → σ → α → Computation ω (List σ)

/-- The actions enabled in each state. -/
abbrev TransitionLabels (σ α : Type) := σ → List α

/-- The states that are to be shown unreachable. -/
abbrev TargetPredicate (ω σ : Type) := σ → Computation ω Bool

/-- States that have an instance satisfying a formula. -/
def targetFormula {σ : Type} [ExprState σ] (config : SolverConfig) (formula : Expr) :
    TargetPredicate SolverStatistics σ := fun state => do
  let query ← Computation.ofFormula (Expr.mkAnd [ExprState.toExpr state, formula])
  Query.inSession config .plain do
    Query.add (query.unfold (.constant 0))
    Query.isSatisfiable

end AbstractionRefinement
