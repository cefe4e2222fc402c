import AbstractionRefinement.Analyses

/-!
# Products of analyses

Two analyses over the same actions run side by side on pairs of states and
pairs of precisions.  A pair is unsatisfiable when one of its components is.
-/

namespace AbstractionRefinement

variable {ω σ τ α π ρ : Type}

/-- The written form of a pair. -/
instance [Display σ] [Display τ] : Display (σ × τ) :=
  ⟨fun pair => "(" ++ display pair.1 ++ ", " ++ display pair.2 ++ ")"⟩

/-- Precisions are joined and counted component by component. -/
instance [Precision π] [Precision ρ] : Precision (π × ρ) where
  join first second :=
    (Precision.join first.1 second.1, Precision.join first.2 second.2)
  size precision := Precision.size precision.1 + Precision.size precision.2

/-- A pair means the conjunction of its components. -/
instance [ExprState σ] [ExprState τ] : ExprState (σ × τ) :=
  ⟨fun pair =>
    (Expr.mkAnd [ExprState.toExpr pair.1, ExprState.toExpr pair.2]).toOption.getD .bottom⟩

namespace Domain

/-- Two states that subsume each other. -/
def equivalent (domain : Domain σ π) (precision : π) (first second : σ) : Bool :=
  domain.leq precision first second && domain.leq precision second first

/-- The product of two domains.  Joining is exact when one component is the same
on both sides and the other one can be joined exactly. -/
def product (first : Domain σ π) (second : Domain τ ρ) : Domain (σ × τ) (π × ρ) where
  top precision := (first.top precision.1, second.top precision.2)
  isBottom state := first.isBottom state.1 || second.isBottom state.2
  leq precision state other :=
    (first.isBottom state.1 || second.isBottom state.2) ||
      (first.leq precision.1 state.1 other.1 && second.leq precision.2 state.2 other.2)
  join precision state other :=
    if first.equivalent precision.1 state.1 other.1 then
      (second.join precision.2 state.2 other.2).map fun joined => (state.1, joined)
    else if second.equivalent precision.2 state.2 other.2 then
      (first.join precision.1 state.1 other.1).map fun joined => (joined, state.2)
    else none
  hasExactJoin := first.hasExactJoin || second.hasExactJoin

end Domain

/-- All pairs, ordered by their first component. -/
def allPairs (firsts : List σ) (seconds : List τ) : List (σ × τ) :=
  firsts.flatMap fun first => seconds.map fun second => (first, second)

namespace Analysis

/-- The product of two analyses.  The second one is not asked when the first
one finds no state. -/
def product (first : Analysis ω σ α π) (second : Analysis ω τ α ρ) :
    Analysis ω (σ × τ) α (π × ρ) where
  toDomain := first.toDomain.product second.toDomain
  initialStates precision := do
    let firsts ← first.initialStates precision.1
    if firsts.isEmpty then return []
    else return allPairs firsts (← second.initialStates precision.2)
  successors precision state action := do
    let firsts ← first.successors precision.1 state.1 action
    if firsts.isEmpty then return []
    else return allPairs firsts (← second.successors precision.2 state.2 action)

end Analysis

end AbstractionRefinement
