import AbstractionRefinement.ModelDescriptions
import AbstractionRefinement.Refutations

/-!
# Abstractions by name

An abstraction bundles the states of an analysis with their precision: how both
are described and written, how the analysis is set up, and how the precision is
refined by a refutation.  The basic abstractions are explicit values,
predicates and zones; the compound ones are products of them.
-/

namespace AbstractionRefinement

/-- What an analysis needs to know about the model and the solver. -/
structure AnalysisSettings where
  config : SolverConfig
  /-- The condition of the initial states. -/
  initial : Expr
  /-- The limit on enumerated states. -/
  limit : Option Nat
  /-- Clock constraints that hold initially. -/
  invariants : List ClockConstraint
  constants : Zone.ClockConstants

/-- The condition of the initial states; without one, every state is initial. -/
def initialOfDescription (vocabulary : Vocabulary) (description : Description) :
    Reading Expr :=
  description.fieldOr "init" (Expr.ofDescription vocabulary) .top

/-- The limit on enumerated states.  Without one the usual limit holds, and an
empty one means that there is no limit. -/
def limitOfDescription (description : Description) : Reading (Option Nat) := do
  match (← description.asRecord).lookup "max_enum" with
  | none => return some ExplicitState.defaultLimit
  | some .empty => return none
  | some limit => some <$> limit.asWord64

/-- The greatest constants of the clocks, read off constraints if there are
some. -/
def constantsOfDescription (vocabulary : Vocabulary) (description : Description) :
    Reading Zone.ClockConstants := do
  match description.field? "max_from" with
  | some constraints =>
      return ZoneState.constantsOf
        (← constraints.asListOf (ClockConstraint.ofDescription vocabulary))
  | none =>
      return OrderedMap.ofList
        (← description.fieldOr "max_consts" (vocabulary.perVar Description.asInt64) [])

/-- The settings of an analysis that stands alone. -/
def AnalysisSettings.ofDescription (vocabulary : Vocabulary) (config : SolverConfig)
    (description : Description) : Reading AnalysisSettings := do
  let constraint := ClockConstraint.ofDescription vocabulary
  return {
    config
    initial := ← initialOfDescription vocabulary description
    limit := ← limitOfDescription description
    invariants := ← description.listField "invariants" constraint
    constants := ← constantsOfDescription vocabulary description }

/-- One component of a product. -/
inductive ProductSide where
  | first
  | second
deriving DecidableEq, Inhabited

/-- A component of a product. -/
def ProductSide.ofDescription : Description → Reading ProductSide
  | .text "first" => .ok first
  | .text "second" => .ok second
  | _ => malformed

/-- A kind of states and precisions with their analysis. -/
structure Abstraction where
  State : Type
  Tracked : Type
  [stateDisplay : Display State]
  [stateFormula : ExprState State]
  [stateEquality : DecidableEq State]
  [trackedDisplay : Display Tracked]
  [trackedPrecision : Precision Tracked]
  [trackedEquality : DecidableEq Tracked]
  /-- Whether clocks are tracked. -/
  timed : Bool
  stateOf : Vocabulary → Description → Reading State
  trackedOf : Vocabulary → Description → Reading Tracked
  analysis : {α : Type} → [ExprAction α] → [ClockAction α] → AnalysisSettings →
    Analysis SolverStatistics State α Tracked
  /-- The refinement by interpolants or by cores, at the component the sides
  lead to. -/
  refiner : (byCores : Bool) → List ProductSide → Reading (PrecisionRefiner Tracked)

namespace Abstraction

attribute [instance] stateDisplay stateFormula stateEquality trackedDisplay trackedPrecision
  trackedEquality

/-- A list that describes a pair. -/
def pairOf {α β : Type} (first : Description → Reading α) (second : Description → Reading β) :
    Description → Reading (α × β)
  | .list [left, right] => do
      let left ← first left
      return (left, ← second right)
  | _ => malformed

/-- Explicit values. -/
def explicitValues : Abstraction where
  State := ExplicitState
  Tracked := ExplicitPrecision
  timed := false
  stateOf vocabulary
    | .text "bottom" => return .bottom
    | .text "top" => return .top
    | description => .values <$> Valuation.ofDescription vocabulary description
  trackedOf vocabulary description := .ofList <$> vocabulary.vars description
  analysis settings := ExplicitState.analysis settings.config settings.initial settings.limit
  refiner _ _ := return ExplicitPrecision.refine

/-- Predicates. -/
def predicates : Abstraction where
  State := PredicateState
  Tracked := PredicatePrecision
  timed := false
  stateOf vocabulary
    | .text "bottom" => return .bottom
    | .text "top" => return .top
    | description => do
        return .cube (OrderedSet.ofList
          (← description.asListOf (Expr.ofDescription vocabulary)))
  trackedOf vocabulary description := do
    return .ofList (← description.asListOf (Expr.ofDescription vocabulary))
  analysis settings := PredicateState.analysis settings.config settings.initial
  refiner byCores _ := if byCores then malformed else return PredicatePrecision.refine

/-- The matrix after some clock operations. -/
def zoneOf (vocabulary : Vocabulary) (description : Description) : Reading Zone := do
  let clocks := OrderedSet.ofList (← vocabulary.vars (← description.field "clocks"))
  let start ←
    match ← description.field "from" with
    | .text "zero" => pure (Zone.origin clocks)
    | .text "top" => pure (Zone.top clocks)
    | _ => malformed
  let operations ←
    (← description.field "ops").asListOf (ClockOperation.ofDescription vocabulary)
  return operations.foldl Zone.apply start

/-- Zones; their precision is never refined. -/
def zones : Abstraction where
  State := ZoneState
  Tracked := ZonePrecision
  timed := true
  stateOf vocabulary
    | .text "bottom" => return .bottom
    | description => .zone <$> zoneOf vocabulary description
  trackedOf vocabulary description := .ofList <$> vocabulary.vars description
  analysis settings := ZoneState.analysis settings.invariants settings.constants
  refiner _ _ := malformed

/-- Pairs of two abstractions. -/
def product (first second : Abstraction) : Abstraction where
  State := first.State × second.State
  Tracked := first.Tracked × second.Tracked
  timed := first.timed || second.timed
  stateOf vocabulary := pairOf (first.stateOf vocabulary) (second.stateOf vocabulary)
  trackedOf vocabulary := pairOf (first.trackedOf vocabulary) (second.trackedOf vocabulary)
  analysis settings := (first.analysis settings).product (second.analysis settings)
  refiner byCores
    | .first :: sides => PrecisionRefiner.first <$> first.refiner byCores sides
    | .second :: sides => PrecisionRefiner.second <$> second.refiner byCores sides
    | [] => malformed

/-- The abstraction that a text names. -/
def named : String → Option Abstraction
  | "expl" => some explicitValues
  | "pred" => some predicates
  | "zone" => some zones
  | "pred_expl" => some (predicates.product explicitValues)
  | "expl_pred" => some (explicitValues.product predicates)
  | "zone_expl" => some (zones.product explicitValues)
  | "zone_pred" => some (zones.product predicates)
  | "zone_pred_expl" => some (zones.product (predicates.product explicitValues))
  | _ => none

end Abstraction

end AbstractionRefinement
