import AbstractionRefinement.MachineIntegers
import AbstractionRefinement.FormulaTerms

/-!
# Difference bounds and clock constraints

A difference bound limits a difference of clocks from above, strictly or not,
or not at all.  It is packed into one machine word: twice the constant, plus one
when the limit itself is allowed, so that the order of words is the order of
bounds.  The greatest word stands for no limit.
-/

namespace AbstractionRefinement

/-- An upper bound of a difference. -/
structure Bound where
  code : Int
deriving DecidableEq, Inhabited

namespace Bound

/-- No limit. -/
def infinity : Bound := ⟨maxInt64⟩

/-- The bound `≤ 0`. -/
def zero : Bound := ⟨1⟩

/-- The bound that a constant is not exceeded. -/
def atMost (constant : Int) : Bound :=
  ⟨wrapInt64 (2 * constant) + 1⟩

/-- The bound that a constant is not reached. -/
def below (constant : Int) : Bound :=
  ⟨wrapInt64 (2 * constant)⟩

def new (constant : Int) (strict : Bool) : Bound :=
  if strict then below constant else atMost constant

def isInfinite (bound : Bound) : Bool :=
  bound = infinity

def constant (bound : Bound) : Int :=
  bound.code / 2

def isStrict (bound : Bound) : Bool :=
  bound.code % 2 = 0

/-- Bounds are ordered by their words. -/
instance : Ord Bound :=
  ⟨fun first second => compare first.code second.code⟩

instance : LT Bound := ⟨fun first second => first.code < second.code⟩
instance : LE Bound := ⟨fun first second => first.code ≤ second.code⟩

instance (first second : Bound) : Decidable (first < second) :=
  inferInstanceAs (Decidable (first.code < second.code))

instance (first second : Bound) : Decidable (first ≤ second) :=
  inferInstanceAs (Decidable (first.code ≤ second.code))

/-- The bound of a sum of differences: constants add up, and the sum is strict
when a summand is. -/
def add (first second : Bound) : Bound :=
  if first.isInfinite || second.isInfinite then infinity
  else new (first.constant + second.constant) (first.isStrict || second.isStrict)

/-- The written form of a bound. -/
def display (bound : Bound) : String :=
  if bound.isInfinite then "< inf"
  else if bound.isStrict then "< " ++ toString bound.constant
  else "<= " ++ toString bound.constant

end Bound

/-- The constraint that the left clock minus the right one is bounded.  A
missing clock counts as zero. -/
structure ClockConstraint where
  left : Option VarDecl
  right : Option VarDecl
  bound : Int
  strict : Bool
deriving DecidableEq, Inhabited

namespace ClockConstraint

def atMost (clock : VarDecl) (constant : Int) : ClockConstraint :=
  ⟨some clock, none, constant, false⟩

def below (clock : VarDecl) (constant : Int) : ClockConstraint :=
  ⟨some clock, none, constant, true⟩

def atLeast (clock : VarDecl) (constant : Int) : ClockConstraint :=
  ⟨none, some clock, -constant, false⟩

def above (clock : VarDecl) (constant : Int) : ClockConstraint :=
  ⟨none, some clock, -constant, true⟩

/-- The first clock exceeds the second by at most the constant. -/
def differenceAtMost (first second : VarDecl) (constant : Int) : ClockConstraint :=
  ⟨some first, some second, constant, false⟩

/-- The bound of the constrained difference. -/
def toBound (constraint : ClockConstraint) : Bound :=
  .new constraint.bound constraint.strict

/-- The clocks of a constraint. -/
def clocks (constraint : ClockConstraint) : List VarDecl :=
  constraint.left.toList ++ constraint.right.toList

/-- The written form of a constraint. -/
def display (constraint : ClockConstraint) : String :=
  let relation := if constraint.strict then "<" else "<="
  let limit := " " ++ relation ++ " " ++ toString constraint.bound
  match constraint.left, constraint.right with
  | some first, some second => first.name ++ " - " ++ second.name ++ limit
  | some first, none => first.name ++ limit
  | none, some second =>
      second.name ++ (if constraint.strict then " > " else " >= ") ++
        toString (-constraint.bound)
  | none, none => "0" ++ limit

/-- The fields of a constraint with their names. -/
def describe (constraint : ClockConstraint) : String :=
  let clock : Option VarDecl → String
    | none => "None"
    | some decl => "Some(" ++ decl.describe ++ ")"
  "ClockConstraint \x7b left: " ++ clock constraint.left ++ ", right: " ++
    clock constraint.right ++ ", bound: " ++ toString constraint.bound ++ ", strict: " ++
    (if constraint.strict then "true" else "false") ++ " \x7d"

end ClockConstraint

/-- What an action does to the clocks. -/
inductive ClockOperation where
  | guard (constraint : ClockConstraint)
  | reset (clock : VarDecl) (value : Int)
  | delay
  | invariant (constraint : ClockConstraint)
deriving DecidableEq, Inhabited

/-- The written form of a clock operation. -/
def ClockOperation.display : ClockOperation → String
  | guard constraint => "[" ++ constraint.display ++ "]"
  | reset clock value => clock.name ++ " := " ++ toString value
  | delay => "delay"
  | invariant constraint => "inv " ++ constraint.display

/-- Actions with an effect on clocks. -/
class ClockAction (α : Type) where
  clockOperations : α → List ClockOperation

end AbstractionRefinement
