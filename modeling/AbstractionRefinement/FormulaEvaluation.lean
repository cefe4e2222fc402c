import AbstractionRefinement.FormulaConstruction

/-!
# Evaluation of formulas

The value of a formula under a partial assignment of its symbols is undefined
when it depends on an unassigned symbol or on a next-state value, or when its
arithmetic leaves the machine range.  Connectives are decided as soon as the
known operands decide them, and a choice between equal values needs no
condition.
-/

namespace AbstractionRefinement

namespace Value

/-- Integer arithmetic.  A quotient by zero is zero, and a remainder modulo
zero is the dividend. -/
def integerOperation (operator : BinaryOperator) (left right : Int) : Option Int :=
  match operator with
  | .sub => checkedInt64 (left - right)
  | .div => if right = 0 then some 0 else checkedInt64 (left / right)
  | .mod =>
      if right = 0 then some left
      else if left = minInt64 ∧ right = -1 then none
      else some (left % right)
  | _ => none

/-- Arithmetic of two numbers of one type. -/
def arithmetic (operator : BinaryOperator) : Value → Value → Option Value
  | int left, int right => (integerOperation operator left right).map int
  | rat left, rat right =>
      match operator with
      | .sub => (left.checkedSub right).map rat
      | .div => (left.checkedDiv right).map rat
      | _ => none
  | _, _ => none

/-- One step of a sum or product. -/
def accumulate (operator : NaryOperator) : Value → Value → Option Value
  | int left, int right =>
      match operator with
      | .add => (checkedInt64 (left + right)).map int
      | .mul => (checkedInt64 (left * right)).map int
      | _ => none
  | rat left, rat right =>
      match operator with
      | .add => (left.checkedAdd right).map rat
      | .mul => (left.checkedMul right).map rat
      | _ => none
  | _, _ => none

/-- Operations on bitvectors; the result has the width of the left operand. -/
def bitVecOperation (operator : BinaryOperator) : Value → Value → Option Value
  | bitVec left width, bitVec right _ =>
      match operator with
      | .bvAnd => some (bitVec ((left &&& right) % Nat.pow 2 width) width)
      | .bvOr => some (bitVec ((left ||| right) % Nat.pow 2 width) width)
      | .bvXor => some (bitVec ((left ^^^ right) % Nat.pow 2 width) width)
      | .bvAdd => some (bitVec ((left + right) % Nat.pow 2 width) width)
      | .bvUlt => some (bool (left < right))
      | _ => none
  | _, _ => none

/-- The numeric relation named by a comparison operator. -/
def relates (operator : BinaryOperator) (order : Ordering) : Option Bool :=
  match operator with
  | .lt => some (order = .lt)
  | .leq => some (order ≠ .gt)
  | .gt => some (order = .gt)
  | .geq => some (order ≠ .lt)
  | _ => none

end Value

/-- The truth value carried by an optional value. -/
def truthOf (value : Option Value) : Option Bool :=
  value.bind Value.asBool

/-- Conjunction of partially known truth values. -/
def conjunction (truths : List (Option Bool)) : Option Bool :=
  if truths.contains (some false) then some false
  else if truths.contains none then none
  else some true

/-- Disjunction of partially known truth values. -/
def disjunction (truths : List (Option Bool)) : Option Bool :=
  if truths.contains (some true) then some true
  else if truths.contains none then none
  else some false

namespace UnaryOperator

/-- The value of an operator node from the value of its operand. -/
def evaluate (operator : UnaryOperator) (operand : Option Value) : Option Value :=
  match operator with
  | prime => none
  | not => do return .bool (!(← truthOf operand))
  | negate =>
      match operand with
      | some (.int number) => (checkedInt64 (-number)).map .int
      | some (.rat number) => some (.rat number.negate)
      | _ => none
  | bvNot =>
      match operand with
      | some (.bitVec bits width) => some (.bitVec ((Nat.pow 2 width - 1) ^^^ bits) width)
      | _ => none

end UnaryOperator

namespace BinaryOperator

/-- The value of an operator node from the values of its operands. -/
def evaluate (operator : BinaryOperator) (left right : Option Value) : Option Value :=
  match operator with
  | imply =>
      match truthOf left, truthOf right with
      | some false, _ => some (.bool true)
      | _, some true => some (.bool true)
      | some true, some false => some (.bool false)
      | _, _ => none
  | iff => do return .bool ((← truthOf left) == (← truthOf right))
  | eq => do return .bool (decide ((← left) = (← right)))
  | neq => do return .bool (decide ((← left) ≠ (← right)))
  | lt | leq | gt | geq => do
      let order ← Value.compareNumeric (← left) (← right)
      return .bool (← Value.relates operator order)
  | sub | div | mod => do Value.arithmetic operator (← left) (← right)
  | read => do Value.select (← left) (← right)
  | bvAnd | bvOr | bvXor | bvAdd | bvUlt => do
      Value.bitVecOperation operator (← left) (← right)

end BinaryOperator

namespace TernaryOperator

/-- The value of an operator node from the values of its operands. -/
def evaluate (operator : TernaryOperator) (first second third : Option Value) :
    Option Value :=
  match operator with
  | ite =>
      match truthOf first with
      | some true => second
      | some false => third
      | none => do
          let positive ← second
          let negative ← third
          if positive = negative then some positive else none
  | write => do Value.store (← first) (← second) (← third)

end TernaryOperator

namespace NaryOperator

/-- The value of an operator node from the values of its operands. -/
def evaluate (operator : NaryOperator) (operands : List (Option Value)) : Option Value :=
  match operator with
  | and => (conjunction (operands.map truthOf)).map .bool
  | or => (disjunction (operands.map truthOf)).map .bool
  | add | mul =>
      match operands with
      | [] => none
      | first :: rest =>
          rest.foldl
            (fun total operand => do Value.accumulate operator (← total) (← operand))
            first

end NaryOperator

namespace Expr

mutual

/-- The value of a formula under a partial assignment. -/
def eval (assignment : Symbol → Option Value) : Expr → Option Value
  | lit value => some value
  | sym symbol => assignment symbol
  | unary operator operand _ => operator.evaluate (operand.eval assignment)
  | binary operator left right _ =>
      operator.evaluate (left.eval assignment) (right.eval assignment)
  | ternary operator first second third _ =>
      operator.evaluate (first.eval assignment) (second.eval assignment)
        (third.eval assignment)
  | nary operator operands _ => operator.evaluate (evalAll assignment operands)

/-- The values of several formulas under a partial assignment. -/
def evalAll (assignment : Symbol → Option Value) : List Expr → List (Option Value)
  | [] => []
  | operand :: operands => operand.eval assignment :: evalAll assignment operands

end

/-- The truth value of a formula; undefined for a formula of another type. -/
def evalBool (assignment : Symbol → Option Value) (formula : Expr) : Option Bool :=
  truthOf (formula.eval assignment)

/-- The value of a formula without symbols. -/
def constantValue (formula : Expr) : Option Value :=
  formula.eval fun _ => none

/-- One step of simplification at a node whose operands are simplified. -/
def simplifyNode (assignment : Symbol → Option Value) (node : Expr) : Option Expr :=
  match node with
  | sym symbol => (assignment symbol).map lit
  | _ =>
      match node.constantValue with
      | some value => some (lit value)
      | none =>
          match node with
          | nary .and operands _ =>
              let kept := operands.filter fun operand => !operand.isTop
              if kept.length = operands.length then none else (mkAnd kept).toOption
          | nary .or operands _ =>
              let kept := operands.filter fun operand => !operand.isBottom
              if kept.length = operands.length then none else (mkOr kept).toOption
          | _ => none

/-- Substitute the assigned symbols, evaluate what is constant, and drop the
neutral operands of connectives. -/
def simplify (assignment : Symbol → Option Value) (formula : Expr) : Expr :=
  formula.replaceBottomUp (simplifyNode assignment)

end Expr

end AbstractionRefinement
