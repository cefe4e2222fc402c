import AbstractionRefinement.FormulaStructure

/-!
# Checked construction of formulas

These constructors build a formula only when its operands have suitable types.
Operands are checked from left to right, and the first offending one decides
the error.
-/

namespace AbstractionRefinement

/-- The unindexed variable as a formula. -/
def VarDecl.toExpr (decl : VarDecl) : Expr :=
  .sym ⟨decl, none⟩

/-- The variable at a time step as a formula. -/
def VarDecl.atStep (decl : VarDecl) (step : Nat) : Expr :=
  .sym ⟨decl, some step⟩

/-- The next-state value of the variable. -/
def VarDecl.primed (decl : VarDecl) : Expr :=
  .unary .prime decl.toExpr decl.ty

/-- The symbol as a formula. -/
def Symbol.toExpr (symbol : Symbol) : Expr :=
  .sym symbol

namespace Expr

/-- Require a type. -/
def expectType (operator : String) (operand : Expr) (expected : Ty) :
    Except FormulaError Unit :=
  if operand.ty = expected then .ok ()
  else .error (.typeMismatch operator expected.display operand.ty)

/-- Require an integer or a rational number. -/
def expectNumeric (operator : String) (operand : Expr) : Except FormulaError Unit :=
  if operand.ty.isNumeric then .ok ()
  else .error (.typeMismatch operator "Int or Rat" operand.ty)

/-- Require a bitvector. -/
def expectBitVec (operator : String) (operand : Expr) : Except FormulaError Unit :=
  if operand.ty.isBitVec then .ok ()
  else .error (.typeMismatch operator "BitVec" operand.ty)

/-- The constant of a truth value. -/
def ofBool (truth : Bool) : Expr :=
  lit (.bool truth)

/-- The valid formula. -/
def top : Expr :=
  ofBool true

/-- The unsatisfiable formula. -/
def bottom : Expr :=
  ofBool false

def ofInt (number : Int) : Expr :=
  lit (.int number)

/-- The constant of a rational number. -/
def ofRatio (num den : Int) : Except FormulaError Expr :=
  match RationalNumber.normalize num den with
  | some number => .ok (lit (.rat number))
  | none => .error (.typeMismatch "rat" "non-zero denominator" .rat)

/-- The constant of a bitvector. -/
def ofBits (bits width : Nat) : Except FormulaError Expr :=
  return lit (← Value.ofBits bits width)

/-- The value of a formula in the next state.  Symbols with a time step have
no next state. -/
def mkPrime (operand : Expr) : Except FormulaError Expr :=
  match operand.symbols.find? fun symbol => symbol.index.isSome with
  | some symbol => .error (.primedIndexedSymbol symbol.display)
  | none => .ok (unary .prime operand operand.ty)

/-- Repeated priming. -/
def mkPrimes (operand : Expr) : Nat → Except FormulaError Expr
  | 0 => .ok operand
  | count + 1 => do mkPrimes (← mkPrime operand) count

def mkNot (operand : Expr) : Except FormulaError Expr := do
  expectType "not" operand .bool
  return unary .not operand .bool

/-- Require the same type of every operand. -/
def expectTypeAll (operator : String) (expected : Ty) : List Expr → Except FormulaError Unit
  | [] => .ok ()
  | operand :: operands => do
      expectType operator operand expected
      expectTypeAll operator expected operands

/-- A conjunction.  No operand gives truth, and one operand stands for itself. -/
def mkAnd (operands : List Expr) : Except FormulaError Expr := do
  expectTypeAll "and" .bool operands
  match operands with
  | [] => return top
  | [operand] => return operand
  | _ => return nary .and operands .bool

/-- A disjunction.  No operand gives falsity, and one operand stands for
itself. -/
def mkOr (operands : List Expr) : Except FormulaError Expr := do
  expectTypeAll "or" .bool operands
  match operands with
  | [] => return bottom
  | [operand] => return operand
  | _ => return nary .or operands .bool

/-- A connective between two Boolean formulas. -/
def mkConnective (operator : BinaryOperator) (left right : Expr) :
    Except FormulaError Expr := do
  expectType operator.name left .bool
  expectType operator.name right .bool
  return binary operator left right .bool

def mkImply : Expr → Expr → Except FormulaError Expr :=
  mkConnective .imply

def mkIff : Expr → Expr → Except FormulaError Expr :=
  mkConnective .iff

/-- An equality or disequality of two formulas of one type. -/
def mkEquation (operator : BinaryOperator) (left right : Expr) :
    Except FormulaError Expr := do
  expectType operator.name right left.ty
  return binary operator left right .bool

def mkEq : Expr → Expr → Except FormulaError Expr :=
  mkEquation .eq

def mkNeq : Expr → Expr → Except FormulaError Expr :=
  mkEquation .neq

/-- A comparison of two numeric formulas of one type. -/
def mkComparison (operator : BinaryOperator) (left right : Expr) :
    Except FormulaError Expr := do
  expectNumeric operator.name left
  expectType operator.name right left.ty
  return binary operator left right .bool

/-- A sum or product of numeric formulas of one type. -/
def mkArithmetic (operator : NaryOperator) (operands : List Expr) :
    Except FormulaError Expr := do
  match operands with
  | [] => .error (.arity operator.name "at least 1" 0)
  | first :: rest =>
      expectNumeric operator.name first
      expectTypeAll operator.name first.ty rest
      match rest with
      | [] => return first
      | _ => return nary operator (first :: rest) first.ty

def mkAdd : List Expr → Except FormulaError Expr :=
  mkArithmetic .add

def mkMul : List Expr → Except FormulaError Expr :=
  mkArithmetic .mul

/-- A difference or quotient of two numeric formulas of one type. -/
def mkNumericBinary (operator : BinaryOperator) (left right : Expr) :
    Except FormulaError Expr := do
  expectNumeric operator.name left
  expectType operator.name right left.ty
  return binary operator left right left.ty

/-- The Euclidean remainder of two integers. -/
def mkMod (left right : Expr) : Except FormulaError Expr := do
  expectType "mod" left .int
  expectType "mod" right .int
  return binary .mod left right .int

def mkNegate (operand : Expr) : Except FormulaError Expr := do
  expectNumeric "-" operand
  return unary .negate operand operand.ty

/-- A choice between two formulas of one type. -/
def mkIte (condition positive negative : Expr) : Except FormulaError Expr := do
  expectType "ite" condition .bool
  expectType "ite" negative positive.ty
  return ternary .ite condition positive negative positive.ty

/-- The element of an array at an index. -/
def mkRead (array index : Expr) : Except FormulaError Expr := do
  match array.ty with
  | .array indexTy elementTy =>
      expectType "read" index indexTy
      return binary .read array index elementTy
  | other => .error (.typeMismatch "read" "Array" other)

/-- The array with one element replaced. -/
def mkWrite (array index element : Expr) : Except FormulaError Expr := do
  match array.ty with
  | .array indexTy elementTy =>
      expectType "write" index indexTy
      expectType "write" element elementTy
      return ternary .write array index element array.ty
  | other => .error (.typeMismatch "write" "Array" other)

/-- An operation on two bitvectors of one width. -/
def mkBitVecBinary (operator : BinaryOperator) (left right : Expr) :
    Except FormulaError Expr := do
  expectBitVec operator.name left
  expectType operator.name right left.ty
  return binary operator left right left.ty

def mkBvNot (operand : Expr) : Except FormulaError Expr := do
  expectBitVec "bvnot" operand
  return unary .bvNot operand operand.ty

/-- The unsigned comparison of two bitvectors of one width. -/
def mkBvUlt (left right : Expr) : Except FormulaError Expr := do
  expectBitVec "bvult" left
  expectType "bvult" right left.ty
  return binary .bvUlt left right .bool

/-- The checked constructor of each operator with two operands. -/
def mkBinary (operator : BinaryOperator) : Expr → Expr → Except FormulaError Expr :=
  match operator with
  | .imply | .iff => mkConnective operator
  | .eq | .neq => mkEquation operator
  | .lt | .leq | .gt | .geq => mkComparison operator
  | .sub | .div => mkNumericBinary operator
  | .mod => mkMod
  | .read => mkRead
  | .bvAnd | .bvOr | .bvXor | .bvAdd => mkBitVecBinary operator
  | .bvUlt => mkBvUlt

end Expr

end AbstractionRefinement
