import AbstractionRefinement.FormulaValues

/-!
# Formula terms

A formula is a typed term over literals and symbols.  A symbol is a state
variable, possibly fixed to a time step; next-state values are written with
the priming operator.  Operators are grouped by their number of operands, and
every operator node stores its own type, so that replacing operands keeps it.
-/

namespace AbstractionRefinement

/-- A state variable. -/
structure VarDecl where
  name : String
  ty : Ty
deriving DecidableEq, Inhabited

namespace VarDecl

/-- Variables are ordered by name, then by type. -/
instance : Ord VarDecl :=
  ⟨fun first second =>
    (compare first.name second.name).then (compare first.ty second.ty)⟩

/-- A variable together with its type. -/
def describe (decl : VarDecl) : String :=
  decl.name ++ ": " ++ decl.ty.display

end VarDecl

/-- A variable, at a fixed time step when it has an index. -/
structure Symbol where
  decl : VarDecl
  index : Option Nat := none
deriving DecidableEq, Inhabited

namespace Symbol

/-- Symbols are ordered by variable; an unindexed symbol precedes the indexed
ones. -/
instance : Ord Symbol :=
  ⟨fun first second =>
    (compare first.decl second.decl).then
      (compareOptions compare first.index second.index)⟩

def ty (symbol : Symbol) : Ty :=
  symbol.decl.ty

/-- The written form of a symbol. -/
def display (symbol : Symbol) : String :=
  match symbol.index with
  | none => symbol.decl.name
  | some step => symbol.decl.name ++ "@" ++ toString step

instance : ToString Symbol := ⟨display⟩

end Symbol

/-- Operators with one operand. -/
inductive UnaryOperator where
  | prime
  | not
  | negate
  | bvNot
deriving DecidableEq, Inhabited

/-- Operators with two operands. -/
inductive BinaryOperator where
  | imply
  | iff
  | eq
  | neq
  | lt
  | leq
  | gt
  | geq
  | sub
  | div
  | mod
  | read
  | bvAnd
  | bvOr
  | bvXor
  | bvAdd
  | bvUlt
deriving DecidableEq, Inhabited

/-- Operators with three operands. -/
inductive TernaryOperator where
  | ite
  | write
deriving DecidableEq, Inhabited

/-- Operators with any number of operands. -/
inductive NaryOperator where
  | and
  | or
  | add
  | mul
deriving DecidableEq, Inhabited

/-- A typed formula. -/
inductive Expr where
  | lit (value : Value)
  | sym (symbol : Symbol)
  | unary (operator : UnaryOperator) (operand : Expr) (ty : Ty)
  | binary (operator : BinaryOperator) (left right : Expr) (ty : Ty)
  | ternary (operator : TernaryOperator) (first second third : Expr) (ty : Ty)
  | nary (operator : NaryOperator) (operands : List Expr) (ty : Ty)
deriving Inhabited

/-! ## Operator names and their order -/

namespace UnaryOperator

def name : UnaryOperator → String
  | prime => "prime"
  | not => "not"
  | negate => "-"
  | bvNot => "bvnot"

/-- Position of the operator in the order of formulas. -/
def rank : UnaryOperator → Nat
  | prime => 2
  | not => 3
  | negate => 19
  | bvNot => 26

end UnaryOperator

namespace BinaryOperator

def name : BinaryOperator → String
  | imply => "=>"
  | iff => "iff"
  | eq => "="
  | neq => "/="
  | lt => "<"
  | leq => "<="
  | gt => ">"
  | geq => ">="
  | sub => "-"
  | div => "div"
  | mod => "mod"
  | read => "read"
  | bvAnd => "bvand"
  | bvOr => "bvor"
  | bvXor => "bvxor"
  | bvAdd => "bvadd"
  | bvUlt => "bvult"

/-- Position of the operator in the order of formulas. -/
def rank : BinaryOperator → Nat
  | imply => 6
  | iff => 7
  | eq => 8
  | neq => 9
  | lt => 10
  | leq => 11
  | gt => 12
  | geq => 13
  | sub => 15
  | div => 17
  | mod => 18
  | read => 21
  | bvAnd => 23
  | bvOr => 24
  | bvXor => 25
  | bvAdd => 27
  | bvUlt => 28

end BinaryOperator

namespace TernaryOperator

def name : TernaryOperator → String
  | ite => "ite"
  | write => "write"

/-- Position of the operator in the order of formulas. -/
def rank : TernaryOperator → Nat
  | ite => 20
  | write => 22

end TernaryOperator

namespace NaryOperator

def name : NaryOperator → String
  | and => "and"
  | or => "or"
  | add => "+"
  | mul => "*"

/-- Position of the operator in the order of formulas. -/
def rank : NaryOperator → Nat
  | and => 4
  | or => 5
  | add => 14
  | mul => 16

end NaryOperator

namespace Expr

/-! ## Basic views -/

/-- The type of a formula. -/
def ty : Expr → Ty
  | lit value => value.ty
  | sym symbol => symbol.ty
  | unary _ _ ty => ty
  | binary _ _ _ ty => ty
  | ternary _ _ _ _ ty => ty
  | nary _ _ ty => ty

def isTop : Expr → Bool
  | lit (.bool true) => true
  | _ => false

def isBottom : Expr → Bool
  | lit (.bool false) => true
  | _ => false

def asLiteral : Expr → Option Value
  | lit value => some value
  | _ => none

def asSymbol : Expr → Option Symbol
  | sym symbol => some symbol
  | _ => none

/-- The operands of the outermost operator. -/
def children : Expr → List Expr
  | lit _ | sym _ => []
  | unary _ operand _ => [operand]
  | binary _ left right _ => [left, right]
  | ternary _ first second third _ => [first, second, third]
  | nary _ operands _ => operands

/-! ## Order and equality -/

/-- Position of the outermost constructor or operator in the order of
formulas. -/
def rank : Expr → Nat
  | lit _ => 0
  | sym _ => 1
  | unary operator .. => operator.rank
  | binary operator .. => operator.rank
  | ternary operator .. => operator.rank
  | nary operator .. => operator.rank

mutual

/-- The order of formulas: outermost operator, then operands from left to
right, then type. -/
def compareWith : Expr → Expr → Ordering
  | lit value, lit value' => compare value value'
  | sym symbol, sym symbol' => compare symbol symbol'
  | unary operator operand ty, unary operator' operand' ty' =>
      (compare operator.rank operator'.rank).then
        ((compareWith operand operand').then (compare ty ty'))
  | binary operator left right ty, binary operator' left' right' ty' =>
      (compare operator.rank operator'.rank).then
        (((compareWith left left').then (compareWith right right')).then
          (compare ty ty'))
  | ternary operator first second third ty,
      ternary operator' first' second' third' ty' =>
      (compare operator.rank operator'.rank).then
        (((compareWith first first').then
          ((compareWith second second').then (compareWith third third'))).then
          (compare ty ty'))
  | nary operator operands ty, nary operator' operands' ty' =>
      (compare operator.rank operator'.rank).then
        ((compareAll operands operands').then (compare ty ty'))
  | first, second => compare first.rank second.rank

/-- The lexicographic order of operand lists. -/
def compareAll : List Expr → List Expr → Ordering
  | [], [] => .eq
  | [], _ :: _ => .lt
  | _ :: _, [] => .gt
  | operand :: operands, operand' :: operands' =>
      (compareWith operand operand').then (compareAll operands operands')

end

instance : Ord Expr := ⟨compareWith⟩

mutual

/-- Equality of formulas is decidable. -/
def decideEq : (first second : Expr) → Decidable (first = second)
  | lit value, lit value' =>
      if equal : value = value' then isTrue (by rw [equal]) else isFalse (by simp [equal])
  | sym symbol, sym symbol' =>
      if equal : symbol = symbol' then isTrue (by rw [equal])
      else isFalse (by simp [equal])
  | unary operator operand ty, unary operator' operand' ty' =>
      if equal : operator = operator' ∧ ty = ty' then
        match decideEq operand operand' with
        | isTrue same => isTrue (by rw [equal.1, equal.2, same])
        | isFalse differs => isFalse (by simp [differs])
      else isFalse (by grind)
  | binary operator left right ty, binary operator' left' right' ty' =>
      if equal : operator = operator' ∧ ty = ty' then
        match decideEq left left' with
        | isFalse differs => isFalse (by simp [differs])
        | isTrue sameLeft =>
            match decideEq right right' with
            | isTrue sameRight =>
                isTrue (by rw [equal.1, equal.2, sameLeft, sameRight])
            | isFalse differs => isFalse (by simp [differs])
      else isFalse (by grind)
  | ternary operator first second third ty,
      ternary operator' first' second' third' ty' =>
      if equal : operator = operator' ∧ ty = ty' then
        match decideEq first first' with
        | isFalse differs => isFalse (by simp [differs])
        | isTrue sameFirst =>
            match decideEq second second' with
            | isFalse differs => isFalse (by simp [differs])
            | isTrue sameSecond =>
                match decideEq third third' with
                | isTrue sameThird =>
                    isTrue (by
                      rw [equal.1, equal.2, sameFirst, sameSecond, sameThird])
                | isFalse differs => isFalse (by simp [differs])
      else isFalse (by grind)
  | nary operator operands ty, nary operator' operands' ty' =>
      if equal : operator = operator' ∧ ty = ty' then
        match decideEqAll operands operands' with
        | isTrue same => isTrue (by rw [equal.1, equal.2, same])
        | isFalse differs => isFalse (by simp [differs])
      else isFalse (by grind)
  | lit _, sym _ | lit _, unary .. | lit _, binary .. | lit _, ternary .. | lit _, nary ..
  | sym _, lit _ | sym _, unary .. | sym _, binary .. | sym _, ternary .. | sym _, nary ..
  | unary .., lit _ | unary .., sym _ | unary .., binary .. | unary .., ternary ..
  | unary .., nary ..
  | binary .., lit _ | binary .., sym _ | binary .., unary .. | binary .., ternary ..
  | binary .., nary ..
  | ternary .., lit _ | ternary .., sym _ | ternary .., unary .. | ternary .., binary ..
  | ternary .., nary ..
  | nary .., lit _ | nary .., sym _ | nary .., unary .. | nary .., binary ..
  | nary .., ternary .. => isFalse (by simp)

/-- Equality of operand lists is decidable. -/
def decideEqAll : (first second : List Expr) → Decidable (first = second)
  | [], [] => isTrue rfl
  | [], _ :: _ => isFalse (by simp)
  | _ :: _, [] => isFalse (by simp)
  | operand :: operands, operand' :: operands' =>
      match decideEq operand operand' with
      | isFalse differs => isFalse (by simp [differs])
      | isTrue same =>
          match decideEqAll operands operands' with
          | isTrue sameTail => isTrue (by rw [same, sameTail])
          | isFalse differs => isFalse (by simp [differs])

end

instance : DecidableEq Expr := decideEq

/-! ## Written form -/

/-- A primed variable is written with a trailing mark; this tells the operands
for which priming is written that way. -/
def takesPrimeMark : Expr → Bool
  | sym _ => true
  | unary .prime _ _ => true
  | _ => false

mutual

/-- The written form of a formula. -/
def display : Expr → String
  | lit value => value.display
  | sym symbol => symbol.display
  | unary operator operand _ =>
      if operator = .prime ∧ operand.takesPrimeMark then operand.display ++ "'"
      else "(" ++ operator.name ++ " " ++ operand.display ++ ")"
  | binary operator left right _ =>
      "(" ++ operator.name ++ " " ++ left.display ++ " " ++ right.display ++ ")"
  | ternary operator first second third _ =>
      "(" ++ operator.name ++ " " ++ first.display ++ " " ++ second.display ++ " " ++
        third.display ++ ")"
  | nary operator operands _ => "(" ++ operator.name ++ displayAll operands ++ ")"

/-- The written forms of operands, each after a blank. -/
def displayAll : List Expr → String
  | [] => ""
  | operand :: operands => " " ++ operand.display ++ displayAll operands

end

instance : ToString Expr := ⟨display⟩

end Expr

end AbstractionRefinement
