import AbstractionRefinement.FormulaTerms

/-!
# Structure of formulas

This file collects the symbols, variables and Boolean atoms of a formula,
splits it into conjuncts, and replaces parts of it from the leaves upwards.
-/

namespace AbstractionRefinement

namespace Expr

mutual

/-- Add the symbols of a formula to a set. -/
def collectSymbols : Expr → List Symbol → List Symbol
  | lit _, found => found
  | sym symbol, found => OrderedSet.insert symbol found
  | unary _ operand _, found => operand.collectSymbols found
  | binary _ left right _, found => right.collectSymbols (left.collectSymbols found)
  | ternary _ first second third _, found =>
      third.collectSymbols (second.collectSymbols (first.collectSymbols found))
  | nary _ operands _, found => collectSymbolsAll operands found

/-- Add the symbols of several formulas to a set. -/
def collectSymbolsAll : List Expr → List Symbol → List Symbol
  | [], found => found
  | operand :: operands, found =>
      collectSymbolsAll operands (operand.collectSymbols found)

end

/-- The set of symbols of a formula. -/
def symbols (formula : Expr) : List Symbol :=
  formula.collectSymbols []

/-- The set of variables of a formula, whatever their time steps. -/
def vars (formula : Expr) : List VarDecl :=
  OrderedSet.ofList (formula.symbols.map Symbol.decl)

mutual

/-- Add the atoms of a formula to a set. -/
def collectAtoms : Expr → List Expr → List Expr
  | lit _, found => found
  | sym symbol, found => OrderedSet.insert (sym symbol) found
  | unary operator operand ty, found =>
      match operator with
      | .not => operand.collectAtoms found
      | _ => OrderedSet.insert (unary operator operand ty) found
  | binary operator left right ty, found =>
      match operator with
      | .imply | .iff => right.collectAtoms (left.collectAtoms found)
      | .eq =>
          if left.ty.isBool then right.collectAtoms (left.collectAtoms found)
          else OrderedSet.insert (binary operator left right ty) found
      | .neq =>
          if left.ty.isBool then right.collectAtoms (left.collectAtoms found)
          else OrderedSet.insert (binary .eq left right .bool) found
      | _ => OrderedSet.insert (binary operator left right ty) found
  | ternary operator first second third ty, found =>
      match operator with
      | .ite =>
          if second.ty.isBool then
            third.collectAtoms (second.collectAtoms (first.collectAtoms found))
          else OrderedSet.insert (ternary operator first second third ty) found
      | .write => OrderedSet.insert (ternary operator first second third ty) found
  | nary operator operands ty, found =>
      match operator with
      | .and | .or => collectAtomsAll operands found
      | _ => OrderedSet.insert (nary operator operands ty) found

/-- Add the atoms of several formulas to a set. -/
def collectAtomsAll : List Expr → List Expr → List Expr
  | [], found => found
  | operand :: operands, found =>
      collectAtomsAll operands (operand.collectAtoms found)

end

/-- The set of Boolean atoms: the maximal subformulas that are not built with
Boolean connectives.  Truth constants are no atoms, and a disequality counts
as the equality it negates. -/
def atoms (formula : Expr) : List Expr :=
  formula.collectAtoms []

mutual

/-- The conjuncts of a formula, nested conjunctions flattened. -/
def conjuncts : Expr → List Expr
  | nary .and operands _ => conjunctsAll operands
  | formula => if formula.isTop then [] else [formula]

/-- The conjuncts of several formulas. -/
def conjunctsAll : List Expr → List Expr
  | [] => []
  | operand :: operands => operand.conjuncts ++ conjunctsAll operands

end

/-- The formula without its outermost negations. -/
def stripNegations : Expr → Expr
  | unary .not operand _ => operand.stripNegations
  | formula => formula

mutual

/-- Whether next-state values are mentioned. -/
def hasPrime : Expr → Bool
  | lit _ | sym _ => false
  | unary operator operand _ => operator = .prime || operand.hasPrime
  | binary _ left right _ => left.hasPrime || right.hasPrime
  | ternary _ first second third _ =>
      first.hasPrime || second.hasPrime || third.hasPrime
  | nary _ operands _ => hasPrimeAny operands

/-- Whether one of several formulas mentions next-state values. -/
def hasPrimeAny : List Expr → Bool
  | [] => false
  | operand :: operands => operand.hasPrime || hasPrimeAny operands

end

/-- Whether a symbol is fixed to a time step. -/
def isIndexed (formula : Expr) : Bool :=
  formula.symbols.any fun symbol => symbol.index.isSome

mutual

/-- Replace parts of a formula from the leaves upwards.  The rule is asked for
every node after its operands were replaced; a node it does not change is kept with
the new operands and its own type. -/
def replaceBottomUp (rule : Expr → Option Expr) : Expr → Expr
  | lit value => (rule (lit value)).getD (lit value)
  | sym symbol => (rule (sym symbol)).getD (sym symbol)
  | unary operator operand ty =>
      let node := unary operator (operand.replaceBottomUp rule) ty
      (rule node).getD node
  | binary operator left right ty =>
      let node := binary operator (left.replaceBottomUp rule) (right.replaceBottomUp rule) ty
      (rule node).getD node
  | ternary operator first second third ty =>
      let node :=
        ternary operator (first.replaceBottomUp rule) (second.replaceBottomUp rule)
          (third.replaceBottomUp rule) ty
      (rule node).getD node
  | nary operator operands ty =>
      let node := nary operator (replaceAllBottomUp rule operands) ty
      (rule node).getD node

/-- Replace parts of several formulas from the leaves upwards. -/
def replaceAllBottomUp (rule : Expr → Option Expr) : List Expr → List Expr
  | [] => []
  | operand :: operands =>
      operand.replaceBottomUp rule :: replaceAllBottomUp rule operands

end

end Expr

end AbstractionRefinement
