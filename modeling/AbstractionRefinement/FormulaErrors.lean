import AbstractionRefinement.FormulaTypes

/-!
# Errors of formulas

A formula is built through checked constructors, and this file holds the causes
for which a construction, a valuation or a model is refused, with their
wording.
-/

namespace AbstractionRefinement

/-- Why a formula could not be built or used. -/
inductive FormulaError where
  | typeMismatch (operator expected : String) (found : Ty)
  | arity (operator expected : String) (found : Nat)
  | primedIndexedSymbol (symbol : String)
  | unexpectedPrime (formula : String)
  | bitVecWidth (width : Nat)
  | model (reason : String)
deriving DecidableEq, Inhabited

namespace FormulaError

/-- The wording of an error. -/
def message : FormulaError → String
  | typeMismatch operator expected found =>
      "type mismatch in `" ++ operator ++ "`: expected " ++ expected ++
        ", found " ++ found.display
  | arity operator expected found =>
      "`" ++ operator ++ "` expects " ++ expected ++ " operand(s), got " ++
        toString found
  | primedIndexedSymbol symbol =>
      "cannot prime an indexed symbol `" ++ symbol ++ "`"
  | unexpectedPrime formula =>
      "`" ++ formula ++ "` must not refer to next-state values"
  | bitVecWidth width =>
      "bitvector width " ++ toString width ++ " is out of range 1..=64"
  | model reason => "malformed model: " ++ reason

end FormulaError

end AbstractionRefinement
