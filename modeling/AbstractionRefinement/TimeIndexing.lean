import AbstractionRefinement.Valuations

/-!
# Time indexing

The formula of an action speaks about the current state and, through priming,
about the following ones.  To write a whole path as one formula every variable
is given a time step: unfolding turns a variable under some primes into the
variable at that many steps after its own offset, and folding goes back.
-/

namespace AbstractionRefinement

/-- The time step of each variable; a variable that is not listed is at the
default step. -/
structure Indexing where
  offsets : List (VarDecl × Nat) := []
  default : Nat := 0
deriving DecidableEq, Inhabited

namespace Indexing

/-- Every variable at one step. -/
def constant (step : Nat) : Indexing :=
  ⟨[], step⟩

def get (indexing : Indexing) (decl : VarDecl) : Nat :=
  (OrderedMap.find? decl indexing.offsets).getD indexing.default

def withOffset (indexing : Indexing) (decl : VarDecl) (step : Nat) : Indexing :=
  { indexing with offsets := OrderedMap.insert decl step indexing.offsets }

/-- Advance one variable by one step. -/
def increment (indexing : Indexing) (decl : VarDecl) : Indexing :=
  indexing.withOffset decl (indexing.get decl + 1)

/-- The pointwise sum. -/
def add (first second : Indexing) : Indexing :=
  (first.offsets ++ second.offsets).foldl
    (fun total offset => total.withOffset offset.1 (first.get offset.1 + second.get offset.1))
    (constant (first.default + second.default))

/-- The written form of an indexing. -/
def display (indexing : Indexing) : String :=
  "[" ++
    String.join
      (indexing.offsets.map fun offset =>
        offset.1.name ++ ": " ++ toString offset.2 ++ ", ") ++
    "_: " ++ toString indexing.default ++ "]"

instance : ToString Indexing := ⟨display⟩

end Indexing

namespace Expr

mutual

/-- Replace every unindexed variable under the given number of primes by the
variable at its offset plus that number. -/
def unfoldUnder (indexing : Indexing) (primes : Nat) : Expr → Expr
  | lit value => lit value
  | sym symbol =>
      match symbol.index with
      | none => symbol.decl.atStep (indexing.get symbol.decl + primes)
      | some _ => sym symbol
  | unary operator operand ty =>
      match operator with
      | .prime => operand.unfoldUnder indexing (primes + 1)
      | _ => unary operator (operand.unfoldUnder indexing primes) ty
  | binary operator left right ty =>
      binary operator (left.unfoldUnder indexing primes) (right.unfoldUnder indexing primes)
        ty
  | ternary operator first second third ty =>
      ternary operator (first.unfoldUnder indexing primes)
        (second.unfoldUnder indexing primes) (third.unfoldUnder indexing primes) ty
  | nary operator operands ty => nary operator (unfoldAllUnder indexing primes operands) ty

/-- Unfold several formulas. -/
def unfoldAllUnder (indexing : Indexing) (primes : Nat) : List Expr → List Expr
  | [] => []
  | operand :: operands =>
      operand.unfoldUnder indexing primes :: unfoldAllUnder indexing primes operands

end

/-- The formula with every variable at its time step. -/
def unfold (indexing : Indexing) (formula : Expr) : Expr :=
  formula.unfoldUnder indexing 0

/-- A variable under a number of primes. -/
def primedVariable (decl : VarDecl) : Nat → Expr
  | 0 => decl.toExpr
  | primes + 1 => unary .prime (primedVariable decl primes) decl.ty

/-- The formula over current and next-state values: a variable at a time step
is primed once for each step after its offset.  Earlier steps fold onto the
current value. -/
def fold (indexing : Indexing) (formula : Expr) : Expr :=
  formula.replaceBottomUp fun
    | sym ⟨decl, some step⟩ => some (primedVariable decl (step - indexing.get decl))
    | _ => none

end Expr

end AbstractionRefinement
