import AbstractionRefinement.MachineIntegers

/-!
# Rational numbers with machine components

A rational value is a numerator and a positive denominator without a common
factor, both in the signed 64-bit range.  Sums, products and quotients are
computed exactly and normalised; they have no result when the normalised
components are not representable.
-/

namespace AbstractionRefinement

/-- A numerator over a denominator. -/
structure RationalNumber where
  num : Int
  den : Int
deriving DecidableEq, Inhabited

namespace RationalNumber

/-- The fraction in lowest terms with a positive denominator.  There is no
result for a zero denominator or for components out of range. -/
def normalize (num den : Int) : Option RationalNumber :=
  if den = 0 then none
  else
    let divisor : Int := max 1 (Int.gcd num den)
    let sign : Int := if den < 0 then -1 else 1
    do
      let num ← checkedInt64 (sign * num.tdiv divisor)
      let den ← checkedInt64 (sign * den.tdiv divisor)
      return ⟨num, den⟩

/-- The rational number of an integer. -/
def integer (number : Int) : RationalNumber :=
  ⟨number, 1⟩

def isZero (number : RationalNumber) : Bool :=
  number.num == 0

/-- The opposite number; the least numerator wraps onto itself. -/
def negate (number : RationalNumber) : RationalNumber :=
  ⟨wrapInt64 (-number.num), number.den⟩

def checkedAdd (first second : RationalNumber) : Option RationalNumber :=
  normalize (first.num * second.den + second.num * first.den) (first.den * second.den)

def checkedSub (first second : RationalNumber) : Option RationalNumber :=
  first.checkedAdd second.negate

def checkedMul (first second : RationalNumber) : Option RationalNumber :=
  normalize (first.num * second.num) (first.den * second.den)

/-- Exact division; a zero divisor gives zero. -/
def checkedDiv (first second : RationalNumber) : Option RationalNumber :=
  if second.isZero then some (integer 0)
  else normalize (first.num * second.den) (first.den * second.num)

/-- Comparison of the denoted numbers, by cross multiplication. -/
def compareNumeric (first second : RationalNumber) : Ordering :=
  compare (first.num * second.den) (second.num * first.den)

/-- The order of the representations: numerator first, then denominator. -/
instance : Ord RationalNumber :=
  ⟨fun first second =>
    (compare first.num second.num).then (compare first.den second.den)⟩

/-- An integer is written without its denominator. -/
def display (number : RationalNumber) : String :=
  if number.den = 1 then toString number.num
  else toString number.num ++ "/" ++ toString number.den

instance : ToString RationalNumber := ⟨display⟩

end RationalNumber

end AbstractionRefinement
