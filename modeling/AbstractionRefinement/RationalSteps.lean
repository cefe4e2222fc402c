import AbstractionRefinement.RationalNumbers

/-!
# Rational arithmetic in machine steps

The components of a rational number are signed 64-bit integers, and sums, products,
quotients and comparisons pass through signed 128-bit ones.  This file takes every such
operation step by step.  A step whose result does not fit its width overflows and ends the
computation, which is not the same as an exact result without a representation.
-/

namespace AbstractionRefinement

/-- A step left the width of its numbers. -/
inductive Overflow where
  | overflow
deriving DecidableEq, Inhabited

/-- The least signed 128-bit integer. -/
def minInt128 : Int := -170141183460469231731687303715884105728

/-- The greatest signed 128-bit integer. -/
def maxInt128 : Int := 170141183460469231731687303715884105727

/-- A number of the signed 128-bit range. -/
def FitsInt128 (number : Int) : Prop :=
  minInt128 ≤ number ∧ number ≤ maxInt128

instance (number : Int) : Decidable (FitsInt128 number) :=
  inferInstanceAs (Decidable (_ ∧ _))

/-- The result of a 128-bit step. -/
def wideStep (number : Int) : Except Overflow Int :=
  if FitsInt128 number then .ok number else .error .overflow

/-- Euclid's algorithm on signed 128-bit integers.  A remainder has the sign of its dividend,
and the remainder of the least number modulo -1 overflows. -/
def greatestDivisor (first second : Int) : Except Overflow Int :=
  if second = 0 then wideStep first.natAbs
  else if first = minInt128 ∧ second = -1 then .error .overflow
  else greatestDivisor second (first.tmod second)
termination_by second.natAbs
decreasing_by
  rw [Int.natAbs_tmod]
  exact Nat.mod_lt _ (by omega)

namespace RationalNumber

/-- The number with the given components, if they are representable. -/
def narrow (num den : Int) : Option RationalNumber := do
  return ⟨← checkedInt64 num, ← checkedInt64 den⟩

/-- The fraction in lowest terms with a positive denominator. -/
def normalizeStepwise (num den : Int) : Except Overflow (Option RationalNumber) := do
  if den = 0 then return none
  let divisor := max 1 (← greatestDivisor num den)
  let num ← wideStep (num.tdiv divisor)
  let den ← wideStep (den.tdiv divisor)
  if den < 0 then return narrow (← wideStep (-num)) (← wideStep (-den))
  return narrow num den

/-- The opposite number.  The opposite of the least numerator overflows. -/
def negateStepwise (number : RationalNumber) : Except Overflow RationalNumber :=
  if FitsInt64 (-number.num) then .ok ⟨-number.num, number.den⟩ else .error .overflow

def addStepwise (first second : RationalNumber) : Except Overflow (Option RationalNumber) := do
  let left ← wideStep (first.num * second.den)
  let right ← wideStep (second.num * first.den)
  let num ← wideStep (left + right)
  let den ← wideStep (first.den * second.den)
  normalizeStepwise num den

/-- A difference is the sum with the opposite number. -/
def subStepwise (first second : RationalNumber) : Except Overflow (Option RationalNumber) := do
  first.addStepwise (← second.negateStepwise)

def mulStepwise (first second : RationalNumber) : Except Overflow (Option RationalNumber) := do
  let num ← wideStep (first.num * second.num)
  let den ← wideStep (first.den * second.den)
  normalizeStepwise num den

/-- Exact division; a zero divisor gives zero. -/
def divStepwise (first second : RationalNumber) : Except Overflow (Option RationalNumber) := do
  if second.isZero then return some (integer 0)
  let num ← wideStep (first.num * second.den)
  let den ← wideStep (first.den * second.num)
  normalizeStepwise num den

/-- Comparison by cross multiplication. -/
def compareStepwise (first second : RationalNumber) : Except Overflow Ordering := do
  let left ← wideStep (first.num * second.den)
  let right ← wideStep (second.num * first.den)
  return compare left right

end RationalNumber

end AbstractionRefinement
