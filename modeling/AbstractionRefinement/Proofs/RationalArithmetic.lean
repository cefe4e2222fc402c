import Mathlib.Algebra.Order.Field.Rat
import Mathlib.Data.Rat.Lemmas
import Mathlib.Order.Compare
import Mathlib.Tactic.FieldSimp
import Mathlib.Tactic.Linarith
import Mathlib.Tactic.Ring
import AbstractionRefinement.RationalSteps

/-!
# Exactness of rational arithmetic

A rational number with machine components stands for a rational number.  Each operation
gives the exact result in lowest terms if its components are representable and has no
result otherwise, and none of its steps overflows, with one exception: a difference is the
sum with the opposite number, and the least numerator has no representable opposite.
-/

namespace AbstractionRefinement

namespace RationalNumber

/-- The rational number that the components stand for. -/
def toRat (number : RationalNumber) : ℚ :=
  number.num / number.den

/-- The components of a rational number, if they are representable. -/
def ofRat? (number : ℚ) : Option RationalNumber :=
  if FitsInt64 number.num ∧ FitsInt64 number.den then some ⟨number.num, number.den⟩ else none

/-- The components are machine integers in lowest terms, and the denominator is positive. -/
structure Normal (number : RationalNumber) : Prop where
  den_pos : 0 < number.den
  coprime : number.num.gcd number.den = 1
  fits_num : FitsInt64 number.num
  fits_den : FitsInt64 number.den

section LowestTerms

variable {number : RationalNumber} {quotient : ℚ}

theorem normal_integer {value : Int} (fits : FitsInt64 value) : (integer value).Normal :=
  ⟨Int.one_pos, Int.gcd_one_right _, fits, show FitsInt64 1 by decide⟩

theorem normal_of_ofRat? (represents : ofRat? quotient = some number) :
    number.Normal ∧ number.toRat = quotient := by
  unfold ofRat? at represents
  split at represents
  case isFalse => cases represents
  case isTrue fits =>
    cases represents
    refine ⟨⟨Int.natCast_pos.mpr quotient.den_pos, quotient.reduced, fits.1, fits.2⟩, ?_⟩
    show (quotient.num : ℚ) / ((quotient.den : Int) : ℚ) = quotient
    rw [Int.cast_natCast, Rat.num_div_den]

end LowestTerms

theorem narrow_eq (num den : Int) : narrow num den =
    if FitsInt64 num ∧ FitsInt64 den then some ⟨num, den⟩ else none := by
  unfold narrow checkedInt64
  by_cases fits : FitsInt64 num <;> by_cases fits' : FitsInt64 den <;> simp [fits, fits']

/-- Dividing by the greatest common divisor and moving the sign to the numerator gives the
components of the quotient. -/
theorem normalize_eq {num den : Int} (nonzero : den ≠ 0) :
    normalize num den = ofRat? (num / den) := by
  have divisor_pos : 0 < num.gcd den := Int.gcd_pos_of_ne_zero_right num nonzero
  have divisor : max 1 (num.gcd den : Int) = num.gcd den := by omega
  have quotientNum : num.tdiv (num.gcd den) = num / num.gcd den :=
    Int.tdiv_eq_ediv_of_dvd (Int.gcd_dvd_left ..)
  have quotientDen : den.tdiv (num.gcd den) = den / num.gcd den :=
    Int.tdiv_eq_ediv_of_dvd (Int.gcd_dvd_right ..)
  have sign : (if den < 0 then -1 else 1) = den.sign := by
    split
    case isTrue negative => exact (Int.sign_eq_neg_one_of_neg negative).symm
    case isFalse => exact (Int.sign_eq_one_of_pos (by omega)).symm
  have exactNum : den.sign * (num / num.gcd den) = (num / den : ℚ).num := by
    rw [← Rat.divInt_eq_div, Rat.num_divInt, Int.gcd_comm den num,
      Int.mul_ediv_assoc _ (Int.gcd_dvd_left ..)]
  have exactDen : den.sign * (den / num.gcd den) = (num / den : ℚ).den := by
    rw [← Rat.divInt_eq_div, Rat.den_divInt, if_neg nonzero, Int.gcd_comm den num,
      ← Int.mul_ediv_assoc _ (Int.gcd_dvd_right ..), Int.sign_mul_self_eq_natAbs]
    rfl
  show (if den = 0 then none else narrow
    ((if den < 0 then -1 else 1) * num.tdiv (max 1 (num.gcd den)))
    ((if den < 0 then -1 else 1) * den.tdiv (max 1 (num.gcd den)))) = _
  rw [if_neg nonzero, divisor, quotientNum, quotientDen, sign, narrow_eq, exactNum, exactDen]
  rfl

theorem normal_of_normalize {num den : Int} {number : RationalNumber}
    (normalized : normalize num den = some number) : number.Normal := by
  by_cases zero : den = 0
  · rw [normalize, if_pos zero] at normalized
    cases normalized
  · rw [normalize_eq zero] at normalized
    exact (normal_of_ofRat? normalized).1

section Operations

variable {first second : RationalNumber} (normal : first.Normal) (normal' : second.Normal)

include normal in
theorem Normal.den_ne_zero : (first.den : ℚ) ≠ 0 :=
  Int.cast_ne_zero.mpr normal.den_pos.ne'

include normal in
theorem Normal.isZero_iff : first.isZero = true ↔ first.toRat = 0 := by
  rw [isZero, beq_iff_eq, toRat, div_eq_zero_iff, Int.cast_eq_zero]
  exact ⟨.inl, fun zero => zero.resolve_right normal.den_ne_zero⟩

include normal in
theorem Normal.fits_neg (above : first.num ≠ minInt64) : FitsInt64 (-first.num) := by
  obtain ⟨lower, upper⟩ := normal.fits_num
  unfold FitsInt64 minInt64 maxInt64 at *
  omega

include normal in
theorem Normal.toRat_negate (above : first.num ≠ minInt64) :
    first.negate.Normal ∧ first.negate.toRat = -first.toRat := by
  have fits := normal.fits_neg above
  rw [negate, wrapInt64_of_fits fits]
  refine ⟨⟨normal.den_pos, ?_, fits, normal.fits_den⟩, ?_⟩
  · rw [Int.neg_gcd]
    exact normal.coprime
  · rw [toRat, toRat, Int.cast_neg, neg_div]

include normal normal'

theorem checkedAdd_eq : first.checkedAdd second = ofRat? (first.toRat + second.toRat) := by
  rw [checkedAdd, normalize_eq (mul_ne_zero normal.den_pos.ne' normal'.den_pos.ne'), toRat, toRat,
    div_add_div _ _ normal.den_ne_zero normal'.den_ne_zero]
  push_cast
  rw [mul_comm (second.num : ℚ)]

theorem checkedSub_eq (above : second.num ≠ minInt64) :
    first.checkedSub second = ofRat? (first.toRat - second.toRat) := by
  obtain ⟨normalOpposite, opposite⟩ := normal'.toRat_negate above
  rw [checkedSub, checkedAdd_eq normal normalOpposite, opposite, sub_eq_add_neg]

theorem checkedMul_eq : first.checkedMul second = ofRat? (first.toRat * second.toRat) := by
  rw [checkedMul, normalize_eq (mul_ne_zero normal.den_pos.ne' normal'.den_pos.ne'), toRat, toRat,
    div_mul_div_comm]
  push_cast
  rfl

theorem checkedDiv_eq : first.checkedDiv second = ofRat? (first.toRat / second.toRat) := by
  unfold checkedDiv
  split
  case isTrue zero =>
    rw [normal'.isZero_iff.mp zero, div_zero]
    rfl
  case isFalse nonzero =>
    have num_ne_zero : second.num ≠ 0 := by simpa [isZero] using nonzero
    rw [normalize_eq (mul_ne_zero normal.den_pos.ne' num_ne_zero), toRat, toRat, div_div_div_eq]
    push_cast
    rfl

/-- The comparison agrees with the order of the rational numbers. -/
theorem compares_compareNumeric :
    (first.compareNumeric second).Compares first.toRat second.toRat := by
  have den_pos : (0 : ℚ) < first.den := Int.cast_pos.mpr normal.den_pos
  have den_pos' : (0 : ℚ) < second.den := Int.cast_pos.mpr normal'.den_pos
  rw [compareNumeric, toRat, toRat]
  cases compared : compare (first.num * second.den) (second.num * first.den) with
  | lt =>
      rw [compare_lt_iff_lt] at compared
      exact (div_lt_div_iff₀ den_pos den_pos').mpr (by exact_mod_cast compared)
  | eq =>
      rw [compare_eq_iff_eq] at compared
      exact (div_eq_div_iff den_pos.ne' den_pos'.ne').mpr (by exact_mod_cast compared)
  | gt =>
      rw [compare_gt_iff_gt] at compared
      exact (div_lt_div_iff₀ den_pos' den_pos).mpr (by exact_mod_cast compared)

end Operations

theorem wideStep_of_fits {number : Int} (fits : FitsInt128 number) :
    wideStep number = .ok number :=
  if_pos fits

theorem fitsInt128_of_natAbs_le {number : Int} (small : number.natAbs < 2 ^ 127) :
    FitsInt128 number := by
  unfold FitsInt128 minInt128 maxInt128
  omega

theorem bind_wideStep {β : Type} {number : Int} (small : number.natAbs < 2 ^ 127)
    (next : Int → Except Overflow β) : wideStep number >>= next = next number := by
  rw [wideStep_of_fits (fitsInt128_of_natAbs_le small)]
  rfl

/-- Euclid's algorithm does not overflow above the least number: remainders get smaller, so
the least number does not come up. -/
theorem greatestDivisor_eq {first second : Int} (small : first.natAbs < 2 ^ 127)
    (small' : second.natAbs < 2 ^ 127) : greatestDivisor first second = .ok (first.gcd second) := by
  fun_induction greatestDivisor first second with
  | case1 first =>
      rw [Int.gcd_zero_right]
      exact wideStep_of_fits (fitsInt128_of_natAbs_le small)
  | case2 first second nonzero least =>
      rw [least.1] at small
      exact absurd small (by decide)
  | case3 first second nonzero above ih =>
      have smaller : (first.tmod second).natAbs < second.natAbs := by
        rw [Int.natAbs_tmod]
        exact Nat.mod_lt _ (Int.natAbs_pos.mpr nonzero)
      rw [ih small' (smaller.trans small')]
      congr 2
      rw [Int.gcd, Int.gcd, Int.natAbs_tmod, Nat.gcd_comm, ← Nat.gcd_rec, Nat.gcd_comm]

theorem tdiv_neg_iff {number divisor : Int} (positive : 0 < divisor) (divides : divisor ∣ number) :
    number.tdiv divisor < 0 ↔ number < 0 := by
  obtain ⟨quotient, rfl⟩ := divides
  rw [Int.mul_tdiv_cancel_left _ positive.ne']
  constructor <;> intro negative <;> nlinarith

theorem normalizeStepwise_eq {num den : Int} (small : num.natAbs < 2 ^ 127)
    (small' : den.natAbs < 2 ^ 127) : normalizeStepwise num den = .ok (normalize num den) := by
  unfold normalizeStepwise normalize
  split
  case isTrue => rfl
  case isFalse nonzero =>
    have gcd_pos := Int.gcd_pos_of_ne_zero_right num nonzero
    have divisor_pos : 0 < max 1 (num.gcd den : Int) := by omega
    have divides : max 1 (num.gcd den : Int) ∣ den := by
      rw [max_eq_right (by omega)]
      exact Int.gcd_dvd_right ..
    have smaller (number divisor : Int) (small : number.natAbs < 2 ^ 127) :
        (number.tdiv divisor).natAbs < 2 ^ 127 ∧ (-number.tdiv divisor).natAbs < 2 ^ 127 := by
      rw [Int.natAbs_neg, and_self]
      exact (Int.natAbs_tdiv_le_natAbs number divisor).trans_lt small
    have sign := tdiv_neg_iff divisor_pos divides
    rw [greatestDivisor_eq small small']
    show wideStep _ >>= _ = _
    rw [bind_wideStep (smaller num _ small).1, bind_wideStep (smaller den _ small').1]
    by_cases negative : den < 0
    · rw [if_pos (sign.mpr negative), if_pos negative, bind_wideStep (smaller num _ small).2,
        bind_wideStep (smaller den _ small').2, ← neg_one_mul (num.tdiv _),
        ← neg_one_mul (den.tdiv _)]
      rfl
    · rw [if_neg (mt sign.mp negative), if_neg negative, ← one_mul (num.tdiv _),
        ← one_mul (den.tdiv _)]
      rfl

section Steps

variable {first second : RationalNumber}

theorem Normal.natAbs_num_le (normal : first.Normal) : first.num.natAbs ≤ 2 ^ 63 := by
  obtain ⟨lower, upper⟩ := normal.fits_num
  unfold minInt64 maxInt64 at *
  omega

theorem Normal.natAbs_den_lt (normal : first.Normal) : first.den.natAbs < 2 ^ 63 := by
  have upper := normal.fits_den.2
  have positive := normal.den_pos
  unfold maxInt64 at upper
  omega

variable (normal : first.Normal) (normal' : second.Normal)
include normal normal'

theorem natAbs_cross_le : (first.num * second.den).natAbs ≤ 2 ^ 63 * (2 ^ 63 - 1) := by
  rw [Int.natAbs_mul]
  exact Nat.mul_le_mul normal.natAbs_num_le (Nat.le_pred_of_lt normal'.natAbs_den_lt)

theorem natAbs_den_mul_le : (first.den * second.den).natAbs ≤ 2 ^ 63 * 2 ^ 63 := by
  rw [Int.natAbs_mul]
  exact Nat.mul_le_mul normal.natAbs_den_lt.le normal'.natAbs_den_lt.le

theorem natAbs_num_mul_le : (first.num * second.num).natAbs ≤ 2 ^ 63 * 2 ^ 63 := by
  rw [Int.natAbs_mul]
  exact Nat.mul_le_mul normal.natAbs_num_le normal'.natAbs_num_le

theorem addStepwise_eq : first.addStepwise second = .ok (first.checkedAdd second) := by
  have left := natAbs_cross_le normal normal'
  have right := natAbs_cross_le normal' normal
  have den := natAbs_den_mul_le normal normal'
  have sum : (first.num * second.den + second.num * first.den).natAbs < 2 ^ 127 := by omega
  rw [addStepwise, bind_wideStep (by omega), bind_wideStep (by omega), bind_wideStep sum,
    bind_wideStep (by omega)]
  exact normalizeStepwise_eq sum (by omega)

theorem subStepwise_eq (above : second.num ≠ minInt64) :
    first.subStepwise second = .ok (first.checkedSub second) := by
  have opposite : second.negateStepwise = .ok second.negate := by
    rw [negateStepwise, negate, if_pos (normal'.fits_neg above),
      wrapInt64_of_fits (normal'.fits_neg above)]
  rw [subStepwise, opposite]
  exact addStepwise_eq normal (normal'.toRat_negate above).1

omit normal normal' in
theorem subStepwise_of_least (least : second.num = minInt64) :
    first.subStepwise second = .error .overflow := by
  have unfit : ¬ FitsInt64 (-second.num) := by
    rw [least]
    decide
  rw [subStepwise, negateStepwise, if_neg unfit]
  rfl

theorem mulStepwise_eq : first.mulStepwise second = .ok (first.checkedMul second) := by
  have num := natAbs_num_mul_le normal normal'
  have den := natAbs_den_mul_le normal normal'
  rw [mulStepwise, bind_wideStep (by omega), bind_wideStep (by omega)]
  exact normalizeStepwise_eq (by omega) (by omega)

theorem divStepwise_eq : first.divStepwise second = .ok (first.checkedDiv second) := by
  have num := natAbs_cross_le normal normal'
  have den := natAbs_cross_le normal' normal
  rw [Int.mul_comm] at den
  unfold divStepwise checkedDiv
  split
  · rfl
  · show wideStep _ >>= _ = _
    rw [bind_wideStep (by omega), bind_wideStep (by omega)]
    exact normalizeStepwise_eq (by omega) (by omega)

theorem compareStepwise_eq : first.compareStepwise second = .ok (first.compareNumeric second) := by
  have left := natAbs_cross_le normal normal'
  have right := natAbs_cross_le normal' normal
  rw [compareStepwise, bind_wideStep (by omega), bind_wideStep (by omega)]
  rfl

end Steps

/-- Rational arithmetic is exact or refuses.  Sums, products, quotients (zero for a zero
divisor) and fractions of machine integers are the exact results in lowest terms if these are
representable, and have no result otherwise; comparisons agree with the order of the rational
numbers; and no step overflows on the way.  The same holds of a difference, except that it
overflows whenever the numerator subtracted is the least one. -/
theorem arithmetic_exact_or_refused {first second : RationalNumber} (normal : first.Normal)
    (normal' : second.Normal) :
    (first.addStepwise second = .ok (first.checkedAdd second) ∧
      first.checkedAdd second = ofRat? (first.toRat + second.toRat)) ∧
    (second.num ≠ minInt64 → first.subStepwise second = .ok (first.checkedSub second) ∧
      first.checkedSub second = ofRat? (first.toRat - second.toRat)) ∧
    (second.num = minInt64 → first.subStepwise second = .error .overflow) ∧
    (first.mulStepwise second = .ok (first.checkedMul second) ∧
      first.checkedMul second = ofRat? (first.toRat * second.toRat)) ∧
    (first.divStepwise second = .ok (first.checkedDiv second) ∧
      first.checkedDiv second = ofRat? (first.toRat / second.toRat)) ∧
    (first.compareStepwise second = .ok (first.compareNumeric second) ∧
      (first.compareNumeric second).Compares first.toRat second.toRat) ∧
    ∀ num den : Int, FitsInt64 num → FitsInt64 den → den ≠ 0 →
      normalizeStepwise num den = .ok (normalize num den) ∧
        normalize num den = ofRat? (num / den) := by
  refine ⟨⟨addStepwise_eq normal normal', checkedAdd_eq normal normal'⟩,
    fun above => ⟨subStepwise_eq normal normal' above, checkedSub_eq normal normal' above⟩,
    subStepwise_of_least,
    ⟨mulStepwise_eq normal normal', checkedMul_eq normal normal'⟩,
    ⟨divStepwise_eq normal normal', checkedDiv_eq normal normal'⟩,
    ⟨compareStepwise_eq normal normal', compares_compareNumeric normal normal'⟩,
    fun num den fits fits' nonzero => ⟨?_, normalize_eq nonzero⟩⟩
  unfold FitsInt64 minInt64 maxInt64 at fits fits'
  exact normalizeStepwise_eq (by omega) (by omega)

/-- At the ends of the range: a sum of 64-bit components from products beyond it, a difference
without a representation, and the least number over itself. -/
theorem arithmetic_extreme_numbers :
    addStepwise ⟨minInt64, 3⟩ ⟨maxInt64, 2⟩ = .ok (some ⟨maxInt64 - 2, 6⟩) ∧
      subStepwise ⟨minInt64, 3⟩ ⟨maxInt64, 2⟩ = .ok none ∧
      toRat ⟨minInt64, 3⟩ < toRat ⟨maxInt64, 2⟩ ∧
      normalizeStepwise minInt64 minInt64 = .ok (some ⟨1, 1⟩) := by
  have normal : Normal ⟨minInt64, 3⟩ := ⟨by decide, by decide, by decide, by decide⟩
  have normal' : Normal ⟨maxInt64, 2⟩ := ⟨by decide, by decide, by decide, by decide⟩
  obtain ⟨sum, difference, -, -, -, comparison, fractions⟩ :=
    arithmetic_exact_or_refused normal normal'
  refine ⟨sum.1.trans (congrArg _ (by decide)),
    (difference (by decide)).1.trans (congrArg _ (by decide)), comparison.2,
    (fractions _ _ (by decide) (by decide) (by decide)).1.trans (congrArg _ (by decide))⟩

/-- The opposite of the least numerator ends a difference in an overflow, although the exact
difference could be refused; without a check of the overflow the result is wrong. -/
theorem difference_of_least_numerator :
    (¬ ∀ first second : RationalNumber, first.Normal → second.Normal →
      first.subStepwise second = .ok (ofRat? (first.toRat - second.toRat))) ∧
    ¬ ∀ first second : RationalNumber, first.Normal → second.Normal →
      first.checkedSub second = ofRat? (first.toRat - second.toRat) := by
  have normal : (⟨0, 1⟩ : RationalNumber).Normal := normal_integer (by decide)
  have normal' : (⟨minInt64, 1⟩ : RationalNumber).Normal := normal_integer (by decide)
  constructor
  · intro exact_
    have overflow : subStepwise ⟨0, 1⟩ ⟨minInt64, 1⟩ = .error .overflow := rfl
    rw [exact_ _ _ normal normal'] at overflow
    cases overflow
  · intro exact_
    have wrapped : checkedSub ⟨0, 1⟩ ⟨minInt64, 1⟩ = some ⟨minInt64, 1⟩ := by decide
    rw [exact_ _ _ normal normal'] at wrapped
    have same := (normal_of_ofRat? wrapped).2
    norm_num [toRat, minInt64] at same

end RationalNumber

end AbstractionRefinement
