import AbstractionRefinement.DifferenceBounds

/-!
# Words of bounds

A word has one bit for strictness, so that a constant loses its highest bit when it is packed.
This file says what comes back from the word of a new bound, and when this word is the one of
no limit.  New bounds and sums are words, whatever their constants are.
-/

namespace AbstractionRefinement

namespace Bound

variable {bound first second : Bound} {constant constant' : Int} {strict : Bool}

theorem isInfinite_iff : bound.isInfinite = true ↔ bound = infinity :=
  decide_eq_true_iff

/-- The constant that comes back from a word, in which its highest bit is lost. -/
def unpacked (constant : Int) : Int :=
  constant.bmod 9223372036854775808

theorem unpacked_bounds (constant : Int) :
    -4611686018427387904 ≤ unpacked constant ∧ unpacked constant ≤ 4611686018427387903 :=
  ⟨Int.le_bmod (by decide), Int.le_of_lt_add_one (Int.bmod_lt (by decide))⟩

theorem unpacked_eq_self_iff : unpacked constant = constant ↔
    -4611686018427387904 ≤ constant ∧ constant ≤ 4611686018427387903 :=
  ⟨fun same => same ▸ unpacked_bounds constant,
    fun ⟨lower, upper⟩ => Int.bmod_eq_of_le lower (Int.lt_of_le_of_lt upper (by decide))⟩

theorem unpacked_add :
    unpacked (unpacked constant + unpacked constant') = unpacked (constant + constant') := by
  unfold unpacked
  rw [Int.bmod_add_bmod, Int.add_bmod_bmod]

theorem code_new (constant : Int) (strict : Bool) :
    (new constant strict).code = 2 * unpacked constant + if strict then 0 else 1 := by
  have shifted : wrapInt64 (2 * constant) = 2 * unpacked constant := by
    -- Twice a balanced remainder is the balanced remainder of the double by the double.
    show (2 * constant).bmod 18446744073709551616 = 2 * constant.bmod 9223372036854775808
    rw [Int.bmod_def, Int.bmod_def]
    omega
  unfold new below atMost
  rw [shifted]
  cases strict
  · rfl
  · exact (Int.add_zero _).symm

theorem constant_new : (new constant strict).constant = unpacked constant := by
  rw [Bound.constant, code_new]
  split <;> omega

theorem isStrict_new : (new constant strict).isStrict = strict := by
  rw [isStrict, code_new]
  cases strict
  · exact decide_eq_false (by rw [if_neg Bool.false_ne_true]; omega)
  · exact decide_eq_true (by rw [if_pos rfl]; omega)

theorem new_congr (same : unpacked constant = unpacked constant') :
    new constant strict = new constant' strict := by
  have sameCode : (new constant strict).code = (new constant' strict).code := by
    rw [code_new, code_new, same]
  exact congrArg Bound.mk sameCode

theorem fitsInt64_new (constant : Int) (strict : Bool) : FitsInt64 (new constant strict).code := by
  obtain ⟨lower, upper⟩ := unpacked_bounds constant
  rw [code_new]
  unfold FitsInt64 minInt64 maxInt64
  split <;> omega

theorem new_le_infinity (constant : Int) (strict : Bool) : new constant strict ≤ infinity :=
  (fitsInt64_new constant strict).2

theorem new_eq_infinity_iff : new constant strict = infinity ↔
    unpacked constant = 4611686018427387903 ∧ strict = false := by
  have codes : new constant strict = infinity ↔ (new constant strict).code = maxInt64 :=
    ⟨congrArg code, congrArg Bound.mk⟩
  rw [codes, code_new, maxInt64]
  cases strict <;> simp <;> omega

theorem new_constant_isStrict (fits : FitsInt64 bound.code) :
    new bound.constant bound.isStrict = bound := by
  obtain ⟨lower, upper⟩ := fits
  unfold minInt64 at lower
  unfold maxInt64 at upper
  have kept : unpacked bound.constant = bound.constant :=
    unpacked_eq_self_iff.mpr (by unfold Bound.constant; omega)
  have sameCode : (new bound.constant bound.isStrict).code = bound.code := by
    rw [code_new, kept, Bound.constant, isStrict]
    by_cases even : bound.code % 2 = 0 <;> simp [even] <;> omega
  exact congrArg Bound.mk sameCode

theorem add_of_infinity (infinite : first = infinity ∨ second = infinity) :
    first.add second = infinity := by
  unfold add
  rw [if_pos]
  rwa [Bool.or_eq_true, isInfinite_iff, isInfinite_iff]

theorem fitsInt64_add (first second : Bound) : FitsInt64 (first.add second).code := by
  unfold add
  split
  · decide
  · exact fitsInt64_new ..

theorem add_le_infinity (first second : Bound) : first.add second ≤ infinity :=
  (fitsInt64_add first second).2

theorem add_commutes (first second : Bound) : first.add second = second.add first := by
  rw [add, add, Bool.or_comm, Int.add_comm, Bool.or_comm first.isStrict]

end Bound

end AbstractionRefinement
