/-!
# Machine integers

Integers of formulas, clock constants and difference bounds live in the signed
64-bit range.  They are kept as mathematical integers, and this file names the
two ways a result can leave that range: a checked operation has no result, and
a wrapping operation keeps the representative modulo `2 ^ 64`.
-/

namespace AbstractionRefinement

/-- The least signed 64-bit integer. -/
def minInt64 : Int := -9223372036854775808

/-- The greatest signed 64-bit integer. -/
def maxInt64 : Int := 9223372036854775807

/-- The least signed 32-bit integer. -/
def minInt32 : Int := -2147483648

/-- The greatest signed 32-bit integer. -/
def maxInt32 : Int := 2147483647

/-- A number of the signed 64-bit range. -/
def FitsInt64 (number : Int) : Prop :=
  minInt64 ≤ number ∧ number ≤ maxInt64

instance (number : Int) : Decidable (FitsInt64 number) :=
  inferInstanceAs (Decidable (_ ∧ _))

/-- The number itself when it is representable. -/
def checkedInt64 (number : Int) : Option Int :=
  if FitsInt64 number then some number else none

/-- The representable number congruent to the given one modulo `2 ^ 64`. -/
def wrapInt64 (number : Int) : Int :=
  number.bmod (Nat.pow 2 64)

/-- The representable number nearest to the given one. -/
def saturateInt64 (number : Int) : Int :=
  max minInt64 (min maxInt64 number)

/-- The absolute value in the signed 32-bit range, where that of the least integer
wraps around. -/
def wrappedAbs (number : Int) : Int :=
  Int.bmod number.natAbs (Nat.pow 2 32)

/-- One shifted left in an unsigned 64-bit word, where the distance counts modulo
the width of the word. -/
def shiftedOne (distance : Nat) : Nat :=
  Nat.pow 2 (distance % 64)

theorem checkedInt64_eq_some_iff {number result : Int} :
    checkedInt64 number = some result ↔ FitsInt64 number ∧ number = result := by
  unfold checkedInt64
  split <;> simp_all

theorem wrapInt64_of_fits {number : Int} (fits : FitsInt64 number) :
    wrapInt64 number = number := by
  obtain ⟨lower, upper⟩ := fits
  unfold minInt64 at lower
  unfold maxInt64 at upper
  show number.bmod 18446744073709551616 = number
  apply Int.bmod_eq_of_le <;> omega

theorem wrappedAbs_of_fits {number : Int} (lower : minInt32 < number)
    (upper : number ≤ maxInt32) : wrappedAbs number = number.natAbs := by
  unfold minInt32 at lower
  unfold maxInt32 at upper
  show Int.bmod number.natAbs 4294967296 = number.natAbs
  apply Int.bmod_eq_of_le <;> omega

theorem shiftedOne_of_lt {distance : Nat} (short : distance < 64) :
    shiftedOne distance = Nat.pow 2 distance := by
  rw [shiftedOne, Nat.mod_eq_of_lt short]

theorem shiftedOne_pos (distance : Nat) : 0 < shiftedOne distance :=
  Nat.two_pow_pos _

theorem shiftedOne_le (distance : Nat) : shiftedOne distance ≤ Nat.pow 2 distance :=
  Nat.pow_le_pow_right (by decide) (Nat.mod_le distance 64)

end AbstractionRefinement
