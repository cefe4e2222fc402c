import Mathlib.Algebra.Order.Field.Basic
import AbstractionRefinement.Proofs.ZoneSystems

/-!
# Bounds as an ordered monoid

A bound is the limit it is made for if and only if its constant has room in a word beside the
bit of strictness, and this word is not the greatest one, which stands for no limit.  The order
of words is then the order of the limits, which is the inclusion of the allowed differences,
and a sum of bounds allows the sums of differences as long as the sum of the constants has room
as well.
-/

namespace AbstractionRefinement

open scoped Pointwise

namespace Bound

variable {bound first second : Bound} {constant constant' : Int} {strict strict' : Bool}

def halfLine (constant : Int) (strict : Bool) : Set ℚ :=
  if strict then Set.Iio (constant : ℚ) else Set.Iic (constant : ℚ)

/-- The bound stands for a limit with the given constant, which is excluded if it is strict. -/
structure IsLimit (bound : Bound) (constant : Int) (strict : Bool) : Prop where
  finite : bound.isInfinite = false
  constant_eq : bound.constant = constant
  isStrict_eq : bound.isStrict = strict

instance (bound : Bound) (constant : Int) (strict : Bool) :
    Decidable (bound.IsLimit constant strict) :=
  decidable_of_iff (bound.isInfinite = false ∧ bound.constant = constant ∧ bound.isStrict = strict)
    ⟨fun ⟨finite, same, same'⟩ => ⟨finite, same, same'⟩,
      fun limit => ⟨limit.finite, limit.constant_eq, limit.isStrict_eq⟩⟩

theorem isLimit_of_ne_infinity (finite : bound ≠ infinity) :
    bound.IsLimit bound.constant bound.isStrict :=
  ⟨Bool.eq_false_iff.mpr (mt isInfinite_iff.mp finite), rfl, rfl⟩

theorem IsLimit.ne_infinity (limit : bound.IsLimit constant strict) : bound ≠ infinity := by
  rintro rfl
  cases limit.finite

theorem IsLimit.differences_eq (limit : bound.IsLimit constant strict) :
    bound.differences = halfLine constant strict := by
  rw [differences, limit.finite, limit.constant_eq, limit.isStrict_eq]
  rfl

theorem halfLine_subset_iff : halfLine constant strict ⊆ halfLine constant' strict' ↔
    constant < constant' ∨ constant = constant' ∧ (strict' = true → strict = true) := by
  unfold halfLine
  cases strict <;> cases strict' <;>
    simp [Set.Iic_subset_Iio, Set.Iio_subset_Iic_iff, Set.Iio_subset_Iio_iff] <;> omega

theorem halfLine_ne_univ : halfLine constant strict ≠ Set.univ := by
  intro everything
  have allowed : (constant : ℚ) + 1 ∈ halfLine constant strict := everything ▸ Set.mem_univ _
  cases strict <;> simp only [halfLine, if_true, if_false, Bool.false_eq_true, Set.mem_Iic,
    Set.mem_Iio] at allowed <;> linarith

theorem halfLine_injective (same : halfLine constant strict = halfLine constant' strict') :
    constant = constant' ∧ strict = strict' := by
  have less := halfLine_subset_iff.mp same.subset
  have less' := halfLine_subset_iff.mp same.symm.subset
  cases strict <;> cases strict' <;> simp at less less' ⊢ <;> omega

theorem halfLine_add_halfLine : halfLine constant strict + halfLine constant' strict' =
    halfLine (constant + constant') (strict || strict') := by
  unfold halfLine
  rw [Int.cast_add]
  cases strict <;> cases strict'
  · exact Iic_add_Iic _ _
  · exact Iic_add_Iio _ _
  · exact (add_comm _ _).trans ((Iic_add_Iio _ _).trans (by rw [add_comm]; rfl))
  · exact Iio_add_Iio _ _

theorem isLimit_iff_differences_eq :
    bound.IsLimit constant strict ↔ bound.differences = halfLine constant strict := by
  refine ⟨IsLimit.differences_eq, fun same => ?_⟩
  by_cases infinite : bound = infinity
  · rw [infinite, differences_infinity] at same
    exact absurd same.symm halfLine_ne_univ
  · have limit := isLimit_of_ne_infinity infinite
    obtain ⟨rfl, rfl⟩ := halfLine_injective (limit.differences_eq.symm.trans same)
    exact limit

theorem le_iff : first ≤ second ↔ first.constant < second.constant ∨
    first.constant = second.constant ∧ (second.isStrict = true → first.isStrict = true) := by
  show first.code ≤ second.code ↔ _
  unfold Bound.constant isStrict
  rw [decide_eq_true_iff, decide_eq_true_iff]
  omega

theorem le_of_differences_subset (limited : first ≤ infinity)
    (subset : first.differences ⊆ second.differences) : first ≤ second := by
  by_cases infinite' : second = infinity
  · rwa [infinite']
  have limit' := isLimit_of_ne_infinity infinite'
  by_cases infinite : first = infinity
  · rw [infinite, differences_infinity, limit'.differences_eq, Set.univ_subset_iff] at subset
    exact absurd subset halfLine_ne_univ
  · have limit := isLimit_of_ne_infinity infinite
    rw [limit.differences_eq, limit'.differences_eq, halfLine_subset_iff] at subset
    exact le_iff.mpr subset

theorem le_iff_differences_subset (limited : first ≤ infinity) (limited' : second ≤ infinity) :
    first ≤ second ↔ first.differences ⊆ second.differences :=
  ⟨fun le => differences_subset le limited', le_of_differences_subset limited⟩

/-- The constant has room beside the bit of strictness, and its word is not the one of the
bound with no limit. -/
structure Packable (constant : Int) (strict : Bool) : Prop where
  lower : -4611686018427387904 ≤ constant
  upper : constant ≤ 4611686018427387903
  free : ¬ (constant = 4611686018427387903 ∧ strict = false)

instance (constant : Int) (strict : Bool) : Decidable (Packable constant strict) :=
  decidable_of_iff (-4611686018427387904 ≤ constant ∧ constant ≤ 4611686018427387903 ∧
      ¬ (constant = 4611686018427387903 ∧ strict = false))
    ⟨fun ⟨lower, upper, free⟩ => ⟨lower, upper, free⟩,
      fun packable => ⟨packable.lower, packable.upper, packable.free⟩⟩

theorem Packable.unpacked_eq (packable : Packable constant strict) :
    unpacked constant = constant :=
  unpacked_eq_self_iff.mpr ⟨packable.lower, packable.upper⟩

/-- A bound is the limit it is made for if and only if this has a word of its own. -/
theorem isLimit_new_iff : (new constant strict).IsLimit constant strict ↔
    Packable constant strict := by
  constructor
  · intro limit
    have kept : unpacked constant = constant := constant_new.symm.trans limit.constant_eq
    obtain ⟨lower, upper⟩ := unpacked_eq_self_iff.mp kept
    refine ⟨lower, upper, fun greatest => limit.ne_infinity ?_⟩
    exact new_eq_infinity_iff.mpr (kept.symm ▸ greatest)
  · intro packable
    have kept := packable.unpacked_eq
    refine ⟨Bool.eq_false_iff.mpr fun infinite => packable.free ?_, constant_new.trans kept,
      isStrict_new⟩
    exact kept ▸ new_eq_infinity_iff.mp (isInfinite_iff.mp infinite)

theorem Packable.differences_new (packable : Packable constant strict) :
    (new constant strict).differences = halfLine constant strict :=
  (isLimit_new_iff.mpr packable).differences_eq

theorem IsLimit.lt_infinity (limit : bound.IsLimit constant strict) (limited : bound ≤ infinity) :
    bound < infinity :=
  Int.lt_iff_le_and_ne.mpr ⟨limited, fun same => limit.ne_infinity (congrArg Bound.mk same)⟩

theorem IsLimit.lt_iff (limit : first.IsLimit constant strict)
    (limit' : second.IsLimit constant' strict') : first < second ↔
      constant < constant' ∨ constant = constant' ∧ strict = true ∧ strict' = false := by
  have notLe : first < second ↔ ¬ second ≤ first := Int.not_le.symm
  rw [notLe, le_iff, limit.constant_eq, limit.isStrict_eq, limit'.constant_eq,
    limit'.isStrict_eq]
  cases strict <;> cases strict' <;> simp <;> omega

theorem Packable.new_eq_new_iff (packable : Packable constant strict)
    (packable' : Packable constant' strict') :
    new constant strict = new constant' strict' ↔ constant = constant' ∧ strict = strict' := by
  refine ⟨fun same => ?_, fun ⟨same, same'⟩ => same ▸ same' ▸ rfl⟩
  have limit := isLimit_new_iff.mpr packable
  have limit' := isLimit_new_iff.mpr packable'
  exact ⟨limit.constant_eq.symm.trans (same ▸ limit'.constant_eq),
    limit.isStrict_eq.symm.trans (same ▸ limit'.isStrict_eq)⟩

theorem IsLimit.add_eq (limit : first.IsLimit constant strict)
    (limit' : second.IsLimit constant' strict') :
    first.add second = new (constant + constant') (strict || strict') := by
  rw [add, limit.finite, limit'.finite, limit.constant_eq, limit.isStrict_eq, limit'.constant_eq,
    limit'.isStrict_eq]
  rfl

theorem new_add_new (finite : new constant strict ≠ infinity)
    (finite' : new constant' strict' ≠ infinity) :
    (new constant strict).add (new constant' strict') =
      new (constant + constant') (strict || strict') := by
  rw [(isLimit_of_ne_infinity finite).add_eq (isLimit_of_ne_infinity finite'), isStrict_new,
    isStrict_new, constant_new, constant_new]
  exact new_congr unpacked_add

/-- A sum is the limit by the sum of the constants if and only if this has a word of its own,
and no summand was packed into the word of infinity. -/
theorem isLimit_add_new_iff :
    ((new constant strict).add (new constant' strict')).IsLimit (constant + constant')
        (strict || strict') ↔
      new constant strict ≠ infinity ∧ new constant' strict' ≠ infinity ∧
        Packable (constant + constant') (strict || strict') := by
  by_cases infinite : new constant strict = infinity ∨ new constant' strict' = infinity
  · rw [add_of_infinity infinite]
    refine iff_of_false (fun limit => limit.ne_infinity rfl) fun ⟨finite, finite', _⟩ => ?_
    exact infinite.elim finite finite'
  · obtain ⟨finite, finite'⟩ := not_or.mp infinite
    rw [new_add_new finite finite', isLimit_new_iff, and_iff_right finite, and_iff_right finite']

/-- The sum of the constants has a word of its own, unless one of the bounds has no limit. -/
def SumPacks (first second : Bound) : Prop :=
  first = infinity ∨ second = infinity ∨
    Packable (first.constant + second.constant) (first.isStrict || second.isStrict)

theorem SumPacks.isLimit_add (packs : first.SumPacks second) (finite : first ≠ infinity)
    (finite' : second ≠ infinity) : (first.add second).IsLimit
      (first.constant + second.constant) (first.isStrict || second.isStrict) := by
  rw [(isLimit_of_ne_infinity finite).add_eq (isLimit_of_ne_infinity finite'), isLimit_new_iff]
  exact (packs.resolve_left finite).resolve_left finite'

/-- A sum of bounds allows the sums of differences if and only if the sum of the constants has
a word of its own. -/
theorem differences_add_iff :
    (first.add second).differences = first.differences + second.differences ↔
      first.SumPacks second := by
  by_cases infinite : first = infinity ∨ second = infinity
  · exact iff_of_true (differences_add (infinite.imp_right .inl)) (infinite.imp_right .inl)
  · obtain ⟨finite, finite'⟩ := not_or.mp infinite
    have limit := isLimit_of_ne_infinity finite
    have limit' := isLimit_of_ne_infinity finite'
    rw [SumPacks, or_iff_right finite, or_iff_right finite', limit.differences_eq,
      limit'.differences_eq, halfLine_add_halfLine, ← isLimit_iff_differences_eq,
      limit.add_eq limit', isLimit_new_iff]

theorem add_zero_of_fits (fits : FitsInt64 bound.code) : bound.add zero = bound := by
  by_cases infinite : bound = infinity
  · rw [add_of_infinity (.inl infinite), infinite]
  · have neutral : zero.IsLimit 0 false := by decide
    rw [(isLimit_of_ne_infinity infinite).add_eq neutral, Int.add_zero, Bool.or_false,
      new_constant_isStrict fits]

/-- Both ways to add three bounds give the same word, also where it is not that of the sum. -/
theorem add_associates {third : Bound} (packs : first.SumPacks second)
    (packs' : second.SumPacks third) :
    (first.add second).add third = first.add (second.add third) := by
  by_cases infinite : first = infinity
  · rw [add_of_infinity (.inl infinite), add_of_infinity (.inl infinite),
      add_of_infinity (.inl rfl)]
  by_cases infinite' : second = infinity
  · rw [add_of_infinity (.inr infinite'), add_of_infinity (.inl infinite'),
      add_of_infinity (.inl rfl), add_of_infinity (.inr rfl)]
  by_cases infinite'' : third = infinity
  · rw [add_of_infinity (.inr infinite''), add_of_infinity (.inr infinite''),
      add_of_infinity (.inr rfl)]
  -- Sums of two have words of their own, so that both sides pack the sum of all three.
  · have limit := isLimit_of_ne_infinity infinite
    have limit'' := isLimit_of_ne_infinity infinite''
    rw [(packs.isLimit_add infinite infinite').add_eq limit'',
      limit.add_eq (packs'.isLimit_add infinite' infinite''), Int.add_assoc, Bool.or_assoc]

theorem add_le_add_of_packs {third : Bound} (limited : second ≤ infinity)
    (packs : first.SumPacks third) (packs' : second.SumPacks third) (le : first ≤ second) :
    first.add third ≤ second.add third := by
  rw [le_iff_differences_subset (add_le_infinity ..) (add_le_infinity ..),
    differences_add_iff.mpr packs, differences_add_iff.mpr packs']
  exact Set.add_subset_add_right (differences_subset le limited)

/-- Three bounds obey the laws of an ordered monoid with a greatest element that absorbs, as the
sets of allowed differences do. -/
structure Monoidal (first second third : Bound) : Prop where
  le_iff_subset : first ≤ second ↔ first.differences ⊆ second.differences
  differences_add_iff : (first.add second).differences = first.differences + second.differences ↔
    first.SumPacks second
  le_infinity : first ≤ infinity
  add_infinity : first.add infinity = infinity ∧ infinity.add first = infinity
  add_zero : first.add zero = first
  add_comm : first.add second = second.add first
  add_assoc : first.SumPacks second → second.SumPacks third →
    (first.add second).add third = first.add (second.add third)
  add_le_add : first.SumPacks third → second.SumPacks third → first ≤ second →
    first.add third ≤ second.add third

theorem monoidal_of_fits (fits : FitsInt64 first.code) (fits' : FitsInt64 second.code)
    (third : Bound) : Monoidal first second third where
  le_iff_subset := le_iff_differences_subset fits.2 fits'.2
  differences_add_iff := differences_add_iff
  le_infinity := fits.2
  add_infinity := ⟨add_of_infinity (.inr rfl), add_of_infinity (.inl rfl)⟩
  add_zero := add_zero_of_fits fits
  add_comm := add_commutes first second
  add_assoc := add_associates
  add_le_add := add_le_add_of_packs fits'.2

/-- Bounds form the ordered monoid of the limits they stand for, as far as these have words.

A bound is the limit it is made for if and only if its constant has a word of its own.  Such
limits are ordered by their constants, strict ones before others of the same constant and the
missing limit last.  A sum of bounds is the sum of their limits, strict if one of them is, if
and only if this sum has a word of its own and neither limit was taken for a missing one.  For
all words the order is the inclusion of the allowed differences, sums allow the sums of
differences where the sum of the constants has a word of its own, and the laws of ordered
monoids hold. -/
theorem limits_ordered_monoid (constant constant' : Int) (strict strict' : Bool) :
    ((new constant strict).IsLimit constant strict ↔ Packable constant strict) ∧
    (Packable constant strict → Packable constant' strict' →
      (new constant strict < new constant' strict' ↔
        constant < constant' ∨ constant = constant' ∧ strict = true ∧ strict' = false) ∧
      (new constant strict = new constant' strict' ↔
        constant = constant' ∧ strict = strict') ∧
      new constant strict < infinity) ∧
    (((new constant strict).add (new constant' strict')).IsLimit (constant + constant')
        (strict || strict') ↔
      new constant strict ≠ infinity ∧ new constant' strict' ≠ infinity ∧
        Packable (constant + constant') (strict || strict')) ∧
    ∀ first second third : Bound, FitsInt64 first.code → FitsInt64 second.code →
      Monoidal first second third := by
  refine ⟨isLimit_new_iff, fun packable packable' => ?_, isLimit_add_new_iff,
    fun _ _ third fits fits' => monoidal_of_fits fits fits' third⟩
  have limit := isLimit_new_iff.mpr packable
  have limit' := isLimit_new_iff.mpr packable'
  exact ⟨limit.lt_iff limit', packable.new_eq_new_iff packable',
    limit.lt_infinity (new_le_infinity ..)⟩

/-- The greatest constant of a word is one of a strict limit only; the least constant may be
reached. -/
theorem limits_ordered_at_ends : Packable 4611686018427387903 true ∧
    Packable (-4611686018427387904) false ∧
    (new 4611686018427387903 true).IsLimit 4611686018427387903 true ∧
    new (-4611686018427387904) false < new 4611686018427387903 true ∧
    new 4611686018427387903 true < infinity ∧
    ((new (-4611686018427387904) false).add (new 4611686018427387903 true)).IsLimit (-1) true ∧
    (new 4611686018427387903 true).add zero = new 4611686018427387903 true := by
  have greatest : Packable 4611686018427387903 true := by decide
  have least : Packable (-4611686018427387904) false := by decide
  obtain ⟨limit, ordered, -, laws⟩ :=
    limits_ordered_monoid 4611686018427387903 (-4611686018427387904) true false
  obtain ⟨-, ordered', sum, -⟩ :=
    limits_ordered_monoid (-4611686018427387904) 4611686018427387903 false true
  exact ⟨greatest, least, limit.mpr greatest, (ordered' least greatest).1.mpr (.inl (by decide)),
    (ordered greatest least).2.2, sum.mpr (by decide),
    (laws _ zero zero (by decide) (by decide)).add_zero⟩

/-- Machine constants beyond those of a word lose their highest bit, in new bounds and in sums,
which turns the order around, and the greatest limit of a word is taken for a missing one. -/
theorem limits_lost_beyond_words :
    (¬ ∀ (constant : Int) (strict : Bool), FitsInt64 constant →
      (new constant strict).IsLimit constant strict) ∧
    (¬ ∀ (constant constant' : Int) (strict strict' : Bool),
      FitsInt64 constant → FitsInt64 constant' →
        (new constant strict < new constant' strict' ↔
          constant < constant' ∨ constant = constant' ∧ strict = true ∧ strict' = false)) ∧
    (¬ ∀ (constant constant' : Int) (strict strict' : Bool), FitsInt64 constant →
      FitsInt64 constant' → FitsInt64 (constant + constant') →
        ((new constant strict).add (new constant' strict')).IsLimit (constant + constant')
          (strict || strict')) ∧
    new 4611686018427387903 false = infinity := by
  refine ⟨fun limits => ?_, fun ordered => ?_, fun sums => ?_, by decide⟩
  · exact absurd (limits 4611686018427387904 false (by decide)) (by decide)
  · exact absurd (ordered 0 4611686018427387904 false false (by decide) (by decide)) (by decide)
  · exact absurd (sums 2305843009213693952 2305843009213693952 false false (by decide) (by decide)
      (by decide)) (by decide)

end Bound

end AbstractionRefinement
