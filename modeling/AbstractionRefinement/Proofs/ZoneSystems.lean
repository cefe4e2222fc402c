import AbstractionRefinement.Proofs.DifferenceSystems
import AbstractionRefinement.Proofs.ZoneMonotonicity

/-!
# Zones as difference systems

A bound allows the differences below it, so that a zone is a difference system over its
clocks and the constant zero.  As long as no bound comes near the ends of the machine range,
sums of bounds allow the sums of differences, the canonical form has the same solutions as
the matrix, and it is closed if it shows no contradiction.
-/

namespace AbstractionRefinement

open scoped Pointwise

theorem Iic_add_Iic (first second : ℚ) : Set.Iic first + Set.Iic second = Set.Iic (first + second) := by
  ext sum
  simp only [Set.mem_add, Set.mem_Iic]
  constructor
  · rintro ⟨left, isLeft, right, isRight, rfl⟩
    exact add_le_add isLeft isRight
  · intro below
    exact ⟨first, le_rfl, sum - first, sub_le_iff_le_add'.mpr below, add_sub_cancel ..⟩

theorem Iic_add_Iio (first second : ℚ) : Set.Iic first + Set.Iio second = Set.Iio (first + second) := by
  ext sum
  simp only [Set.mem_add, Set.mem_Iic, Set.mem_Iio]
  constructor
  · rintro ⟨left, isLeft, right, isRight, rfl⟩
    exact add_lt_add_of_le_of_lt isLeft isRight
  · intro below
    exact ⟨first, le_rfl, sum - first, sub_lt_iff_lt_add'.mpr below, add_sub_cancel ..⟩

theorem Iio_add_Iio (first second : ℚ) : Set.Iio first + Set.Iio second = Set.Iio (first + second) := by
  ext sum
  simp only [Set.mem_add, Set.mem_Iio]
  constructor
  · rintro ⟨left, isLeft, right, isRight, rfl⟩
    exact add_lt_add isLeft isRight
  · intro below
    exact ⟨first - (first + second - sum) / 2, by linarith,
      second - (first + second - sum) / 2, by linarith, by linarith⟩

namespace Bound

variable {bound first second : Bound}

/-- The differences that a bound allows. -/
def differences (bound : Bound) : Set ℚ :=
  if bound.isInfinite then Set.univ
  else if bound.isStrict then Set.Iio (bound.constant : ℚ)
  else Set.Iic (bound.constant : ℚ)

theorem isLowerSet_differences (bound : Bound) : IsLowerSet bound.differences := by
  unfold differences
  split
  · exact isLowerSet_univ
  · split
    · exact isLowerSet_Iio _
    · exact isLowerSet_Iic _

theorem nonempty_differences (bound : Bound) : bound.differences.Nonempty := by
  unfold differences
  split
  · exact Set.univ_nonempty
  · split
    · exact Set.nonempty_Iio
    · exact Set.nonempty_Iic

theorem differences_infinity : infinity.differences = Set.univ :=
  rfl

theorem differences_zero : zero.differences = Set.Iic 0 := by
  have finite : zero.isInfinite = false := rfl
  have loose : zero.isStrict = false := rfl
  have constant : zero.constant = 0 := rfl
  simp [differences, finite, loose, constant]

theorem differences_of_finite (finite : bound ≠ infinity) : bound.differences =
    if bound.code % 2 = 0 then Set.Iio ((bound.code / 2 : Int) : ℚ)
    else Set.Iic ((bound.code / 2 : Int) : ℚ) := by
  unfold differences isStrict constant
  rw [if_neg (mt isInfinite_iff.mp finite)]
  simp only [decide_eq_true_eq]

/-- Lower bounds allow less. -/
theorem differences_subset (le : first ≤ second) (limited : second ≤ infinity) :
    first.differences ⊆ second.differences := by
  have codes : first.code ≤ second.code := le
  by_cases infinite : second = infinity
  · rw [infinite, differences_infinity]
    exact Set.subset_univ _
  have finite : first ≠ infinity := by
    rintro rfl
    have limited' : second.code ≤ infinity.code := limited
    exact infinite (congrArg Bound.mk (Int.le_antisymm limited' codes))
  rw [differences_of_finite finite, differences_of_finite infinite]
  split <;> split
  · exact Set.Iio_subset_Iio (by exact_mod_cast (by omega : first.code / 2 ≤ second.code / 2))
  · exact Set.Iio_subset_Iic (by exact_mod_cast (by omega : first.code / 2 ≤ second.code / 2))
  · exact Set.Iic_subset_Iio.mpr
      (by exact_mod_cast (by omega : first.code / 2 < second.code / 2))
  · exact Set.Iic_subset_Iic.mpr
      (by exact_mod_cast (by omega : first.code / 2 ≤ second.code / 2))

/-- A bound of a clock by itself is contradictory if it is below zero. -/
theorem zero_mem_differences_iff : (0 : ℚ) ∈ bound.differences ↔ ¬ bound < zero := by
  have less : bound < zero ↔ bound.code < 1 := Iff.rfl
  by_cases infinite : bound = infinity
  · subst infinite
    rw [differences_infinity, less]
    simp [infinity, maxInt64]
  · rw [differences_of_finite infinite, less]
    split
    · rw [Set.mem_Iio, Int.cast_pos]
      omega
    · rw [Set.mem_Iic, Int.cast_nonneg_iff]
      omega

/-- A sum of bounds allows the sums of differences. -/
theorem differences_add (fits : first.SumFits second) :
    (first.add second).differences = first.differences + second.differences := by
  by_cases infinite : first = infinity
  · rw [add_of_infinity (.inl infinite), infinite, differences_infinity,
      Set.univ_add (nonempty_differences second)]
  by_cases infinite' : second = infinity
  · rw [add_of_infinity (.inr infinite'), infinite', differences_infinity,
      Set.add_univ (nonempty_differences first)]
  have code := code_add fits infinite infinite'
  have finite : first.add second ≠ infinity := by
    have sum := (fits.resolve_left infinite).resolve_left infinite'
    unfold constant at sum
    intro same
    rw [same] at code
    unfold infinity maxInt64 at code
    dsimp only at code
    split at code <;> omega
  have half : (first.add second).code / 2 = first.code / 2 + second.code / 2 := by
    rw [code]
    split <;> omega
  have strict : (first.add second).code % 2 = 0 ↔
      first.code % 2 = 0 ∨ second.code % 2 = 0 := by
    rw [code]
    split <;> omega
  rw [differences_of_finite finite, differences_of_finite infinite,
    differences_of_finite infinite', half, Int.cast_add]
  by_cases left : first.code % 2 = 0 <;> by_cases right : second.code % 2 = 0
  · rw [if_pos (strict.mpr (.inl left)), if_pos left, if_pos right, Iio_add_Iio]
  · rw [if_pos (strict.mpr (.inl left)), if_pos left, if_neg right, add_comm, add_comm (Set.Iio _),
      Iic_add_Iio]
  · rw [if_pos (strict.mpr (.inr right)), if_neg left, if_pos right, Iic_add_Iio]
  · rw [if_neg (strict.not.mpr (not_or.mpr ⟨left, right⟩)), if_neg left, if_neg right, Iic_add_Iic]

theorem differences_tighterBound (limited : first ≤ infinity) (limited' : second ≤ infinity) :
    (Zone.tighterBound first second).differences = first.differences ∩ second.differences := by
  unfold Zone.tighterBound
  split
  case isTrue less =>
    exact (Set.inter_eq_left.mpr (differences_subset (Int.le_of_lt less) limited')).symm
  case isFalse notLess =>
    have le : second ≤ first := Int.not_lt.mp notLess
    exact (Set.inter_eq_right.mpr (differences_subset le limited)).symm

end Bound

namespace Zone

open DifferenceSystem

variable {zone : Zone} {values : Nat → ℚ}

/-- The differences that the bounds of a zone allow. -/
def system (zone : Zone) : DifferenceSystem where
  limit row column := (zone.get row column).differences
  isLowerSet _ _ := Bound.isLowerSet_differences _
  nonempty _ _ := Bound.nonempty_differences _

/-- The values, the first of which is that of the constant zero, obey all bounds. -/
def Admits (zone : Zone) (values : Nat → ℚ) : Prop :=
  zone.system.Solves (Finset.range zone.dimension) values

theorem isEmpty_eq_false_iff_zero_mem : zone.isEmpty = false ↔
    ∀ index < zone.dimension, (0 : ℚ) ∈ zone.system.limit index index := by
  rw [isEmpty_eq_false_iff]
  exact forall₂_congr fun _ _ => Bound.zero_mem_differences_iff.symm

theorem Admits.nonempty (admits : zone.Admits values) : zone.isEmpty = false := by
  rw [isEmpty_eq_false_iff_zero_mem]
  intro index isIndex
  have allowed := admits index (Finset.mem_range.mpr isIndex) index (Finset.mem_range.mpr isIndex)
  rwa [sub_self] at allowed

/-- Every bound is a machine word. -/
def Representable (zone : Zone) : Prop :=
  ∀ row < zone.dimension, ∀ column < zone.dimension, FitsInt64 (zone.get row column).code

instance (zone : Zone) : Decidable zone.Representable :=
  inferInstanceAs (Decidable (∀ row < _, ∀ column < _, _ ∧ _))

theorem Representable.le_infinity (representable : zone.Representable) {row column : Nat}
    (isRow : row < zone.dimension) (isColumn : column < zone.dimension) :
    zone.get row column ≤ .infinity :=
  (representable row isRow column isColumn).2

/-- The detours of a row over a clock do not overflow. -/
def DetoursFit (zone : Zone) (via row : Nat) : Prop :=
  ∀ column < zone.dimension, (zone.get row via).SumFits (zone.get via column)

instance (via row : Nat) : Decidable (zone.DetoursFit via row) :=
  inferInstanceAs (Decidable (∀ column < _, _))

theorem Mild.representable (mild : zone.Mild) : zone.Representable := by
  intro row isRow column isColumn
  rcases mild row isRow column isColumn with infinite | ⟨lower, upper⟩
  · rw [infinite]
    decide
  · unfold FitsInt64 minInt64 maxInt64
    omega

theorem Mild.detoursFit (mild : zone.Mild) {via row : Nat} (isVia : via < zone.dimension)
    (isRow : row < zone.dimension) : zone.DetoursFit via row :=
  fun column isColumn => (mild row isRow via isVia).sumFits (mild via isVia column isColumn)

/-- Relaxing a row adds the detours to the system. -/
theorem relaxes_relaxRow (square : zone.Square) (limited : zone.Representable) {via row : Nat}
    (isVia : via < zone.dimension) (isRow : row < zone.dimension)
    (fits : zone.DetoursFit via row) :
    Relaxes zone.dimension via row zone.system (zone.relaxRow via row).system where
  tightened {column} isColumn := by
    show ((zone.relaxRow via row).get row column).differences = (zone.get row column).differences ∩
      ((zone.get row via).differences + (zone.get via column).differences)
    have sumFits := fits column isColumn
    rw [get_relaxRow square isRow isVia isColumn]
    by_cases infinite : zone.get row via = .infinity
    · rw [if_neg (by simp [Bound.isInfinite_iff.mpr infinite]), infinite,
        Bound.differences_infinity, Set.univ_add (Bound.nonempty_differences _), Set.inter_univ]
    · have finite : (zone.get row via).isInfinite = false :=
        Bool.eq_false_iff.mpr (mt Bound.isInfinite_iff.mp infinite)
      rw [if_pos ⟨rfl, finite⟩, Bound.differences_tighterBound
        (Bound.add_le_infinity ..) (limited.le_infinity isRow isColumn),
        Bound.differences_add sumFits, Set.inter_comm]
  same {index column} _ isColumn differs := by
    show ((zone.relaxRow via row).get index column).differences = _
    rw [get_relaxRow square isRow isVia isColumn, if_neg fun both => differs both.1]
    rfl

theorem relaxed_system (square : zone.Square) {steps : List (Nat × Nat)}
    (inside : ∀ step ∈ steps, step.1 < zone.dimension ∧ step.2 < zone.dimension)
    (mildly : zone.RelaxesMildly steps) :
    Relaxed zone.dimension steps zone.system (zone.relaxed steps).system ∧
      (zone.relaxed steps).Mild := by
  induction steps generalizing zone with
  | nil => exact ⟨.nil _, mildly⟩
  | cons step steps ih =>
      obtain ⟨mild, mildly⟩ := mildly
      obtain ⟨⟨isVia, isRow⟩, inside⟩ := List.forall_mem_cons.mp inside
      have sameDimension : (zone.relaxRow step.1 step.2).dimension = zone.dimension :=
        dimension_relaxRow zone step.2 step.1
      obtain ⟨rest, mild'⟩ :=
        ih (square_relaxRow square isRow isVia) (by rwa [sameDimension]) mildly
      rw [sameDimension] at rest
      exact ⟨.cons isVia isRow (relaxes_relaxRow square mild.representable isVia isRow
        (mild.detoursFit isVia isRow)) rest, mild'⟩

/-- A zone that is square, far from overflow, and closed, with bounds of at most zero on the
diagonal.  In particular it shows no contradiction. -/
structure Canonical (zone : Zone) : Prop where
  square : zone.Square
  mild : zone.Mild
  closed : zone.system.Closed zone.dimension
  diagonal {index : Nat} : index < zone.dimension →
    zone.system.limit index index ⊆ Set.Iic 0

theorem relaxed_canonize (square : zone.Square) (mildly : zone.CanonizesMildly) :
    Relaxed zone.dimension (rounds zone.dimension zone.dimension) zone.system
        zone.canonize.system ∧ zone.canonize.Mild := by
  rw [canonize_eq]
  exact relaxed_system square (fun _ => mem_relaxations.mp) mildly

theorem admits_canonize_iff (square : zone.Square) (mildly : zone.CanonizesMildly) :
    zone.canonize.Admits values ↔ zone.Admits values := by
  unfold Admits
  rw [dimension_canonize]
  exact (relaxed_canonize square mildly).1.solves_iff

theorem canonical_canonize (square : zone.Square) (mildly : zone.CanonizesMildly)
    (diagonal : ∀ index < zone.dimension, zone.system.limit index index ⊆ Set.Iic 0)
    (nonempty : zone.canonize.isEmpty = false) : zone.canonize.Canonical := by
  obtain ⟨relaxed, mild⟩ := relaxed_canonize square mildly
  rw [isEmpty_eq_false_iff_zero_mem] at nonempty
  refine ⟨square_canonize square, mild, ?_, fun isIndex => ?_⟩
  · rw [dimension_canonize] at nonempty ⊢
    exact relaxed.closed nonempty
  · rw [dimension_canonize] at isIndex
    exact (relaxed.subset isIndex isIndex).trans (diagonal _ isIndex)

end Zone

end AbstractionRefinement
