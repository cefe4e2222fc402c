import AbstractionRefinement.Proofs.ZoneConstants

/-!
# What extrapolation adds to a zone

Every valuation in the extrapolation of a canonical zone is similar to one in the zone: each
clock has the same value in both, or a value above its greatest constant in both.  Clocks
that are not above their constants keep their values, each of the others can be put above
its constant next to them, and pointwise maxima do this for all of them at once.
-/

namespace AbstractionRefinement

/-- The clocks have equal values, or values above their greatest constants. -/
def ClockValuation.Similar (constants : Zone.ClockConstants) (first second : ClockValuation)
    (clock : VarDecl) : Prop :=
  first clock = second clock ∨ ∃ greatest, OrderedMap.find? clock constants = some greatest ∧
    (greatest : ℚ) < first clock ∧ (greatest : ℚ) < second clock

theorem ClockValuation.Similar.trans {constants : Zone.ClockConstants}
    {first second third : ClockValuation} {clock : VarDecl}
    (similar : first.Similar constants second clock)
    (similar' : second.Similar constants third clock) : first.Similar constants third clock := by
  rcases similar with same | ⟨greatest, found, above, above'⟩
  · rw [Similar, same]
    exact similar'
  · rcases similar' with same' | ⟨greatest', found', above₂, above₃⟩
    · exact .inr ⟨greatest, found, above, same' ▸ above'⟩
    · obtain rfl : greatest = greatest' := Option.some.inj (found.symm.trans found')
      exact .inr ⟨greatest, found, above, above₃⟩

theorem FarFromOverflow.neg {constant : Int} (far : FarFromOverflow constant) :
    FarFromOverflow (-constant) := by
  unfold FarFromOverflow at *
  omega

/-- A bound above a constant allows a greater difference. -/
theorem Bound.exists_gt_of_atMost_lt {bound : Bound} {constant : Int}
    (far : FarFromOverflow constant) (beyond : atMost constant < bound) :
    ∃ difference ∈ bound.differences, (constant : ℚ) < difference := by
  rw [atMost_eq far] at beyond
  have code : 2 * constant + 1 < bound.code := beyond
  refine ⟨constant + 1 / 2, ?_, by linarith⟩
  by_cases infinite : bound = infinity
  · rw [infinite, differences_infinity]
    trivial
  · have half : (constant : ℚ) + 1 ≤ ((bound.code / 2 : Int) : ℚ) := by
      exact_mod_cast (by omega : constant + 1 ≤ bound.code / 2)
    rw [differences_of_finite infinite]
    split
    · show (constant : ℚ) + 1 / 2 < _
      linarith
    · show (constant : ℚ) + 1 / 2 ≤ _
      linarith

namespace Zone

variable {zone : Zone} {constants : ClockConstants}

/-- The clocks of a zone are not negative. -/
def NonNegative (zone : Zone) : Prop :=
  ∀ index < zone.dimension, zone.system.limit 0 index ⊆ Set.Iic 0

/-- The constants are natural numbers far from overflow. -/
def RegularConstants (constants : ClockConstants) : Prop :=
  ∀ clock greatest, OrderedMap.find? clock constants = some greatest →
    0 ≤ greatest ∧ FarFromOverflow greatest

theorem RegularConstants.constantAt (regular : RegularConstants constants) {index : Nat}
    {greatest : Int} (found : zone.constantAt constants index = some greatest) :
    0 ≤ greatest ∧ FarFromOverflow greatest := by
  cases index with
  | zero =>
      obtain rfl := Option.some.inj found
      decide
  | succ index =>
      obtain ⟨clock, -, found⟩ := Option.bind_eq_some_iff.mp found
      exact regular clock greatest found

/-- A limit is kept, dropped because it exceeds the constant of its row, or weakened to the
constant of its column. -/
theorem limit_weakened_cases (regular : RegularConstants constants) {row column : Nat}
    (isRow : row < zone.dimension) (isColumn : column < zone.dimension) :
    (zone.weakened constants).system.limit row column = zone.system.limit row column ∨
      (row ≠ 0 ∧ ∃ greatest : Int, zone.constantAt constants row = some greatest ∧
        ∃ difference ∈ zone.system.limit row column, (greatest : ℚ) < difference) ∨
      (column ≠ 0 ∧ ∃ greatest : Int, zone.constantAt constants column = some greatest ∧
        (zone.weakened constants).system.limit row column = Set.Iio (-(greatest : ℚ))) := by
  have entry : (zone.weakened constants).system.limit row column =
      (weakenedBound (zone.constantAt constants row) (zone.constantAt constants column) row column
        (zone.get row column)).differences := by
    show ((zone.weakened constants).get row column).differences = _
    rw [weakened, get_mapEntries _ isRow isColumn]
  rw [entry]
  unfold weakenedBound
  split
  case isTrue => exact .inl rfl
  case isFalse =>
    split
    case isTrue exceeds =>
      obtain ⟨greatest, found, beyond⟩ := (Option.any_eq_true ..).mp exceeds
      rw [Bool.and_eq_true, decide_eq_true_iff, decide_eq_true_iff] at beyond
      exact .inr (.inl ⟨beyond.1, greatest, found,
        Bound.exists_gt_of_atMost_lt (regular.constantAt found).2 beyond.2⟩)
    case isFalse =>
      split
      case h_1 greatest found =>
        have opposite := (regular.constantAt found).2.neg
        split
        case isTrue weaker =>
          refine .inr (.inr ⟨weaker.1, greatest, found, ?_⟩)
          rw [Bound.differences_below opposite, Int.cast_neg]
        case isFalse => exact .inl rfl
      case h_2 => exact .inl rfl

/-- Where only differences of at most zero are allowed, extrapolation adds no others. -/
theorem limit_weakened_nonpositive (regular : RegularConstants constants) {row column : Nat}
    (isRow : row < zone.dimension) (isColumn : column < zone.dimension)
    (nonpositive : zone.system.limit row column ⊆ Set.Iic 0) :
    (zone.weakened constants).system.limit row column ⊆ Set.Iic 0 := by
  rcases limit_weakened_cases regular isRow isColumn with
    kept | ⟨-, greatest, found, difference, isLimit, beyond⟩ | ⟨-, greatest, found, weaker⟩
  · rwa [kept]
  · have natural : (0 : ℚ) ≤ greatest := by exact_mod_cast (regular.constantAt found).1
    have small : difference ≤ 0 := nonpositive isLimit
    linarith
  · have natural : -(greatest : ℚ) ≤ 0 := by
      exact_mod_cast Int.neg_nonpos_of_nonneg (regular.constantAt found).1
    rw [weaker]
    exact Set.Iio_subset_Iic_self.trans (Set.Iic_subset_Iic.mpr natural)

section Values

variable {values : Nat → ℚ}

/-- The index is that of a clock above its greatest constant. -/
def FarAt (zone : Zone) (constants : ClockConstants) (values : Nat → ℚ) (index : Nat) : Prop :=
  index ≠ 0 ∧ ∃ greatest : Int, zone.constantAt constants index = some greatest ∧
    (greatest : ℚ) < values index

theorem NonNegative.le_of_weakened (nonNegative : zone.NonNegative)
    (regular : RegularConstants constants) (admits : (zone.weakened constants).Admits values)
    {index : Nat} (isIndex : index < zone.dimension) : values 0 ≤ values index := by
  have isZero : 0 < zone.dimension := Nat.succ_pos _
  have allowed := admits 0 (Finset.mem_range.mpr isZero) index (Finset.mem_range.mpr isIndex)
  exact sub_nonpos.mp
    (limit_weakened_nonpositive regular isZero isIndex (nonNegative index isIndex) allowed)

/-- A difference that the weakened bounds allow is allowed by the zone, unless it is the one
of a clock above its constant and another clock, or lies below the constant of a row. -/
theorem mem_limit_of_weakened (nonNegative : zone.NonNegative)
    (regular : RegularConstants constants) (admits : (zone.weakened constants).Admits values)
    (start : values 0 = 0) {row column : Nat} (isRow : row < zone.dimension)
    (isColumn : column < zone.dimension) (near : ¬ zone.FarAt constants values column) :
    values row - values column ∈ zone.system.limit row column ∨
      ∃ greatest : Int, row ≠ 0 ∧ zone.constantAt constants row = some greatest ∧
        ∃ difference ∈ zone.system.limit row column, (greatest : ℚ) < difference := by
  have allowed := admits row (Finset.mem_range.mpr isRow) column (Finset.mem_range.mpr isColumn)
  rcases limit_weakened_cases regular isRow isColumn with
    kept | ⟨isClock, greatest, found, beyond⟩ | ⟨isClock, greatest, found, weaker⟩
  · exact .inl (kept ▸ allowed)
  · exact .inr ⟨greatest, isClock, found, beyond⟩
  · rw [weaker] at allowed
    have below : values row - values column < -(greatest : ℚ) := allowed
    have positive := nonNegative.le_of_weakened regular admits isRow
    exact absurd ⟨isClock, greatest, found, by linarith⟩ near

/-- The clocks that are not above their constants have values that the zone allows. -/
theorem solves_near (nonNegative : zone.NonNegative) (regular : RegularConstants constants)
    (admits : (zone.weakened constants).Admits values) (start : values 0 = 0)
    {known : Finset Nat} (inside : known ⊆ Finset.range zone.dimension)
    (near : ∀ index ∈ known, ¬ zone.FarAt constants values index) :
    zone.system.Solves known values := by
  intro row isRow column isColumn
  have isRow' := Finset.mem_range.mp (inside isRow)
  have isColumn' := Finset.mem_range.mp (inside isColumn)
  rcases mem_limit_of_weakened nonNegative regular admits start isRow' isColumn'
      (near column isColumn) with allowed | ⟨greatest, isClock, found, difference, isLimit, beyond⟩
  · exact allowed
  · refine zone.system.isLowerSet row column ?_ isLimit
    have positive := nonNegative.le_of_weakened regular admits isColumn'
    have below : values row ≤ greatest :=
      not_lt.mp fun above => near row isRow ⟨isClock, greatest, found, above⟩
    linarith

/-- Next to the clocks that are not above their constants, one that is can be put above its
constant in the zone. -/
theorem Canonical.exists_far (canonical : zone.Canonical) (nonNegative : zone.NonNegative)
    (regular : RegularConstants constants) (admits : (zone.weakened constants).Admits values)
    (start : values 0 = 0) {known : Finset Nat} (inside : known ⊆ Finset.range zone.dimension)
    (near : ∀ index ∈ known, ¬ zone.FarAt constants values index) {index : Nat}
    (isIndex : index < zone.dimension) {greatest : Int}
    (found : zone.constantAt constants index = some greatest)
    (above : (greatest : ℚ) < values index) (fresh : index ∉ known) :
    ∃ solution, zone.Admits solution ∧ (∀ other ∈ known, solution other = values other) ∧
      (greatest : ℚ) < solution index := by
  obtain ⟨value, beyond, solves⟩ := canonical.closed.extend_one inside isIndex fresh
    (solves_near nonNegative regular admits start inside near)
    (isUpperSet_Ioi (greatest : ℚ)) Set.nonempty_Ioi fun other isOther => by
      have isOther' := Finset.mem_range.mp (inside isOther)
      rcases mem_limit_of_weakened nonNegative regular admits start isIndex isOther'
        (near other isOther) with allowed | ⟨greatest', -, found', difference, isLimit, beyond⟩
      · exact ⟨values index, above, allowed⟩
      · obtain rfl : greatest = greatest' := Option.some.inj (found.symm.trans found')
        have positive := nonNegative.le_of_weakened regular admits isOther'
        refine ⟨values other + difference, ?_, by rwa [add_sub_cancel_left]⟩
        show (greatest : ℚ) < _
        linarith
  obtain ⟨solution, solves', same⟩ := canonical.closed.extend
    (Finset.insert_subset (Finset.mem_range.mpr isIndex) inside) solves
  refine ⟨solution, solves', fun other isOther => ?_, ?_⟩
  · have differs : other ≠ index := by
      rintro rfl
      exact fresh isOther
    rw [same other (Finset.mem_insert_of_mem isOther), Function.update_of_ne differs]
  · rw [same index (Finset.mem_insert_self ..), Function.update_self]
    exact beyond

/-- All clocks above their constants can be put above them in the zone at once. -/
theorem Canonical.exists_all_far (canonical : zone.Canonical) (nonNegative : zone.NonNegative)
    (regular : RegularConstants constants) (admits : (zone.weakened constants).Admits values)
    (start : values 0 = 0) {known : Finset Nat} (inside : known ⊆ Finset.range zone.dimension)
    (near : ∀ index ∈ known, ¬ zone.FarAt constants values index) (clocks : Finset Nat)
    (far : ∀ index ∈ clocks, index < zone.dimension ∧ zone.FarAt constants values index) :
    ∃ solution, zone.Admits solution ∧ (∀ other ∈ known, solution other = values other) ∧
      ∀ index ∈ clocks, ∀ greatest : Int, zone.constantAt constants index = some greatest →
        (greatest : ℚ) < solution index := by
  induction clocks using Finset.induction_on with
  | empty =>
      obtain ⟨solution, solves, same⟩ := canonical.closed.extend inside
        (solves_near nonNegative regular admits start inside near)
      exact ⟨solution, solves, same, by simp⟩
  | insert index clocks _ ih =>
      rw [Finset.forall_mem_insert] at far
      obtain ⟨⟨isIndex, isFar⟩, far⟩ := far
      obtain ⟨first, admitsFirst, same, beyond⟩ := ih far
      obtain ⟨-, greatest, found, above⟩ := id isFar
      obtain ⟨second, admitsSecond, same', beyond'⟩ := canonical.exists_far nonNegative regular
        admits start inside near isIndex found above fun isKnown => near index isKnown isFar
      refine ⟨_, admitsFirst.max admitsSecond, fun other isOther => ?_, ?_⟩
      · rw [same other isOther, same' other isOther, max_self]
      · rw [Finset.forall_mem_insert]
        constructor
        · intro greatest' found'
          obtain rfl : greatest = greatest' := Option.some.inj (found.symm.trans found')
          exact lt_max_of_lt_right beyond'
        · exact fun other isOther greatest' found' =>
            lt_max_of_lt_left (beyond other isOther greatest' found')

end Values

/-- The weakened bounds admit only valuations similar to those in the zone. -/
theorem Canonical.exists_similar_of_weakened (canonical : zone.Canonical)
    (nonNegative : zone.NonNegative) (nodup : zone.clocks.Nodup)
    (regular : RegularConstants constants) {valuation : ClockValuation}
    (contains : (zone.weakened constants).Contains valuation) :
    ∃ original, zone.Contains original ∧
      ∀ clock, original.Similar constants valuation clock := by
  classical
  have admits : (zone.weakened constants).Admits (valuesOf zone.clocks valuation) := contains
  let values := valuesOf zone.clocks valuation
  let known := (Finset.range zone.dimension).filter fun index => ¬ zone.FarAt constants values index
  have near : ∀ index ∈ known, ¬ zone.FarAt constants values index := fun _ member =>
    (Finset.mem_filter.mp member).2
  obtain ⟨solution, solves, same, beyond⟩ := canonical.exists_all_far nonNegative regular admits rfl
    (Finset.filter_subset ..) near
    ((Finset.range zone.dimension).filter fun index => zone.FarAt constants values index)
    fun _ member => (Finset.mem_filter.mp member).imp_left Finset.mem_range.mp
  have zero_eq : solution 0 = 0 := same 0 (Finset.mem_filter.mpr
    ⟨Finset.mem_range.mpr (Nat.succ_pos _), fun isFar => isFar.1 rfl⟩)
  refine ⟨zone.valuationOf valuation solution, contains_valuationOf nodup solves zero_eq,
    fun clock => ?_⟩
  unfold ClockValuation.Similar valuationOf
  cases found : zone.indexOf? clock with
  | none => exact .inl rfl
  | some index =>
      obtain ⟨position, rfl, isClock⟩ := indexOf?_eq_some found
      have isIndex := Finset.mem_range.mpr (lt_dimension_of_getElem? isClock)
      have value : values (position + 1) = valuation clock := by
        simp [values, valuesOf, isClock]
      have constant : zone.constantAt constants (position + 1) =
          OrderedMap.find? clock constants := by
        simp [constantAt, isClock]
      by_cases isFar : zone.FarAt constants values (position + 1)
      · obtain ⟨-, greatest, isGreatest, above⟩ := id isFar
        exact .inr ⟨greatest, constant ▸ isGreatest,
          beyond _ (Finset.mem_filter.mpr ⟨isIndex, isFar⟩) greatest isGreatest, value ▸ above⟩
      · exact .inl ((same _ (Finset.mem_filter.mpr ⟨isIndex, isFar⟩)).trans value)

theorem Canonical.exists_similar (canonical : zone.Canonical) (nonNegative : zone.NonNegative)
    (nodup : zone.clocks.Nodup) (regular : RegularConstants constants)
    (mildly : (zone.weakened constants).CanonizesMildly) {valuation : ClockValuation}
    (contains : (zone.extrapolate constants).Contains valuation) :
    ∃ original, zone.Contains original ∧
      ∀ clock, original.Similar constants valuation clock := by
  have square : (zone.weakened constants).Square := square_mapEntries ..
  rw [extrapolate_eq, Contains, clocks_canonize, admits_canonize_iff square mildly] at contains
  exact canonical.exists_similar_of_weakened nonNegative nodup regular contains

theorem nonNegative_origin (clocks : List VarDecl) : (origin clocks).NonNegative :=
  fun _ isIndex => by rw [limit_origin clocks (Nat.succ_pos _) isIndex]

theorem NonNegative.canonize (nonNegative : zone.NonNegative) (square : zone.Square)
    (mildly : zone.CanonizesMildly) : zone.canonize.NonNegative := by
  intro index isIndex
  rw [dimension_canonize] at isIndex
  exact ((relaxed_canonize square mildly).1.subset (Nat.succ_pos _) isIndex).trans
    (nonNegative index isIndex)

/-- Clocks do not become negative unless they are set to negative values. -/
theorem NonNegative.changed (nonNegative : zone.NonNegative) (mild : zone.Mild)
    {operation : ClockOperation} (moderate : operation.Moderate)
    (tracked : operation.clocks ⊆ zone.clocks)
    (forward : ∀ clock value, operation = .reset clock value → 0 ≤ value) :
    (zone.changed operation).NonNegative := by
  intro index isIndex
  have isZero : 0 < zone.dimension := Nat.succ_pos _
  rw [dimension, clocks_changed] at isIndex
  cases operation with
  | guard constraint | invariant constraint =>
      exact (constrain_subset mild tracked isZero isIndex).trans
        (nonNegative index isIndex)
  | reset clock value =>
      obtain ⟨place, found⟩ := exists_indexOf? (tracked List.mem_cons_self)
      obtain ⟨position, rfl, -⟩ := indexOf?_eq_some found
      rw [Zone.changed, limit_reset mild moderate found isZero isIndex,
        if_neg fun both => Nat.succ_ne_zero _ both.1.symm, if_neg (Nat.succ_ne_zero _).symm]
      split
      · have natural : -(value : ℚ) ≤ 0 := by
          exact_mod_cast Int.neg_nonpos_of_nonneg (forward _ _ rfl)
        rintro _ ⟨first, isFirst, second, isSecond, rfl⟩
        have isFirst : first ≤ 0 := nonNegative 0 isZero isFirst
        have isSecond : second ≤ -(value : ℚ) := isSecond
        show first + second ≤ 0
        linarith
      · exact nonNegative index isIndex
  | delay =>
      rw [Zone.changed, limit_up isZero isIndex, if_neg fun both => both.2 rfl]
      exact nonNegative index isIndex

/-- The clocks of a zone stay non-negative while operations are applied to it. -/
theorem NonNegative.applyAll (nonNegative : zone.NonNegative) (canonical : zone.Canonical)
    {operations : List ClockOperation}
    (moderate : ∀ operation ∈ operations, operation.Moderate)
    (tracked : ∀ operation ∈ operations, operation.clocks ⊆ zone.clocks)
    (forward : ∀ clock value, .reset clock value ∈ operations → 0 ≤ value)
    (mildly : zone.AppliesMildly operations) {result : Zone}
    (applied : ZoneState.applyAll zone operations = some result) : result.NonNegative := by
  induction operations generalizing zone with
  | nil =>
      cases applied
      exact nonNegative
  | cons operation operations ih =>
      obtain ⟨isModerate, moderate⟩ := List.forall_mem_cons.mp moderate
      obtain ⟨isTracked, tracked⟩ := List.forall_mem_cons.mp tracked
      obtain ⟨canonizes, mildly⟩ := mildly
      rw [ZoneState.applyAll] at applied
      cases nonempty : (zone.apply operation).isEmpty with
      | true =>
          rw [nonempty] at applied
          cases applied
      | false =>
          rw [nonempty] at applied
          have nonNegative' : (zone.apply operation).NonNegative := by
            rw [apply_eq]
            exact (nonNegative.changed canonical.mild isModerate isTracked fun clock value same =>
              forward clock value (same ▸ List.mem_cons_self)).canonize
                (square_changed canonical.square operation) canonizes
          exact ih nonNegative' (canonical.apply isModerate isTracked canonizes nonempty) moderate
            (by rwa [clocks_apply])
            (fun clock value member => forward clock value (List.mem_cons_of_mem _ member))
            (mildly nonempty) applied

@[simp] theorem clocks_extrapolate (zone : Zone) (constants : ClockConstants) :
    (zone.extrapolate constants).clocks = zone.clocks := by
  rw [extrapolate_eq, clocks_canonize]
  rfl

theorem Canonical.extrapolate (canonical : zone.Canonical) (regular : RegularConstants constants)
    (mildly : (zone.weakened constants).CanonizesMildly)
    (nonempty : (zone.extrapolate constants).isEmpty = false) :
    (zone.extrapolate constants).Canonical := by
  rw [extrapolate_eq] at nonempty ⊢
  exact canonical_canonize (square_mapEntries ..) mildly (fun index isIndex =>
    limit_weakened_nonpositive regular isIndex isIndex (canonical.diagonal isIndex)) nonempty

theorem NonNegative.extrapolate (nonNegative : zone.NonNegative)
    (regular : RegularConstants constants) (mildly : (zone.weakened constants).CanonizesMildly) :
    (zone.extrapolate constants).NonNegative := by
  have weakened : (zone.weakened constants).NonNegative := fun index isIndex =>
    limit_weakened_nonpositive regular (Nat.succ_pos _) isIndex (nonNegative index isIndex)
  rw [extrapolate_eq]
  exact weakened.canonize (square_mapEntries ..) mildly

theorem le_weakenedBound {bound : Bound} (upper lower : Option Int) (row column : Nat)
    (limited : bound ≤ .infinity) : bound ≤ weakenedBound upper lower row column bound := by
  unfold weakenedBound
  split
  · exact Int.le_refl _
  · split
    · exact limited
    · split
      · split
        case isTrue weaker => exact Int.le_of_lt weaker.2
        case isFalse => exact Int.le_refl _
      · exact Int.le_refl _

/-- The weakened bounds admit all valuations in the zone. -/
theorem Contains.weakened {valuation : ClockValuation} (contains : zone.Contains valuation)
    (mild : zone.Mild) (constants : ClockConstants) :
    (zone.weakened constants).Contains valuation := by
  intro row isRow column isColumn
  have isRow' : row < zone.dimension := Finset.mem_range.mp isRow
  have isColumn' : column < zone.dimension := Finset.mem_range.mp isColumn
  have bounded := mild row isRow' column isColumn'
  have subset : zone.system.limit row column ⊆
      (zone.weakened constants).system.limit row column := by
    show _ ⊆ ((zone.weakened constants).get row column).differences
    rw [Zone.weakened, get_mapEntries _ isRow' isColumn']
    exact Bound.differences_subset (le_weakenedBound _ _ row column bounded.le_infinity)
      (weakenedBound_le_infinity _ _ row column bounded)
  exact subset (contains row isRow column isColumn)

theorem Within.weakened {limit : Nat} (within : zone.Within limit) (small : limit < 2 ^ 59)
    (far : ∀ clock ∈ zone.clocks, ∀ greatest, OrderedMap.find? clock constants = some greatest →
      -(limit : Int) ≤ greatest ∧ greatest ≤ limit) : (zone.weakened constants).Within limit := by
  intro row isRow column isColumn
  have isRow' : row < zone.dimension := isRow
  have isColumn' : column < zone.dimension := isColumn
  have kept := within row isRow' column isColumn'
  rw [Zone.weakened, get_mapEntries _ isRow' isColumn']
  unfold weakenedBound
  split
  · exact kept
  · split
    · exact .inl rfl
    · split
      case h_1 greatest found =>
        split
        case isTrue weaker =>
          have bounded : -(limit : Int) ≤ greatest ∧ greatest ≤ limit := by
            cases column with
            | zero => exact absurd rfl weaker.1
            | succ position =>
                obtain ⟨clock, tracked, found⟩ := Option.bind_eq_some_iff.mp found
                exact far clock (List.mem_of_getElem? tracked) greatest found
          have opposite : FarFromOverflow (-greatest) := by
            unfold FarFromOverflow
            omega
          rw [Bound.below_eq opposite]
          right
          dsimp only [Bound.constant]
          omega
        case isFalse => exact kept
      case h_2 => exact kept

theorem Contains.neg_le {valuation : ClockValuation} (contains : zone.Contains valuation)
    {floor : ℚ} (bounded : ∀ index < zone.dimension, zone.system.limit 0 index ⊆ Set.Iic floor)
    {clock : VarDecl} (tracked : clock ∈ zone.clocks) : -floor ≤ valuation clock := by
  obtain ⟨position, inside, same⟩ := List.getElem_of_mem tracked
  have isIndex : position + 1 < zone.dimension := Nat.succ_lt_succ inside
  have allowed : 0 - valuesOf zone.clocks valuation (position + 1) ≤ floor :=
    bounded _ isIndex (contains 0 (Finset.mem_range.mpr (Nat.succ_pos _)) _
      (Finset.mem_range.mpr isIndex))
  have value : valuesOf zone.clocks valuation (position + 1) = valuation clock := by
    simp [valuesOf, List.getElem?_eq_getElem inside, same]
  linarith

/-- The lower bounds do so exactly if all valuations in the zone do. -/
theorem Canonical.limit_zero_subset_iff (canonical : zone.Canonical) (nodup : zone.clocks.Nodup)
    {floor : ℚ} (natural : 0 ≤ floor) :
    (∀ index < zone.dimension, zone.system.limit 0 index ⊆ Set.Iic floor) ↔
      ∀ valuation, zone.Contains valuation → ∀ clock ∈ zone.clocks, -floor ≤ valuation clock := by
  have isZero : 0 < zone.dimension := Nat.succ_pos _
  constructor
  · exact fun bounded valuation contains clock tracked => contains.neg_le bounded tracked
  · intro bounded index isIndex
    apply canonical.closed.limit_subset (fun _ => canonical.diagonal) isZero isIndex
      (isLowerSet_Iic floor)
    intro solution solves
    apply difference_mem_of_contains nodup isZero isIndex _ solves
    intro valuation contains
    show 0 - valuesOf zone.clocks valuation index ≤ floor
    cases index with
    | zero => simpa [valuesOf] using natural
    | succ position =>
        have inside : position < zone.clocks.length := Nat.lt_of_succ_lt_succ isIndex
        have above := bounded valuation contains _ (List.getElem_mem inside)
        simp only [valuesOf, List.getElem?_eq_getElem inside, Option.map_some, Option.getD_some]
        linarith

theorem Canonical.nonNegative_iff (canonical : zone.Canonical) (nodup : zone.clocks.Nodup) :
    zone.NonNegative ↔
      ∀ valuation, zone.Contains valuation → ∀ clock ∈ zone.clocks, 0 ≤ valuation clock := by
  have atZero := canonical.limit_zero_subset_iff nodup le_rfl
  rwa [neg_zero] at atZero

/-- Extrapolation loses no valuation, and a valuation that it adds is similar to one in the
zone: every clock has the same value in both, or is above its greatest constant in both. -/
theorem Canonical.extrapolate_sound {limit : Nat} (canonical : zone.Canonical)
    (nodup : zone.clocks.Nodup) (within : zone.Within limit)
    (natural : ∀ valuation, zone.Contains valuation →
      ∀ clock ∈ zone.clocks, 0 ≤ valuation clock)
    (far : ∀ clock greatest, OrderedMap.find? clock constants = some greatest →
      0 ≤ greatest ∧ greatest ≤ limit)
    (small : zone.dimension * limit < 2 ^ 59) :
    (∀ valuation, zone.Contains valuation → (zone.extrapolate constants).Contains valuation) ∧
      ∀ valuation, (zone.extrapolate constants).Contains valuation →
        ∃ original, zone.Contains original ∧
          ∀ clock, original.Similar constants valuation clock := by
  have lt := limit_lt_of_small small
  have regular : RegularConstants constants := fun clock greatest found => by
    obtain ⟨lower, upper⟩ := far clock greatest found
    unfold FarFromOverflow
    omega
  have same (valuation : ClockValuation) : (zone.extrapolate constants).Contains valuation ↔
      (zone.weakened constants).Contains valuation := by
    rw [extrapolate_eq]
    refine (within.weakened lt fun clock _ greatest found => ?_).contains_canonize_iff
      (square_mapEntries ..) small
    obtain ⟨lower, upper⟩ := far clock greatest found
    omega
  constructor
  · intro valuation contains
    exact (same valuation).mpr (contains.weakened canonical.mild constants)
  · intro valuation contains
    exact canonical.exists_similar_of_weakened ((canonical.nonNegative_iff nodup).mpr natural)
      nodup regular ((same valuation).mp contains)

def banquet : Zone :=
  (origin guestClocks).apply (.reset ⟨"arrived", .rat⟩ 7)

/-- Only the first three hours matter, so longer visits are similar. -/
theorem banquet_extrapolate_sound : banquet.Canonical ∧
    (∀ valuation, banquet.Contains valuation →
      (banquet.extrapolate [(⟨"arrived", .rat⟩, 3)]).Contains valuation) ∧
    ∀ valuation, (banquet.extrapolate [(⟨"arrived", .rat⟩, 3)]).Contains valuation →
      ∃ original, banquet.Contains original ∧
        ∀ clock, original.Similar [(⟨"arrived", .rat⟩, 3)] valuation clock := by
  have start := canonical_origin guestClocks
  have moderate : (ClockOperation.reset ⟨"arrived", .rat⟩ 7).Moderate := by decide
  have tracked : (ClockOperation.reset ⟨"arrived", .rat⟩ 7).clocks ⊆ guestClocks := by decide
  have mildly : ((origin guestClocks).changed (.reset ⟨"arrived", .rat⟩ 7)).CanonizesMildly := by
    decide +kernel
  have canonical : banquet.Canonical := start.apply moderate tracked mildly (by decide +kernel)
  have nonNegative : banquet.NonNegative := by
    have changed := (nonNegative_origin guestClocks).changed start.mild moderate tracked fun
      | _, _, rfl => by decide
    rw [banquet, apply_eq]
    exact changed.canonize (square_changed start.square _) mildly
  have nodup : banquet.clocks.Nodup := by decide +kernel
  have within : banquet.Within 7 := by decide +kernel
  refine ⟨canonical, canonical.extrapolate_sound nodup within
    ((canonical.nonNegative_iff nodup).mp nonNegative) ?_ (by decide)⟩
  intro clock greatest found
  have three : greatest = 3 := by
    simp only [OrderedMap.find?] at found
    split at found <;> simp_all
  simp [three]

end Zone

end AbstractionRefinement
