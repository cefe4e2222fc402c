import Mathlib.Data.Fintype.BigOperators
import Mathlib.Data.Set.Card
import AbstractionRefinement.Proofs.ZoneInclusion

/-!
# Extrapolation makes zones finite

Extrapolation weakens every bound to one whose constant is at most the greatest one that matters,
except that an upper bound keeps a constant that is lower, and a lower bound keeps one that the
clocks cannot fall below.  The canonical form then sums such bounds along walks that visit no
clock twice.  So of all the zones over some clocks only finitely many are left, however large the
constants were before.
-/

namespace AbstractionRefinement

namespace DifferenceSystem

variable {base after : DifferenceSystem} {dimension first second : Nat} {size : ℚ}

section Walks

variable (relaxed : Relaxed dimension (rounds dimension dimension) base after)
  (zero_mem : ∀ index < dimension, (0 : ℚ) ∈ after.limit index index)
  (isFirst : first < dimension) (isSecond : second < dimension)

include relaxed zero_mem isFirst isSecond

/-- Every limit is that of a walk that does not come back to where it starts. -/
theorem Relaxed.exists_walk_avoiding : ∃ between : List Nat, (first :: between).Nodup ∧
    (∀ via ∈ between, via < dimension) ∧
      after.limit first second = base.walk first between second := by
  obtain ⟨between, nodup, inside, same⟩ :=
    relaxed.exists_walk_eq le_rfl zero_mem isFirst isSecond
  by_cases passes : first ∈ between
  · obtain ⟨before, rest, rfl⟩ := List.append_of_mem passes
    have below := relaxed.below_rounds
    obtain ⟨nodupBefore, nodupRest, -⟩ := List.nodup_append.mp nodup
    have insideRest : ∀ via ∈ rest, via < dimension := fun via member =>
      inside via (by simp [member])
    -- The walk back to the start allows zero, so leaving it out allows no more.
    have cycle : (0 : ℚ) ∈ base.walk first before first :=
      below first isFirst first isFirst before nodupBefore
        (fun via member => inside via (by simp [member])) (zero_mem first isFirst)
    refine ⟨rest, nodupRest, insideRest, subset_antisymm ?_ ?_⟩
    · exact below first isFirst second isSecond rest nodupRest.of_cons insideRest
    · rw [same, walk_append]
      exact Set.subset_add_right _ cycle
  · exact ⟨between, List.nodup_cons.mpr ⟨passes, nodup⟩, inside, same⟩

theorem Relaxed.spans_dimension (natural : 0 ≤ size)
    (spans : ∀ first < dimension, ∀ second < dimension, Spans size (base.limit first second)) :
    Spans (dimension * size) (after.limit first second) := by
  obtain ⟨between, nodup, inside, same⟩ :=
    relaxed.exists_walk_avoiding zero_mem isFirst isSecond
  have length : ((between.length + 1 : Nat) : ℚ) ≤ dimension := by
    exact_mod_cast length_le_of_nodup nodup (List.forall_mem_cons.mpr ⟨isFirst, inside⟩)
  rw [same]
  apply (spans_walk spans isFirst isSecond inside).mono
  push_cast at length
  gcongr

end Walks

end DifferenceSystem

namespace Bound

variable {bound : Bound} {number : Int}

theorem constant_le_of_subset (subset : bound.differences ⊆ Set.Iic (number : ℚ)) :
    bound ≠ infinity ∧ bound.constant ≤ number := by
  have finite : bound ≠ infinity := by
    rintro rfl
    have beyond : (number : ℚ) + 1 ≤ number := subset (Set.mem_univ ((number : ℚ) + 1))
    linarith
  refine ⟨finite, ?_⟩
  rw [differences_of_finite finite] at subset
  split at subset
  · exact_mod_cast Set.Iio_subset_Iic_iff.mp subset
  · exact_mod_cast Set.Iic_subset_Iic.mp subset

theorem le_constant_of_mem {difference : ℚ} (member : difference ∈ bound.differences)
    (above : (number : ℚ) ≤ difference) (finite : bound ≠ infinity) :
    number ≤ bound.constant := by
  rw [differences_of_finite finite] at member
  have below : difference ≤ ((bound.code / 2 : Int) : ℚ) := by
    split at member
    · exact le_of_lt member
    · exact member
  exact_mod_cast above.trans below

end Bound

namespace Zone

variable {zone : Zone} {constants : ClockConstants} {greatest floor : Nat}

/-- Every one of the clocks has a constant of at most the given size. -/
def HasConstants (greatest : Nat) (constants : ClockConstants) (clocks : List VarDecl) : Prop :=
  ∀ clock ∈ clocks, ∃ constant : Nat, constant ≤ greatest ∧
    OrderedMap.find? clock constants = some (constant : Int)

theorem HasConstants.constantAt (has : HasConstants greatest constants zone.clocks) {index : Nat}
    (isIndex : index < zone.dimension) : ∃ constant : Nat, constant ≤ greatest ∧
      zone.constantAt constants index = some (constant : Int) := by
  cases index with
  | zero => exact ⟨0, Nat.zero_le _, rfl⟩
  | succ position =>
      have inside : position < zone.clocks.length := Nat.lt_of_succ_lt_succ isIndex
      obtain ⟨constant, le, found⟩ := has _ (List.getElem_mem inside)
      refine ⟨constant, le, ?_⟩
      rw [Zone.constantAt, List.getElem?_eq_getElem inside]
      exact found

/-- A limit outside the diagonal is kept between the constants, dropped above that of its row, or
weakened to that of its column. -/
theorem weakenedBound_cases {upper lower row column : Nat} {bound : Bound}
    (farUpper : FarFromOverflow upper) (farLower : FarFromOverflow lower)
    (differ : row ≠ column) :
    (weakenedBound (some upper) (some lower) row column bound = bound ∧
      (bound = .infinity ∨ (row ≠ 0 → bound.constant ≤ upper) ∧
        (column ≠ 0 → -(lower : Int) ≤ bound.constant))) ∨
      (weakenedBound (some upper) (some lower) row column bound = .infinity ∧ row ≠ 0) ∨
      (weakenedBound (some upper) (some lower) row column bound = .below (-lower) ∧
        column ≠ 0) := by
  unfold weakenedBound
  by_cases infinite : bound = .infinity
  · rw [if_pos (.inr (Bound.isInfinite_iff.mpr infinite))]
    exact .inl ⟨rfl, .inl infinite⟩
  rw [if_neg (not_or.mpr ⟨differ, mt Bound.isInfinite_iff.mp infinite⟩)]
  simp only [Option.any_some, Bool.and_eq_true, decide_eq_true_iff]
  rw [Bound.atMost_eq farUpper, Bound.below_eq farLower.neg]
  have less (first second : Bound) : first < second ↔ first.code < second.code := Iff.rfl
  simp only [less]
  unfold Bound.constant
  split
  case isTrue exceeds => exact .inr (.inl ⟨rfl, exceeds.1⟩)
  case isFalse =>
    split
    case isTrue weaker => exact .inr (.inr ⟨rfl, weaker.1⟩)
    case isFalse => exact .inl ⟨rfl, .inr ⟨fun _ => by omega, fun _ => by omega⟩⟩

section Above

variable (canonical : zone.Canonical) (nodup : zone.clocks.Nodup)
  (above : ∀ valuation, zone.Contains valuation →
    ∀ clock ∈ zone.clocks, -(floor : ℚ) ≤ valuation clock)

include canonical nodup above

theorem Canonical.neg_floor_le_constant {row : Nat} (isRow : row < zone.dimension)
    (isClock : row ≠ 0) (finite : zone.get row 0 ≠ .infinity) :
    -(floor : Int) ≤ (zone.get row 0).constant := by
  have isZero : 0 < zone.dimension := Nat.succ_pos _
  obtain ⟨valuation, contains⟩ := exists_contains_of_closed canonical.closed nodup
  have allowed := contains row (Finset.mem_range.mpr isRow) 0 (Finset.mem_range.mpr isZero)
  refine Bound.le_constant_of_mem allowed ?_ finite
  obtain ⟨position, rfl⟩ := Nat.exists_eq_succ_of_ne_zero isClock
  have inside : position < zone.clocks.length := Nat.lt_of_succ_lt_succ isRow
  have isAbove := above valuation contains _ (List.getElem_mem inside)
  simpa [valuesOf, List.getElem?_eq_getElem inside] using isAbove

theorem Canonical.constant_le_floor {column : Nat} (isColumn : column < zone.dimension) :
    (zone.get 0 column).constant ≤ floor := by
  have bounded := (canonical.limit_zero_subset_iff nodup (Nat.cast_nonneg floor)).mpr above
  exact (Bound.constant_le_of_subset (by exact_mod_cast bounded column isColumn)).2

/-- The constants of the weakened bounds are small, however large those of the zone are. -/
theorem Canonical.within_weakened (has : HasConstants greatest constants zone.clocks)
    (small : greatest < 2 ^ 59) : (zone.weakened constants).Within (max greatest floor) := by
  intro row isRow column isColumn
  have isRow : row < zone.dimension := isRow
  have isColumn : column < zone.dimension := isColumn
  rw [Zone.weakened, get_mapEntries _ isRow isColumn]
  by_cases differ : row = column
  · subst differ
    unfold weakenedBound
    rw [if_pos (.inl rfl)]
    have subset : (zone.get row row).differences ⊆ Set.Iic ((0 : Int) : ℚ) := by
      exact_mod_cast canonical.diagonal isRow
    obtain ⟨finite, lower⟩ := Bound.constant_le_of_subset subset
    have upper : 0 ≤ (zone.get row row).constant :=
      Bound.le_constant_of_mem (canonical.closed.zero_mem isRow) (by simp) finite
    right
    omega
  obtain ⟨upper, upper_le, foundUpper⟩ := has.constantAt isRow
  obtain ⟨lower, lower_le, foundLower⟩ := has.constantAt isColumn
  have farUpper : FarFromOverflow upper := by
    unfold FarFromOverflow
    omega
  have farLower : FarFromOverflow lower := by
    unfold FarFromOverflow
    omega
  rw [foundUpper, foundLower]
  rcases weakenedBound_cases farUpper farLower differ with
    ⟨kept, between⟩ | ⟨dropped, -⟩ | ⟨weaker, -⟩
  · rw [kept]
    refine Classical.or_iff_not_imp_left.mpr fun finite => ?_
    obtain ⟨belowUpper, aboveLower⟩ := between.resolve_left finite
    -- The limits of single clocks are between the constants on one side only.
    have least : column = 0 → -(floor : Int) ≤ (zone.get row column).constant := by
      rintro rfl
      exact canonical.neg_floor_le_constant nodup above isRow differ finite
    have most : row = 0 → (zone.get row column).constant ≤ floor := by
      rintro rfl
      exact canonical.constant_le_floor nodup above isColumn
    omega
  · exact .inl dropped
  · rw [weaker, Bound.below_eq farLower.neg]
    right
    unfold Bound.constant
    dsimp only
    omega

end Above

/-- Weakening lets no clock fall below the floor. -/
theorem limit_zero_weakened (has : HasConstants greatest constants zone.clocks)
    (small : greatest < 2 ^ 59)
    (bounded : ∀ index < zone.dimension, zone.system.limit 0 index ⊆ Set.Iic (floor : ℚ)) :
    ∀ index < zone.dimension,
      (zone.weakened constants).system.limit 0 index ⊆ Set.Iic (floor : ℚ) := by
  intro index isIndex
  have isZero : 0 < zone.dimension := Nat.succ_pos _
  show ((zone.weakened constants).get 0 index).differences ⊆ _
  rw [Zone.weakened, get_mapEntries _ isZero isIndex]
  by_cases differ : 0 = index
  · subst differ
    unfold weakenedBound
    rw [if_pos (.inl rfl)]
    exact bounded 0 isZero
  obtain ⟨lower, lower_le, found⟩ := has.constantAt isIndex
  have farUpper : FarFromOverflow (0 : Nat) := by decide
  have farLower : FarFromOverflow lower := by
    unfold FarFromOverflow
    omega
  have foundZero : zone.constantAt constants 0 = some ((0 : Nat) : Int) := rfl
  rw [foundZero, found]
  rcases weakenedBound_cases farUpper farLower differ with
    ⟨kept, -⟩ | ⟨-, isClock⟩ | ⟨weaker, -⟩
  · rw [kept]
    exact bounded index isIndex
  · exact absurd rfl isClock
  · rw [weaker, Bound.differences_below farLower.neg]
    refine Set.Iio_subset_Iic ?_
    have natural : (0 : ℚ) ≤ floor := Nat.cast_nonneg floor
    have negative : (((-(lower : Int)) : Int) : ℚ) ≤ 0 := by exact_mod_cast (by omega)
    exact negative.trans natural

/-- Constants in the canonical form are larger by at most the number of rows. -/
theorem Within.canonize_dimension {limit : Nat} (within : zone.Within limit) (square : zone.Square)
    (small : zone.dimension * limit < 2 ^ 59) (nonempty : zone.canonize.isEmpty = false) :
    zone.canonize.Within (zone.dimension * limit) := by
  have representable := within.representable small
  have fits := within.sumsFit square representable (small.trans (by decide))
  obtain ⟨relaxed, -⟩ := relaxed_canonize_of_sumsFit square representable fits nonempty
  rw [isEmpty_eq_false_iff_zero_mem, dimension_canonize] at nonempty
  rw [within_iff_spans, dimension_canonize]
  intro row isRow column isColumn
  push_cast
  exact relaxed.spans_dimension nonempty isRow isColumn (Nat.cast_nonneg limit)
    (within_iff_spans.mp within)

/-- A canonical zone with clocks above a floor. -/
structure Floored (floor : Nat) (clocks : List VarDecl) (zone : Zone) : Prop
    extends zone.Canonical where
  clocks_eq : zone.clocks = clocks
  above (valuation : ClockValuation) : zone.Contains valuation →
    ∀ clock ∈ clocks, -(floor : ℚ) ≤ valuation clock

/-- The extrapolation of a canonical zone is a canonical zone with small constants, and with the
floor that the clocks had before. -/
theorem Floored.extrapolate {clocks : List VarDecl} (floored : Floored floor clocks zone)
    (nodup : clocks.Nodup) (has : HasConstants greatest constants clocks)
    (small : (clocks.length + 1) * max greatest floor < 2 ^ 59) :
    Floored floor clocks (zone.extrapolate constants) ∧
      (zone.extrapolate constants).Within ((clocks.length + 1) * max greatest floor) := by
  obtain ⟨canonical, rfl, above⟩ := floored
  have small : (zone.weakened constants).dimension * max greatest floor < 2 ^ 59 := small
  have square : (zone.weakened constants).Square := square_mapEntries ..
  have lt : greatest < 2 ^ 59 := (le_max_left ..).trans_lt (limit_lt_of_small small)
  have within := canonical.within_weakened nodup above has lt
  have same (valuation : ClockValuation) : (zone.extrapolate constants).Contains valuation ↔
      (zone.weakened constants).Contains valuation := by
    rw [extrapolate_eq]
    exact within.contains_canonize_iff square small
  obtain ⟨valuation, contains⟩ := exists_contains_of_closed canonical.closed nodup
  have nonempty : (zone.extrapolate constants).isEmpty = false :=
    ((same valuation).mpr (contains.weakened canonical.mild constants)).nonempty
  have bounded := limit_zero_weakened has lt
    ((canonical.limit_zero_subset_iff nodup (Nat.cast_nonneg floor)).mpr above)
  have isCanonical := canonical.extrapolate_of_within within small nonempty
  refine ⟨⟨isCanonical, clocks_extrapolate .., fun valuation contains clock tracked => ?_⟩, ?_⟩
  · exact ((same valuation).mp contains).neg_le bounded tracked
  · rw [extrapolate_eq] at nonempty ⊢
    exact within.canonize_dimension square small nonempty

end Zone

namespace ClockOperation

/-- The operation resets no clock to a value below the floor. -/
def ResetsAbove (floor : Nat) : ClockOperation → Prop
  | reset _ value => -(floor : Int) ≤ value
  | guard _ | invariant _ | delay => True

instance (floor : Nat) (operation : ClockOperation) : Decidable (operation.ResetsAbove floor) :=
  match operation with
  | reset _ value => inferInstanceAs (Decidable (-(floor : Int) ≤ value))
  | guard _ | invariant _ | delay => inferInstanceAs (Decidable True)

/-- Clocks that are not reset to values below the floor stay above it. -/
theorem Yields.above {operation : ClockOperation} {clocks : List VarDecl}
    {before after : ClockValuation} {floor : Nat} (yields : operation.Yields clocks before after)
    (resets : operation.ResetsAbove floor)
    (above : ∀ clock ∈ clocks, -(floor : ℚ) ≤ before clock) :
    ∀ clock ∈ clocks, -(floor : ℚ) ≤ after clock := by
  by_cases tracked : operation.clocks ⊆ clocks
  · cases (yields_iff_leads tracked).mp yields with
    | guard | invariant => exact above
    | reset clock value =>
        intro other isOther
        by_cases same : other = clock
        · rw [same, Function.update_self]
          exact_mod_cast (resets : -(floor : Int) ≤ value)
        · rw [Function.update_of_ne same]
          exact above other isOther
    | delay _ elapses =>
        intro other isOther
        have isAbove := above other isOther
        show _ ≤ before other + _
        linarith
  · rwa [(yields_iff_eq tracked).mp yields]

end ClockOperation

namespace Zone

variable {zone result : Zone} {limit floor : Nat} {operations : List ClockOperation}

/-- The constants on the way are within the limit, and clocks are not reset to values below the
floor. -/
def RunsAbove (limit floor : Nat) (zone : Zone) (operations : List ClockOperation) : Prop :=
  zone.RunsWithin limit operations ∧ ∀ operation ∈ operations, operation.ResetsAbove floor

instance (limit floor : Nat) (operations : List ClockOperation) :
    Decidable (zone.RunsAbove limit floor operations) :=
  inferInstanceAs (Decidable (_ ∧ _))

theorem Floored.applyAll {clocks : List VarDecl} (floored : Floored floor clocks zone)
    (nodup : clocks.Nodup) (small : (clocks.length + 1) * limit < 2 ^ 58)
    (runs : zone.RunsAbove limit floor operations)
    (applied : ZoneState.applyAll zone operations = some result) :
    Floored floor clocks result := by
  obtain ⟨canonical, rfl, above⟩ := floored
  obtain ⟨runs, resets⟩ := runs
  obtain ⟨canonical', same, -, above'⟩ := canonical.applyAll_within nodup small runs applied
    (fun valuation => ∀ clock ∈ zone.clocks, -(floor : ℚ) ≤ valuation clock) above
    fun operation member _ _ isAbove yields => yields.above (resets operation member) isAbove
  exact ⟨canonical', same, above'⟩

theorem floored_origin (floor : Nat) (clocks : List VarDecl) :
    Floored floor clocks (origin clocks) where
  toCanonical := canonical_origin clocks
  clocks_eq := rfl
  above valuation contains clock tracked := by
    rw [contains_origin_iff.mp contains clock tracked]
    exact neg_nonpos.mpr (Nat.cast_nonneg floor)

end Zone

namespace ZoneState

variable {ω α : Type} [ClockAction α] {invariants : List ClockConstraint}
  {constants : Zone.ClockConstants} {tracked : ZonePrecision} {limit greatest floor : Nat}
  {state : ZoneState}

/-- Every zone that is reached is the initial one or has small constants. -/
theorem Reached.initial_or_within (nodup : tracked.clocks.Nodup)
    (has : Zone.HasConstants greatest constants tracked.clocks)
    (small : (tracked.clocks.length + 1) * limit < 2 ^ 58)
    (small' : (tracked.clocks.length + 1) * max greatest floor < 2 ^ 59)
    (reached : Reached ω α invariants constants tracked (Zone.RunsAbove limit floor) state) :
    state.Everywhere fun bounds => bounds.isEmpty = false ∧
      Zone.Floored floor tracked.clocks bounds ∧
        (bounds = initialZone invariants tracked ∨
          bounds.Within ((tracked.clocks.length + 1) * max greatest floor)) := by
  refine reached.everywhere (fun runs nonempty => ?_)
    fun _ ⟨floored, _⟩ runs applied _ => ?_
  · exact ⟨(Zone.floored_origin floor tracked.clocks).applyAll nodup small runs
      (applyAll_origin nonempty), .inl rfl⟩
  · obtain ⟨floored, within⟩ :=
      (floored.applyAll nodup small runs applied).extrapolate nodup has small'
    exact ⟨floored, .inr within⟩

end ZoneState

def Bound.upTo (limit : Nat) : Finset Bound :=
  insert infinity ((Finset.range (4 * limit + 2)).image fun offset : Nat =>
    ⟨(offset : Int) - 2 * limit⟩)

theorem Bound.Within.mem_upTo {bound : Bound} {limit : Nat} (within : bound.Within limit) :
    bound ∈ upTo limit := by
  rcases within with infinite | ⟨lower, upper⟩
  · exact Finset.mem_insert.mpr (.inl infinite)
  · unfold constant at lower upper
    refine Finset.mem_insert_of_mem (Finset.mem_image.mpr
      ⟨(bound.code + 2 * limit).toNat, Finset.mem_range.mpr (by omega), congrArg Bound.mk ?_⟩)
    omega

theorem Bound.card_upTo_le (limit : Nat) : (upTo limit).card ≤ 4 * limit + 3 := by
  refine (Finset.card_insert_le ..).trans (Nat.succ_le_succ ?_)
  exact Finset.card_image_le.trans (Finset.card_range _).le

namespace Zone

/-- The matrices over some clocks whose constants have at most the given size. -/
def upTo (clocks : List VarDecl) (limit : Nat) : Set Zone :=
  {zone | zone.Square ∧ zone.clocks = clocks ∧ zone.Within limit}

/-- There are only finitely many of them. -/
theorem finite_upTo (clocks : List VarDecl) (limit : Nat) : (upTo clocks limit).Finite ∧
    (upTo clocks limit).ncard ≤ (4 * limit + 3) ^ ((clocks.length + 1) ^ 2) := by
  let size := clocks.length + 1
  let entries (zone : Zone) (place : Fin size × Fin size) : Bound := zone.get place.1 place.2
  let tables := Fintype.piFinset fun _ : Fin size × Fin size => Bound.upTo limit
  have inside : ∀ zone ∈ upTo clocks limit, entries zone ∈ (tables : Set _) := by
    rintro zone ⟨-, rfl, within⟩
    exact Fintype.mem_piFinset.mpr fun place =>
      (within place.1 place.1.isLt place.2 place.2.isLt).mem_upTo
  have injective : Set.InjOn entries (upTo clocks limit) := by
    rintro zone ⟨square, rfl, -⟩ other ⟨square', sameClocks, -⟩ same
    refine square.ext square' sameClocks.symm fun row isRow column isColumn => ?_
    exact congrFun same (⟨row, isRow⟩, ⟨column, isColumn⟩)
  constructor
  · exact .of_injOn inside injective tables.finite_toSet
  · calc (upTo clocks limit).ncard
        ≤ (tables : Set _).ncard :=
          Set.ncard_le_ncard_of_injOn entries inside injective tables.finite_toSet
      _ = (Bound.upTo limit).card ^ (size ^ 2) := by
          rw [Set.ncard_coe_finset, Fintype.card_piFinset, Finset.prod_const, Finset.card_univ,
            Fintype.card_prod, Fintype.card_fin, sq]
      _ ≤ (4 * limit + 3) ^ (size ^ 2) := Nat.pow_le_pow_left (Bound.card_upTo_le limit) _

end Zone

namespace ZoneState

/-- The states with the initial zone and with zones of small constants. -/
def upTo (invariants : List ClockConstraint) (tracked : ZonePrecision) (limit : Nat) :
    Set ZoneState :=
  insert (zone (initialZone invariants tracked)) (zone '' Zone.upTo tracked.clocks limit)

theorem finite_upTo (invariants : List ClockConstraint) (tracked : ZonePrecision) (limit : Nat) :
    (upTo invariants tracked limit).Finite ∧ (upTo invariants tracked limit).ncard ≤
      (4 * limit + 3) ^ ((tracked.clocks.length + 1) ^ 2) + 1 := by
  obtain ⟨finite, few⟩ := Zone.finite_upTo tracked.clocks limit
  refine ⟨(finite.image zone).insert _, ?_⟩
  calc (upTo invariants tracked limit).ncard
      ≤ (zone '' Zone.upTo tracked.clocks limit).ncard + 1 := Set.ncard_insert_le ..
    _ ≤ (Zone.upTo tracked.clocks limit).ncard + 1 :=
        Nat.succ_le_succ (Set.ncard_image_le finite)
    _ ≤ _ := Nat.succ_le_succ few

end ZoneState

end AbstractionRefinement
