import AbstractionRefinement.Proofs.PackedBounds

/-!
# Clock operations on valuations

A valuation gives every clock a rational value.  Guards and invariants let a valuation pass,
resets change one value, and a delay adds to all of them.  The zone that a clock operation
makes of a canonical zone contains only what the operation makes of the valuations in it,
as long as its constants are far from overflow and its clocks are tracked.
-/

namespace AbstractionRefinement

open scoped Pointwise

/-- The values of the clocks. -/
abbrev ClockValuation := VarDecl → ℚ

namespace ClockValuation

/-- The value of a side of a constraint. -/
def side (valuation : ClockValuation) : Option VarDecl → ℚ
  | none => 0
  | some clock => valuation clock

/-- The valuation after some time. -/
def elapse (valuation : ClockValuation) (delay : ℚ) : ClockValuation :=
  fun clock => valuation clock + delay

end ClockValuation

/-- The difference of the sides is within the bound. -/
def ClockConstraint.Holds (constraint : ClockConstraint) (valuation : ClockValuation) : Prop :=
  let difference := valuation.side constraint.left - valuation.side constraint.right
  if constraint.strict then difference < constraint.bound else difference ≤ constraint.bound

/-- A constant of at most `10 ^ 18` in absolute value. -/
def FarFromOverflow (constant : Int) : Prop :=
  -1000000000000000000 ≤ constant ∧ constant ≤ 1000000000000000000

instance (constant : Int) : Decidable (FarFromOverflow constant) :=
  inferInstanceAs (Decidable (_ ∧ _))

namespace ClockOperation

/-- The operation leads from one valuation to another one. -/
inductive Leads : ClockOperation → ClockValuation → ClockValuation → Prop where
  | guard {constraint : ClockConstraint} {valuation : ClockValuation}
      (holds : constraint.Holds valuation) : Leads (.guard constraint) valuation valuation
  | reset (clock : VarDecl) (value : Int) (valuation : ClockValuation) :
      Leads (.reset clock value) valuation (Function.update valuation clock value)
  | delay {delay : ℚ} (valuation : ClockValuation) (elapses : 0 ≤ delay) :
      Leads .delay valuation (valuation.elapse delay)
  | invariant {constraint : ClockConstraint} {valuation : ClockValuation}
      (holds : constraint.Holds valuation) : Leads (.invariant constraint) valuation valuation

/-- Operations lead from one valuation to another one, one after the other. -/
inductive LeadThrough : List ClockOperation → ClockValuation → ClockValuation → Prop where
  | nil (valuation : ClockValuation) : LeadThrough [] valuation valuation
  | cons {operation : ClockOperation} {operations : List ClockOperation}
      {before middle after : ClockValuation} (first : operation.Leads before middle)
      (rest : LeadThrough operations middle after) :
      LeadThrough (operation :: operations) before after

theorem leadThrough_append_iff {first second : List ClockOperation}
    {before after : ClockValuation} : LeadThrough (first ++ second) before after ↔
      ∃ middle, LeadThrough first before middle ∧ LeadThrough second middle after := by
  constructor
  · intro leads
    induction first generalizing before with
    | nil => exact ⟨before, .nil before, leads⟩
    | cons operation first ih =>
        cases leads with
        | cons step rest =>
            obtain ⟨middle, early, late⟩ := ih rest
            exact ⟨middle, .cons step early, late⟩
  · rintro ⟨middle, early, late⟩
    induction early with
    | nil => exact late
    | cons step _ ih => exact .cons step (ih late)

/-- Invariants let a valuation pass that satisfies all of them. -/
theorem leadThrough_invariants_iff {constraints : List ClockConstraint}
    {before after : ClockValuation} :
    LeadThrough (constraints.map .invariant) before after ↔
      before = after ∧ ∀ constraint ∈ constraints, constraint.Holds before := by
  induction constraints generalizing before with
  | nil =>
      constructor
      · rintro ⟨⟩
        exact ⟨rfl, by simp⟩
      · rintro ⟨rfl, -⟩
        exact .nil before
  | cons constraint constraints ih =>
      rw [List.map_cons, List.forall_mem_cons]
      constructor
      · rintro (_ | ⟨⟨⟩ | ⟨⟩ | ⟨⟩ | ⟨holds⟩, rest⟩)
        obtain ⟨same, all⟩ := ih.mp rest
        exact ⟨same, holds, all⟩
      · rintro ⟨rfl, holds, all⟩
        exact .cons (.invariant holds) (ih.mpr ⟨rfl, all⟩)

/-- The clocks of an operation. -/
def clocks : ClockOperation → List VarDecl
  | .guard constraint | .invariant constraint => constraint.clocks
  | .reset clock _ => [clock]
  | .delay => []

/-- The constant of the operation is far from overflow. -/
def Moderate : ClockOperation → Prop
  | .guard constraint | .invariant constraint => FarFromOverflow constraint.bound
  | .reset _ value => FarFromOverflow value
  | .delay => True

instance (operation : ClockOperation) : Decidable operation.Moderate :=
  match operation with
  | .guard constraint => inferInstanceAs (Decidable (FarFromOverflow constraint.bound))
  | .invariant constraint => inferInstanceAs (Decidable (FarFromOverflow constraint.bound))
  | .reset _ value => inferInstanceAs (Decidable (FarFromOverflow value))
  | .delay => inferInstanceAs (Decidable True)

end ClockOperation

theorem FarFromOverflow.packable {constant : Int} (far : FarFromOverflow constant)
    (strict : Bool) : Bound.Packable constant strict := by
  obtain ⟨lower, upper⟩ := far
  exact ⟨by omega, by omega, by omega⟩

namespace Bound

theorem atMost_eq {constant : Int} (far : FarFromOverflow constant) :
    atMost constant = ⟨2 * constant + 1⟩ := by
  obtain ⟨lower, upper⟩ := far
  have fits : FitsInt64 (2 * constant) := by
    unfold FitsInt64 minInt64 maxInt64
    omega
  rw [atMost, wrapInt64_of_fits fits]

theorem below_eq {constant : Int} (far : FarFromOverflow constant) :
    below constant = ⟨2 * constant⟩ := by
  obtain ⟨lower, upper⟩ := far
  have fits : FitsInt64 (2 * constant) := by
    unfold FitsInt64 minInt64 maxInt64
    omega
  rw [below, wrapInt64_of_fits fits]

theorem differences_atMost {constant : Int} (far : FarFromOverflow constant) :
    (atMost constant).differences = Set.Iic (constant : ℚ) :=
  (far.packable false).differences_new

theorem differences_below {constant : Int} (far : FarFromOverflow constant) :
    (below constant).differences = Set.Iio (constant : ℚ) :=
  (far.packable true).differences_new

end Bound

theorem ClockConstraint.holds_iff {constraint : ClockConstraint} {valuation : ClockValuation}
    (far : FarFromOverflow constraint.bound) : constraint.Holds valuation ↔
      valuation.side constraint.left - valuation.side constraint.right ∈
        constraint.toBound.differences := by
  unfold Holds toBound Bound.new
  cases constraint.strict with
  | true => rw [if_pos rfl, if_pos rfl, Bound.differences_below far]; rfl
  | false => rw [if_neg nofun, if_neg nofun, Bound.differences_atMost far]; rfl

namespace Zone

variable {zone : Zone} {valuation : ClockValuation}

/-- The values of the constant zero and of the clocks. -/
def valuesOf (clocks : List VarDecl) (valuation : ClockValuation) : Nat → ℚ
  | 0 => 0
  | index + 1 => (clocks[index]?.map valuation).getD 0

/-- The clocks have values within the bounds of the zone. -/
def Contains (zone : Zone) (valuation : ClockValuation) : Prop :=
  zone.Admits (valuesOf zone.clocks valuation)

theorem indexOf?_eq_some {clock : VarDecl} {index : Nat}
    (found : zone.indexOf? clock = some index) :
    ∃ position, index = position + 1 ∧ zone.clocks[position]? = some clock := by
  obtain ⟨position, first, rfl⟩ := Option.map_eq_some_iff.mp found
  obtain ⟨inside, same, -⟩ := List.findIdx?_eq_some_iff_getElem.mp first
  refine ⟨position, rfl, ?_⟩
  rw [List.getElem?_eq_getElem inside, of_decide_eq_true same]

theorem exists_indexOf? {clock : VarDecl} (tracked : clock ∈ zone.clocks) :
    ∃ index, zone.indexOf? clock = some index := by
  cases found : zone.clocks.findIdx? (· = clock) with
  | none => exact absurd (List.findIdx?_eq_none_iff.mp found clock tracked) (by simp)
  | some position => exact ⟨position + 1, by rw [indexOf?, found]; rfl⟩

theorem lt_dimension_of_getElem? {clock : VarDecl} {position : Nat}
    (found : zone.clocks[position]? = some clock) : position + 1 < zone.dimension :=
  Nat.succ_lt_succ (List.getElem?_eq_some_iff.mp found).1

theorem exists_sideIndex? {side : Option VarDecl} (tracked : side.toList ⊆ zone.clocks) :
    ∃ index < zone.dimension, zone.sideIndex? side = some index ∧
      ∀ valuation, valuesOf zone.clocks valuation index = valuation.side side := by
  cases side with
  | none => exact ⟨0, Nat.succ_pos _, rfl, fun _ => rfl⟩
  | some clock =>
      obtain ⟨index, found⟩ := exists_indexOf? (tracked (by simp) : clock ∈ zone.clocks)
      obtain ⟨position, rfl, isClock⟩ := indexOf?_eq_some found
      refine ⟨position + 1, lt_dimension_of_getElem? isClock, found, fun valuation => ?_⟩
      simp [valuesOf, isClock, ClockValuation.side]

/-- A value written to a clock is written to one place. -/
theorem valuesOf_update (nodup : zone.clocks.Nodup) {clock : VarDecl} {position : Nat}
    (found : zone.clocks[position]? = some clock) (valuation : ClockValuation) (value : ℚ) :
    valuesOf zone.clocks (Function.update valuation clock value) =
      Function.update (valuesOf zone.clocks valuation) (position + 1) value := by
  funext index
  cases index with
  | zero => rfl
  | succ other =>
      by_cases same : other = position
      · subst same
        simp [valuesOf, found]
      · rw [Function.update_of_ne (by omega)]
        cases foundOther : zone.clocks[other]? with
        | none => simp [valuesOf, foundOther]
        | some clock' =>
            have differs : clock' ≠ clock := by
              rintro rfl
              obtain ⟨inside, same₁⟩ := List.getElem?_eq_some_iff.mp found
              obtain ⟨inside', same₂⟩ := List.getElem?_eq_some_iff.mp foundOther
              exact same ((List.Nodup.getElem_inj_iff nodup).mp (same₂.trans same₁.symm))
            simp [valuesOf, foundOther, Function.update_of_ne differs]

theorem valuesOf_elapse {index : Nat} (inside : index < zone.dimension)
    (valuation : ClockValuation) (delay : ℚ) :
    valuesOf zone.clocks (valuation.elapse delay) index =
      if index = 0 then 0 else valuesOf zone.clocks valuation index + delay := by
  cases index with
  | zero => rfl
  | succ position =>
      have inside' : position < zone.clocks.length := Nat.lt_of_succ_lt_succ inside
      simp [valuesOf, List.getElem?_eq_getElem inside', ClockValuation.elapse]

theorem indexOf?_of_nodup (nodup : zone.clocks.Nodup) {clock : VarDecl} {position : Nat}
    (found : zone.clocks[position]? = some clock) : zone.indexOf? clock = some (position + 1) := by
  obtain ⟨inside, same⟩ := List.getElem?_eq_some_iff.mp found
  obtain ⟨index, isIndex⟩ := exists_indexOf? (same ▸ List.getElem_mem inside : clock ∈ zone.clocks)
  obtain ⟨position', rfl, found'⟩ := indexOf?_eq_some isIndex
  obtain ⟨inside', same'⟩ := List.getElem?_eq_some_iff.mp found'
  rw [isIndex, (List.Nodup.getElem_inj_iff nodup).mp (same'.trans same.symm)]

/-- The valuation with the values of the tracked clocks, and a given one of other clocks. -/
def valuationOf (zone : Zone) (others : ClockValuation) (values : Nat → ℚ) : ClockValuation :=
  fun clock => (zone.indexOf? clock).elim (others clock) values

theorem valuesOf_valuationOf (nodup : zone.clocks.Nodup) {others : ClockValuation}
    {values : Nat → ℚ} (start : values 0 = 0) {index : Nat} (isIndex : index < zone.dimension) :
    valuesOf zone.clocks (zone.valuationOf others values) index = values index := by
  cases index with
  | zero => exact start.symm
  | succ position =>
      have found := List.getElem?_eq_getElem (Nat.lt_of_succ_lt_succ isIndex)
      simp [valuesOf, valuationOf, found, indexOf?_of_nodup nodup found]

theorem contains_valuationOf (nodup : zone.clocks.Nodup) {others : ClockValuation}
    {values : Nat → ℚ} (admits : zone.Admits values) (start : values 0 = 0) :
    zone.Contains (zone.valuationOf others values) :=
  admits.congr fun _ isIndex => valuesOf_valuationOf nodup start (Finset.mem_range.mp isIndex)

theorem exists_contains_of_closed (closed : zone.system.Closed zone.dimension)
    (nodup : zone.clocks.Nodup) : ∃ valuation, zone.Contains valuation := by
  have nothing : zone.system.Solves ∅ fun _ => 0 := by simp [DifferenceSystem.Solves]
  obtain ⟨values, solves, -⟩ := closed.extend (Finset.empty_subset _) nothing
  exact ⟨zone.valuationOf (fun _ => 0) fun index => values index + -values 0,
    contains_valuationOf nodup (solves.shift (-values 0)) (add_neg_cancel _)⟩

theorem limit_constrain (mild : zone.Mild) {constraint : ClockConstraint} {left right : Nat}
    (isLeft : zone.sideIndex? constraint.left = some left)
    (isRight : zone.sideIndex? constraint.right = some right) {row column : Nat}
    (isRow : row < zone.dimension) (isColumn : column < zone.dimension) :
    (zone.constrain constraint).system.limit row column =
      if row = left ∧ column = right then
        constraint.toBound.differences ∩ zone.system.limit row column
      else zone.system.limit row column := by
  show ((zone.constrain constraint).get row column).differences = _
  rw [constrain, isLeft, isRight, get_mapEntries _ isRow isColumn]
  split
  case isTrue both =>
    obtain ⟨rfl, rfl, tighter⟩ := both
    rw [if_pos ⟨rfl, rfl⟩]
    exact (Set.inter_eq_left.mpr (Bound.differences_subset (Int.le_of_lt tighter)
      (mild row isRow column isColumn).le_infinity)).symm
  case isFalse not =>
    split
    case isTrue same =>
      have le : zone.get row column ≤ constraint.toBound :=
        Int.not_lt.mp fun tighter => not ⟨same.1, same.2, tighter⟩
      exact (Set.inter_eq_right.mpr (Bound.differences_subset le
        (Bound.new_le_infinity ..))).symm
    case isFalse => rfl

theorem limit_up {row column : Nat} (isRow : row < zone.dimension)
    (isColumn : column < zone.dimension) : zone.up.system.limit row column =
      if column = 0 ∧ row ≠ 0 then Set.univ else zone.system.limit row column := by
  show (zone.up.get row column).differences = _
  rw [up, get_mapEntries _ isRow isColumn]
  split <;> rfl

theorem limit_reset (mild : zone.Mild) {clock : VarDecl} {value : Int} {index : Nat}
    (far : FarFromOverflow value) (found : zone.indexOf? clock = some index) {row column : Nat}
    (isRow : row < zone.dimension) (isColumn : column < zone.dimension) :
    (zone.reset clock value).system.limit row column =
      if row = index ∧ column = index then Set.Iic 0
      else if row = index then Set.Iic (value : ℚ) + zone.system.limit 0 column
      else if column = index then zone.system.limit row 0 + Set.Iic (-(value : ℚ))
      else zone.system.limit row column := by
  show ((zone.reset clock value).get row column).differences = _
  have opposite : FarFromOverflow (-value) := by
    unfold FarFromOverflow at *
    omega
  have isZero : 0 < zone.dimension := Nat.succ_pos _
  rw [reset, found]
  dsimp only
  rw [get_mapEntries _ isRow isColumn]
  split
  · exact Bound.differences_zero
  · split
    · rw [Bound.differences_add
        ((Bound.mild_atMost far.1 far.2).sumFits (mild 0 isZero column isColumn)),
        Bound.differences_atMost far]
      rfl
    · split
      · rw [Bound.differences_add
          ((mild row isRow 0 isZero).sumFits (Bound.mild_atMost opposite.1 opposite.2)),
          Bound.differences_atMost opposite, Int.cast_neg]
        rfl
      · rfl

theorem constrain_subset (mild : zone.Mild) {constraint : ClockConstraint}
    (tracked : constraint.clocks ⊆ zone.clocks)
    {row column : Nat} (isRow : row < zone.dimension) (isColumn : column < zone.dimension) :
    (zone.constrain constraint).system.limit row column ⊆ zone.system.limit row column := by
  obtain ⟨inLeft, inRight⟩ := List.append_subset.mp tracked
  obtain ⟨left, -, isLeft, -⟩ := exists_sideIndex? inLeft
  obtain ⟨right, -, isRight, -⟩ := exists_sideIndex? inRight
  rw [limit_constrain mild isLeft isRight isRow isColumn]
  split
  · exact Set.inter_subset_right
  · exact subset_rfl

/-- Operations leave bounds of at most zero on the diagonal. -/
theorem Canonical.diagonal_changed (canonical : zone.Canonical) {operation : ClockOperation}
    (moderate : operation.Moderate) (tracked : operation.clocks ⊆ zone.clocks) {index : Nat}
    (isIndex : index < zone.dimension) :
    (zone.changed operation).system.limit index index ⊆ Set.Iic 0 := by
  cases operation with
  | guard constraint | invariant constraint =>
      exact (constrain_subset canonical.mild tracked isIndex isIndex).trans
        (canonical.diagonal isIndex)
  | reset clock value =>
      obtain ⟨place, found⟩ := exists_indexOf? (tracked List.mem_cons_self)
      rw [changed, limit_reset canonical.mild moderate found isIndex isIndex]
      by_cases same : index = place
      · rw [if_pos ⟨same, same⟩]
      · rw [if_neg fun both => same both.1, if_neg same, if_neg same]
        exact canonical.diagonal isIndex
  | delay =>
      rw [changed, limit_up isIndex isIndex, if_neg fun both => both.2 both.1]
      exact canonical.diagonal isIndex

/-- The values before a reset. -/
theorem Canonical.exists_before_reset (canonical : zone.Canonical) {clock : VarDecl} {value : Int}
    {index : Nat} (far : FarFromOverflow value) (found : zone.indexOf? clock = some index)
    (inside : index < zone.dimension) (positive : index ≠ 0) {values : Nat → ℚ}
    (admits : (zone.reset clock value).Admits values) :
    values index = values 0 + value ∧
      ∃ before, zone.Admits (Function.update values index before) := by
  have sameDimension : (zone.reset clock value).dimension = zone.dimension := by
    rw [dimension, clocks_reset, dimension]
  unfold Admits at admits
  rw [sameDimension] at admits
  have isZero : 0 < zone.dimension := Nat.succ_pos _
  have allowed {row column : Nat} (isRow : row < zone.dimension)
      (isColumn : column < zone.dimension) :=
    admits row (Finset.mem_range.mpr isRow) column (Finset.mem_range.mpr isColumn)
  have mild := canonical.mild
  constructor
  · have upper := allowed inside isZero
    have lower := allowed isZero inside
    rw [limit_reset mild far found inside isZero, if_neg fun both => positive both.2.symm,
      if_pos rfl] at upper
    rw [limit_reset mild far found isZero inside, if_neg fun both => positive both.1.symm,
      if_neg positive.symm, if_pos rfl] at lower
    obtain ⟨sum, isSum, rest, isRest, upper⟩ := upper
    obtain ⟨rest', isRest', sum', isSum', lower⟩ := lower
    have nonpositive : rest ≤ 0 := canonical.diagonal isZero isRest
    have nonpositive' : rest' ≤ 0 := canonical.diagonal isZero isRest'
    have isSum : sum ≤ (value : ℚ) := isSum
    have isSum' : sum' ≤ -(value : ℚ) := isSum'
    dsimp only at upper lower
    linarith
  · have others : zone.system.Solves ((Finset.range zone.dimension).erase index) values := by
      intro row isRow column isColumn
      obtain ⟨differs, isRow⟩ := Finset.mem_erase.mp isRow
      obtain ⟨differs', isColumn⟩ := Finset.mem_erase.mp isColumn
      have member := allowed (Finset.mem_range.mp isRow) (Finset.mem_range.mp isColumn)
      rwa [limit_reset mild far found (Finset.mem_range.mp isRow) (Finset.mem_range.mp isColumn),
        if_neg fun both => differs both.1, if_neg differs, if_neg differs'] at member
    obtain ⟨before, -, solves⟩ := canonical.closed.extend_one (Finset.erase_subset ..) inside
      (Finset.notMem_erase _ _) others isUpperSet_univ Set.univ_nonempty fun other _ => by
        obtain ⟨limit, isLimit⟩ := zone.system.nonempty index other
        exact ⟨values other + limit, trivial, by rwa [add_sub_cancel_left]⟩
    rw [Finset.insert_erase (Finset.mem_range.mpr inside)] at solves
    exact ⟨before, solves⟩

/-- The values before a delay: the constant zero is raised by it. -/
theorem Canonical.exists_before_delay (canonical : zone.Canonical) {values : Nat → ℚ}
    (admits : zone.up.Admits values) :
    ∃ start ≥ values 0, zone.Admits (Function.update values 0 start) := by
  have isZero : 0 < zone.dimension := Nat.succ_pos _
  have allowed {row column : Nat} (isRow : row < zone.dimension)
      (isColumn : column < zone.dimension) (kept : ¬ (column = 0 ∧ row ≠ 0)) :
      values row - values column ∈ zone.system.limit row column := by
    have member := admits row (Finset.mem_range.mpr isRow) column (Finset.mem_range.mpr isColumn)
    rwa [limit_up isRow isColumn, if_neg kept] at member
  have others : zone.system.Solves ((Finset.range zone.dimension).erase 0) values := by
    intro row isRow column isColumn
    obtain ⟨-, isRow⟩ := Finset.mem_erase.mp isRow
    obtain ⟨differs, isColumn⟩ := Finset.mem_erase.mp isColumn
    exact allowed (Finset.mem_range.mp isRow) (Finset.mem_range.mp isColumn)
      fun both => differs both.1
  obtain ⟨start, later, solves⟩ := canonical.closed.extend_one (Finset.erase_subset ..) isZero
    (Finset.notMem_erase _ _) others (isUpperSet_Ici (values 0)) Set.nonempty_Ici
    fun other isOther => by
      obtain ⟨-, isOther⟩ := Finset.mem_erase.mp isOther
      exact ⟨values 0, Set.self_mem_Ici,
        allowed isZero (Finset.mem_range.mp isOther) fun both => both.2 rfl⟩
  rw [Finset.insert_erase (Finset.mem_range.mpr isZero)] at solves
  exact ⟨start, later, solves⟩

/-- A constraint takes the valuations away that do not satisfy it. -/
theorem contains_constrain_iff (mild : zone.Mild) {constraint : ClockConstraint}
    (far : FarFromOverflow constraint.bound) (tracked : constraint.clocks ⊆ zone.clocks) :
    (zone.constrain constraint).Contains valuation ↔
      zone.Contains valuation ∧ constraint.Holds valuation := by
  have sameDimension : (zone.constrain constraint).dimension = zone.dimension := by
    rw [dimension, clocks_constrain, dimension]
  obtain ⟨inLeft, inRight⟩ := List.append_subset.mp tracked
  obtain ⟨left, insideLeft, isLeft, leftValue⟩ := exists_sideIndex? inLeft
  obtain ⟨right, insideRight, isRight, rightValue⟩ := exists_sideIndex? inRight
  have limit {row column : Nat} (isRow : row < zone.dimension)
      (isColumn : column < zone.dimension) :=
    limit_constrain mild isLeft isRight isRow isColumn
  unfold Contains Admits
  rw [sameDimension, clocks_constrain, ClockConstraint.holds_iff far]
  constructor
  · intro admits
    constructor
    · intro row isRow column isColumn
      have member := admits row isRow column isColumn
      rw [limit (Finset.mem_range.mp isRow) (Finset.mem_range.mp isColumn)] at member
      split at member
      · exact member.2
      · exact member
    · have member := admits left (Finset.mem_range.mpr insideLeft) right
        (Finset.mem_range.mpr insideRight)
      rw [limit insideLeft insideRight, if_pos ⟨rfl, rfl⟩, leftValue, rightValue] at member
      exact member.1
  · rintro ⟨admits, holds⟩ row isRow column isColumn
    rw [limit (Finset.mem_range.mp isRow) (Finset.mem_range.mp isColumn)]
    split
    case isTrue same =>
      refine ⟨?_, admits row isRow column isColumn⟩
      rwa [same.1, same.2, leftValue, rightValue]
    case isFalse => exact admits row isRow column isColumn

/-- What an operation does to the bounds of a canonical zone leaves only what it makes of the
valuations in it. -/
theorem Canonical.exists_leads_of_changed (canonical : zone.Canonical)
    (nodup : zone.clocks.Nodup) {operation : ClockOperation} (moderate : operation.Moderate)
    (tracked : operation.clocks ⊆ zone.clocks) {after : ClockValuation}
    (contains : (zone.changed operation).Contains after) :
    ∃ before, zone.Contains before ∧ operation.Leads before after := by
  have admits : (zone.changed operation).Admits (valuesOf zone.clocks after) := by
    rwa [Contains, clocks_changed] at contains
  cases operation with
  | guard constraint =>
      obtain ⟨inside, holds⟩ := (contains_constrain_iff canonical.mild moderate tracked).mp contains
      exact ⟨after, inside, .guard holds⟩
  | invariant constraint =>
      obtain ⟨inside, holds⟩ := (contains_constrain_iff canonical.mild moderate tracked).mp contains
      exact ⟨after, inside, .invariant holds⟩
  | reset clock value =>
      obtain ⟨index, found⟩ := exists_indexOf? (tracked List.mem_cons_self)
      obtain ⟨position, rfl, isClock⟩ := indexOf?_eq_some found
      obtain ⟨written, before, solves⟩ := canonical.exists_before_reset moderate found
        (lt_dimension_of_getElem? isClock) (Nat.succ_ne_zero _) admits
      refine ⟨Function.update after clock before, ?_, ?_⟩
      · rw [Contains, valuesOf_update nodup isClock]
        exact solves
      · have value_eq : after clock = value := by
          simpa [valuesOf, isClock] using written
        have same : Function.update (Function.update after clock before) clock (value : ℚ) =
            after := by
          rw [Function.update_idem, ← value_eq, Function.update_eq_self]
        have leads := ClockOperation.Leads.reset clock value (Function.update after clock before)
        rwa [same] at leads
  | delay =>
      obtain ⟨start, later, solves⟩ := canonical.exists_before_delay admits
      refine ⟨after.elapse (-start), ?_, ?_⟩
      · refine (solves.shift (-start)).congr fun index isIndex => ?_
        rw [valuesOf_elapse (Finset.mem_range.mp isIndex)]
        by_cases isZero : index = 0
        · simp [isZero]
        · simp [isZero]
      · have same : (after.elapse (-start)).elapse start = after := by
          funext clock
          simp [ClockValuation.elapse]
        have leads := ClockOperation.Leads.delay (after.elapse (-start)) later
        rwa [same] at leads

theorem Canonical.exists_leads (canonical : zone.Canonical) (nodup : zone.clocks.Nodup)
    {operation : ClockOperation} (moderate : operation.Moderate)
    (tracked : operation.clocks ⊆ zone.clocks)
    (mildly : (zone.changed operation).CanonizesMildly) {after : ClockValuation}
    (contains : (zone.apply operation).Contains after) :
    ∃ before, zone.Contains before ∧ operation.Leads before after := by
  rw [apply_eq, Contains, clocks_canonize,
    admits_canonize_iff (square_changed canonical.square operation) mildly] at contains
  exact canonical.exists_leads_of_changed nodup moderate tracked contains

/-- No bound comes near the ends of the machine range while the operations are applied one
after the other, as long as the zone is not empty. -/
def AppliesMildly : Zone → List ClockOperation → Prop
  | _, [] => True
  | zone, operation :: operations => (zone.changed operation).CanonizesMildly ∧
      ((zone.apply operation).isEmpty = false → (zone.apply operation).AppliesMildly operations)

instance decidableAppliesMildly :
    (zone : Zone) → (operations : List ClockOperation) → Decidable (zone.AppliesMildly operations)
  | _, [] => inferInstanceAs (Decidable True)
  | zone, operation :: operations =>
      have := decidableAppliesMildly (zone.apply operation) operations
      inferInstanceAs (Decidable (_ ∧ (_ → _)))

theorem Canonical.apply (canonical : zone.Canonical) {operation : ClockOperation}
    (moderate : operation.Moderate) (tracked : operation.clocks ⊆ zone.clocks)
    (mildly : (zone.changed operation).CanonizesMildly)
    (nonempty : (zone.apply operation).isEmpty = false) : (zone.apply operation).Canonical := by
  rw [apply_eq] at nonempty ⊢
  refine canonical_canonize (square_changed canonical.square operation) mildly (fun index inside => ?_)
    nonempty
  rw [dimension, clocks_changed] at inside
  exact canonical.diagonal_changed moderate tracked inside

@[simp] theorem clocks_apply (zone : Zone) (operation : ClockOperation) :
    (zone.apply operation).clocks = zone.clocks := by
  rw [apply_eq, clocks_canonize, clocks_changed]

/-- What a sequence of operations makes of a canonical zone is canonical again and contains
only what the operations make of the valuations in the zone. -/
theorem Canonical.applyAll (canonical : zone.Canonical) (nodup : zone.clocks.Nodup)
    {operations : List ClockOperation} (moderate : ∀ operation ∈ operations, operation.Moderate)
    (tracked : ∀ operation ∈ operations, operation.clocks ⊆ zone.clocks)
    (mildly : zone.AppliesMildly operations) {result : Zone}
    (applied : ZoneState.applyAll zone operations = some result) :
    result.Canonical ∧ result.clocks = zone.clocks ∧ ∀ after, result.Contains after →
      ∃ before, zone.Contains before ∧ ClockOperation.LeadThrough operations before after := by
  induction operations generalizing zone with
  | nil =>
      cases applied
      exact ⟨canonical, rfl, fun after contains => ⟨after, contains, .nil after⟩⟩
  | cons operation operations ih =>
      obtain ⟨isModerate, moderate⟩ := List.forall_mem_cons.mp moderate
      obtain ⟨isTracked, tracked⟩ := List.forall_mem_cons.mp tracked
      obtain ⟨canonizes, mildly⟩ := mildly
      rw [ZoneState.applyAll] at applied
      cases nonempty : (zone.apply operation).isEmpty with
      | true =>
          rw [nonempty] at applied
          cases applied
      | false =>
          rw [nonempty] at applied
          obtain ⟨canonical', sameClocks, images⟩ :=
            ih (canonical.apply isModerate isTracked canonizes nonempty) (by rwa [clocks_apply])
              moderate (by rwa [clocks_apply]) (mildly nonempty) applied
          refine ⟨canonical', sameClocks.trans (clocks_apply ..), fun after contains => ?_⟩
          obtain ⟨middle, inside, later⟩ := images after contains
          obtain ⟨before, inside', first⟩ :=
            canonical.exists_leads nodup isModerate isTracked canonizes inside
          exact ⟨before, inside', .cons first later⟩

theorem below_relaxed (square : zone.Square) {steps : List (Nat × Nat)}
    (inside : ∀ step ∈ steps, step.1 < zone.dimension ∧ step.2 < zone.dimension) :
    (zone.relaxed steps).Below zone := by
  induction steps generalizing zone with
  | nil => exact ⟨rfl, fun _ _ => Int.le_refl _⟩
  | cons step steps ih =>
      obtain ⟨⟨isVia, isRow⟩, inside⟩ := List.forall_mem_cons.mp inside
      have below := ih (square_relaxRow square isRow isVia) (by rwa [dimension_relaxRow])
      refine ⟨clocks_relaxed zone (step :: steps), fun {row column} inRow inColumn => ?_⟩
      refine Int.le_trans (below.get_le inRow inColumn) ?_
      have inColumn' : column < zone.dimension := by
        rwa [dimension, clocks_relaxed] at inColumn
      rw [get_relaxRow square isRow isVia inColumn']
      split
      case isTrue same =>
        rw [same.1]
        exact tighterBound_le ..
      case isFalse => exact Int.le_refl _

theorem below_canonize (square : zone.Square) : zone.canonize.Below zone := by
  rw [canonize_eq]
  exact below_relaxed square fun _ => mem_relaxations.mp

theorem below_constrain (zone : Zone) (constraint : ClockConstraint) :
    (zone.constrain constraint).Below zone := by
  refine ⟨clocks_constrain zone constraint, fun {row column} inRow inColumn => ?_⟩
  rw [dimension, clocks_constrain] at inRow inColumn
  rcases zone.constrain_cases constraint with same | ⟨left, right, same⟩ <;> rw [same]
  · exact Int.le_refl _
  · rw [get_mapEntries _ inRow inColumn]
    split
    case isTrue tighter => exact Int.le_of_lt tighter.2.2
    case isFalse => exact Int.le_refl _

/-- Constraints and delays do not mend an empty zone. -/
theorem nonempty_of_apply (square : zone.Square) {operation : ClockOperation}
    (keeps : ∀ clock value, operation ≠ .reset clock value)
    (nonempty : (zone.apply operation).isEmpty = false) : zone.isEmpty = false := by
  rw [apply_eq] at nonempty
  have changed := (below_canonize (square_changed square operation)).nonempty nonempty
  cases operation with
  | guard constraint | invariant constraint =>
      exact (below_constrain zone constraint).nonempty changed
  | reset clock value => exact absurd rfl (keeps clock value)
  | delay =>
      rw [isEmpty_eq_false_iff] at changed ⊢
      intro index inside
      have kept := changed index inside
      rwa [Zone.changed, up, get_mapEntries _ inside inside, if_neg fun both => both.2 both.1] at kept

theorem square_apply (square : zone.Square) (operation : ClockOperation) :
    (zone.apply operation).Square := by
  rw [apply_eq]
  exact square_canonize (square_changed square operation)

/-- Without resets, what is not empty in the end was not empty on the way. -/
theorem applyAll_eq_foldl (square : zone.Square) {operations : List ClockOperation}
    (keep : ∀ operation ∈ operations, ∀ clock value, operation ≠ .reset clock value)
    (nonempty : (operations.foldl Zone.apply zone).isEmpty = false) :
    ZoneState.applyAll zone operations = some (operations.foldl Zone.apply zone) ∧
      zone.isEmpty = false := by
  induction operations generalizing zone with
  | nil => exact ⟨rfl, nonempty⟩
  | cons operation operations ih =>
      obtain ⟨keeps, keep⟩ := List.forall_mem_cons.mp keep
      obtain ⟨applied, nonempty'⟩ := ih (square_apply square operation) keep nonempty
      refine ⟨?_, nonempty_of_apply square keeps nonempty'⟩
      rw [ZoneState.applyAll, nonempty']
      exact applied

theorem get_origin (clocks : List VarDecl) {row column : Nat} (isRow : row < clocks.length + 1)
    (isColumn : column < clocks.length + 1) : (origin clocks).get row column = .zero := by
  rw [origin, filled, get_tabulate _ isRow isColumn, ite_self]

theorem limit_origin (clocks : List VarDecl) {row column : Nat} (isRow : row < clocks.length + 1)
    (isColumn : column < clocks.length + 1) :
    (origin clocks).system.limit row column = Set.Iic 0 := by
  show ((origin clocks).get row column).differences = _
  rw [get_origin clocks isRow isColumn, Bound.differences_zero]

theorem canonical_origin (clocks : List VarDecl) : (origin clocks).Canonical where
  square := square_tabulate ..
  mild row isRow column isColumn := by
    rw [get_origin clocks isRow isColumn]
    exact .inr (by decide)
  closed :=
    { zero_mem := fun isIndex => by
        rw [limit_origin clocks isIndex isIndex]
        exact Set.self_mem_Iic
      triangle := fun isFirst isVia isSecond => by
        rw [limit_origin clocks isFirst isSecond, limit_origin clocks isFirst isVia,
          limit_origin clocks isVia isSecond, Iic_add_Iic, add_zero] }
  diagonal isIndex := by rw [limit_origin clocks isIndex isIndex]

/-- In the origin all clocks are zero. -/
theorem eq_zero_of_origin {clocks : List VarDecl} {clock : VarDecl}
    (contains : (origin clocks).Contains valuation) (tracked : clock ∈ clocks) :
    valuation clock = 0 := by
  obtain ⟨position, inside, same⟩ := List.getElem_of_mem tracked
  have isIndex : position + 1 < clocks.length + 1 := Nat.succ_lt_succ inside
  have value : valuesOf (origin clocks).clocks valuation (position + 1) = valuation clock := by
    show valuesOf clocks valuation (position + 1) = _
    simp [valuesOf, List.getElem?_eq_getElem inside, same]
  have upper := contains (position + 1) (Finset.mem_range.mpr isIndex) 0
    (Finset.mem_range.mpr (Nat.succ_pos _))
  have lower := contains 0 (Finset.mem_range.mpr (Nat.succ_pos _)) (position + 1)
    (Finset.mem_range.mpr isIndex)
  rw [limit_origin clocks isIndex (Nat.succ_pos _), value] at upper
  rw [limit_origin clocks (Nat.succ_pos _) isIndex, value] at lower
  have upper : valuation clock - 0 ≤ 0 := upper
  have lower : 0 - valuation clock ≤ 0 := lower
  linarith

end Zone

end AbstractionRefinement
