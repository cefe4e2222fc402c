import AbstractionRefinement.Proofs.ZoneConstants

/-!
# Exactness of clock operations

Applied to a canonical zone, a clock operation gives the zone of exactly those valuations that
it makes of the valuations in the zone, in canonical form unless there are none.  Operations on
untracked clocks have no effect.
-/

namespace AbstractionRefinement

open scoped Pointwise

/-- The constant of the constraint has at most the given size. -/
def ClockConstraint.Within (limit : Nat) (constraint : ClockConstraint) : Prop :=
  -(limit : Int) ≤ constraint.bound ∧ constraint.bound ≤ limit

instance (limit : Nat) (constraint : ClockConstraint) : Decidable (constraint.Within limit) :=
  inferInstanceAs (Decidable (_ ∧ _))

theorem ClockConstraint.Within.far {limit : Nat} {constraint : ClockConstraint}
    (within : constraint.Within limit) (small : limit < 2 ^ 59) :
    FarFromOverflow constraint.bound := by
  unfold Within at within
  unfold FarFromOverflow
  omega

namespace ClockOperation

variable {operation : ClockOperation} {limit : Nat}

/-- The constant of the operation has at most the given size. -/
def Within (limit : Nat) : ClockOperation → Prop
  | guard constraint | invariant constraint => constraint.Within limit
  | reset _ value => -(limit : Int) ≤ value ∧ value ≤ limit
  | delay => True

instance (limit : Nat) (operation : ClockOperation) : Decidable (operation.Within limit) :=
  match operation with
  | guard constraint => inferInstanceAs (Decidable (constraint.Within limit))
  | invariant constraint => inferInstanceAs (Decidable (constraint.Within limit))
  | reset _ _ => inferInstanceAs (Decidable (_ ∧ _))
  | delay => inferInstanceAs (Decidable True)

theorem Within.moderate (within : operation.Within limit) (small : limit < 2 ^ 59) :
    operation.Moderate := by
  cases operation <;> simp only [Within, ClockConstraint.Within, Moderate, FarFromOverflow] at * <;>
    omega

/-- What the operation makes of a valuation.  Operations on untracked clocks have no effect. -/
def Yields (tracked : List VarDecl) (operation : ClockOperation)
    (before after : ClockValuation) : Prop :=
  if operation.clocks ⊆ tracked then operation.Leads before after else after = before

theorem yields_iff_leads {tracked : List VarDecl} {before after : ClockValuation}
    (isTracked : operation.clocks ⊆ tracked) :
    operation.Yields tracked before after ↔ operation.Leads before after := by
  rw [Yields, if_pos isTracked]

theorem yields_iff_eq {tracked : List VarDecl} {before after : ClockValuation}
    (untracked : ¬ operation.clocks ⊆ tracked) :
    operation.Yields tracked before after ↔ after = before := by
  rw [Yields, if_neg untracked]

end ClockOperation

namespace Zone

open DifferenceSystem

variable {zone : Zone} {limit : Nat} {operation : ClockOperation}

theorem sideIndex?_eq_none {side : Option VarDecl} (untracked : ¬ side.toList ⊆ zone.clocks) :
    zone.sideIndex? side = none := by
  cases side with
  | none => simp at untracked
  | some clock =>
      have unknown : clock ∉ zone.clocks := by simpa using untracked
      rw [sideIndex?, indexOf?, Option.map_eq_none_iff, List.findIdx?_eq_none_iff]
      intro other isTracked
      simpa using fun same : other = clock => unknown (same ▸ isTracked)

theorem constrain_of_untracked {constraint : ClockConstraint}
    (untracked : ¬ constraint.clocks ⊆ zone.clocks) : zone.constrain constraint = zone := by
  unfold constrain
  rw [ClockConstraint.clocks, List.append_subset, not_and_or] at untracked
  rcases untracked with left | right
  · rw [sideIndex?_eq_none left]
  · rw [sideIndex?_eq_none right]
    cases zone.sideIndex? constraint.left <;> rfl

theorem changed_of_untracked (untracked : ¬ operation.clocks ⊆ zone.clocks) :
    zone.changed operation = zone := by
  cases operation with
  | guard constraint | invariant constraint => exact constrain_of_untracked untracked
  | reset clock value =>
      have unknown : zone.sideIndex? (some clock) = none := sideIndex?_eq_none untracked
      rw [sideIndex?] at unknown
      rw [changed, reset, unknown]
  | delay => exact absurd (List.nil_subset _) untracked

theorem Within.constrain (within : zone.Within limit) (small : limit < 2 ^ 59)
    {constraint : ClockConstraint} (far : constraint.Within limit) :
    (zone.constrain constraint).Within limit := by
  by_cases tracked : constraint.clocks ⊆ zone.clocks
  · obtain ⟨inLeft, inRight⟩ := List.append_subset.mp tracked
    obtain ⟨left, -, isLeft, -⟩ := exists_sideIndex? inLeft
    obtain ⟨right, -, isRight, -⟩ := exists_sideIndex? inRight
    have moderate := far.far small
    have spans : Spans limit constraint.toBound.differences := by
      unfold ClockConstraint.toBound Bound.new
      split
      · rw [Bound.differences_below moderate]
        exact spans_Iio far.1 far.2
      · rw [Bound.differences_atMost moderate]
        exact spans_Iic far.1 far.2
    rw [within_iff_spans] at within ⊢
    intro row isRow column isColumn
    rw [dimension, clocks_constrain] at isRow isColumn
    rw [limit_constrain ((within_iff_spans.mpr within).mild (small.trans (by decide))) isLeft
      isRight isRow isColumn]
    split
    · exact spans.inter (within row isRow column isColumn)
    · exact within row isRow column isColumn
  · rwa [constrain_of_untracked tracked]

theorem Within.changed (within : zone.Within limit) (small : limit < 2 ^ 59)
    (far : operation.Within limit) : (zone.changed operation).Within (2 * limit) := by
  have doubled : limit ≤ 2 * limit := by omega
  cases operation with
  | guard constraint | invariant constraint => exact (within.constrain small far).mono doubled
  | reset clock value =>
      cases found : zone.indexOf? clock with
      | none =>
          rw [Zone.changed, reset, found]
          exact within.mono doubled
      | some index =>
          have moderate : FarFromOverflow value := ClockOperation.Within.moderate far small
          have opposite : Spans limit (Set.Iic (-(value : ℚ))) := by
            exact_mod_cast spans_Iic (by have := far.2; omega) (by have := far.1; omega)
          have mild := within.mild (small.trans (by decide))
          have isZero : 0 < zone.dimension := Nat.succ_pos _
          rw [within_iff_spans] at within ⊢
          intro row isRow column isColumn
          rw [dimension, clocks_changed] at isRow isColumn
          rw [Zone.changed, limit_reset mild moderate found isRow isColumn]
          have sum {first second : Set ℚ} (spans : Spans limit first) (spans' : Spans limit second) :
              Spans (2 * limit : Nat) (first + second) := by
            simpa [two_mul] using spans.add spans'
          split
          · right
            simp
          · split
            · exact sum (spans_Iic far.1 far.2) (within 0 isZero column isColumn)
            · split
              · exact sum (within row isRow 0 isZero) opposite
              · exact (within row isRow column isColumn).mono (by exact_mod_cast doubled)
  | delay =>
      rw [within_iff_spans] at within ⊢
      intro row isRow column isColumn
      rw [dimension, clocks_changed] at isRow isColumn
      show Spans _ (zone.up.system.limit row column)
      rw [limit_up isRow isColumn]
      split
      · exact .inl rfl
      · exact (within row isRow column isColumn).mono (by exact_mod_cast doubled)

section Valuations

variable {valuation : ClockValuation}

theorem Contains.reset (contains : zone.Contains valuation) (mild : zone.Mild)
    (nodup : zone.clocks.Nodup) {clock : VarDecl} (tracked : clock ∈ zone.clocks) {value : Int}
    (far : FarFromOverflow value) :
    (zone.reset clock value).Contains (Function.update valuation clock value) := by
  obtain ⟨place, found⟩ := exists_indexOf? tracked
  obtain ⟨position, rfl, isClock⟩ := indexOf?_eq_some found
  have isZero : 0 < zone.dimension := Nat.succ_pos _
  unfold Contains Admits
  rw [dimension, clocks_reset, valuesOf_update nodup isClock]
  intro row isRow column isColumn
  have allowed {row column : Nat} (isRow : row < zone.dimension)
      (isColumn : column < zone.dimension) :=
    contains row (Finset.mem_range.mpr isRow) column (Finset.mem_range.mpr isColumn)
  have isRow' : row < zone.dimension := Finset.mem_range.mp isRow
  have isColumn' : column < zone.dimension := Finset.mem_range.mp isColumn
  have start : valuesOf zone.clocks valuation 0 = 0 := rfl
  rw [limit_reset mild far found isRow' isColumn']
  by_cases atRow : row = position + 1 <;> by_cases atColumn : column = position + 1
  · simp [atRow, atColumn]
  · rw [if_neg fun both => atColumn both.2, if_pos atRow, atRow, Function.update_self,
      Function.update_of_ne atColumn]
    exact ⟨value, Set.self_mem_Iic, _, allowed isZero isColumn', by simp [start, sub_eq_add_neg]⟩
  · rw [if_neg fun both => atRow both.1, if_neg atRow, if_pos atColumn, atColumn,
      Function.update_self, Function.update_of_ne atRow]
    exact ⟨_, allowed isRow' isZero, -value, Set.self_mem_Iic, by simp [start, sub_eq_add_neg]⟩
  · rw [if_neg fun both => atRow both.1, if_neg atRow, if_neg atColumn,
      Function.update_of_ne atRow, Function.update_of_ne atColumn]
    exact allowed isRow' isColumn'

theorem Contains.up (contains : zone.Contains valuation) {delay : ℚ} (elapses : 0 ≤ delay) :
    zone.up.Contains (valuation.elapse delay) := by
  intro row isRow column isColumn
  have isRow' : row < zone.dimension := Finset.mem_range.mp isRow
  have isColumn' : column < zone.dimension := Finset.mem_range.mp isColumn
  have allowed := contains row isRow column isColumn
  show valuesOf zone.clocks _ row - valuesOf zone.clocks _ column ∈ _
  rw [limit_up isRow' isColumn', valuesOf_elapse isRow', valuesOf_elapse isColumn']
  by_cases atRow : row = 0 <;> by_cases atColumn : column = 0
  · simpa [atRow, atColumn, valuesOf] using allowed
  · subst atRow
    rw [if_neg fun both => atColumn both.1, if_pos rfl, if_neg atColumn]
    apply zone.system.isLowerSet 0 column _ allowed
    have start : valuesOf zone.clocks valuation 0 = 0 := rfl
    linarith
  · rw [if_pos ⟨atColumn, atRow⟩]
    trivial
  · rw [if_neg fun both => atColumn both.1, if_neg atRow, if_neg atColumn,
      add_sub_add_right_eq_sub]
    exact allowed

/-- What an operation does to the bounds of a canonical zone is what it does to the
valuations. -/
theorem Canonical.contains_changed_iff (canonical : zone.Canonical) (nodup : zone.clocks.Nodup)
    (moderate : operation.Moderate) (tracked : operation.clocks ⊆ zone.clocks)
    {after : ClockValuation} : (zone.changed operation).Contains after ↔
      ∃ before, zone.Contains before ∧ operation.Leads before after := by
  constructor
  · exact canonical.exists_leads_of_changed nodup moderate tracked
  · rintro ⟨before, contains, leads⟩
    cases leads with
    | guard holds | invariant holds =>
        exact (contains_constrain_iff canonical.mild moderate tracked).mpr ⟨contains, holds⟩
    | reset clock value =>
        exact contains.reset canonical.mild nodup (tracked List.mem_cons_self) moderate
    | delay _ elapses => exact contains.up elapses

end Valuations

/-- The zone after a clock operation is canonical or empty, and it has exactly the valuations
that the operation makes of those in the zone. -/
theorem Canonical.apply_exact (canonical : zone.Canonical) (nodup : zone.clocks.Nodup)
    (within : zone.Within limit) (far : operation.Within limit)
    (small : zone.dimension * limit < 2 ^ 58) :
    ((zone.apply operation).Canonical ∨ (zone.apply operation).isEmpty = true) ∧
      ∀ after, (zone.apply operation).Contains after ↔
        ∃ before, zone.Contains before ∧ operation.Yields zone.clocks before after := by
  have lt := limit_lt_of_small (small.trans (by decide))
  have square := square_changed canonical.square operation
  have within' := within.changed lt far
  have small' : (zone.changed operation).dimension * (2 * limit) < 2 ^ 59 := by
    rw [dimension, clocks_changed, Nat.mul_left_comm]
    unfold dimension at small
    omega
  have moderate := far.moderate lt
  constructor
  · cases nonempty : (zone.apply operation).isEmpty with
    | true => exact .inr rfl
    | false =>
        left
        rw [apply_eq] at nonempty ⊢
        apply within'.canonical_canonize square small' _ nonempty
        intro index isIndex
        by_cases tracked : operation.clocks ⊆ zone.clocks
        · rw [dimension, clocks_changed] at isIndex
          exact canonical.diagonal_changed moderate tracked isIndex
        · rw [changed_of_untracked tracked] at isIndex ⊢
          exact canonical.diagonal isIndex
  · intro after
    rw [apply_eq, within'.contains_canonize_iff square small']
    by_cases tracked : operation.clocks ⊆ zone.clocks
    · simp only [ClockOperation.yields_iff_leads tracked]
      exact canonical.contains_changed_iff nodup moderate tracked
    · simp only [ClockOperation.yields_iff_eq tracked, changed_of_untracked tracked]
      simp

end Zone

end AbstractionRefinement
