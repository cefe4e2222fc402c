import Mathlib.Algebra.Order.Field.Basic
import Mathlib.Algebra.Order.Field.Rat
import AbstractionRefinement.Proofs.ZoneOperations

/-!
# Correctness of the canonical form

The canonical form of a matrix is computed in place, row after row, on machine words.  It is
correct as long as no sum overflows before a contradiction shows: it has the valuations of the
matrix, it shows a contradiction exactly if there are none, and otherwise its bounds are the
least ones that the valuations obey.
-/

namespace AbstractionRefinement

open scoped Pointwise

namespace Zone

open DifferenceSystem

variable {zone : Zone} {steps : List (Nat × Nat)}

/-- No sum overflows while rows are relaxed, until a contradiction shows. -/
def SumsFit : Zone → List (Nat × Nat) → Prop
  | _, [] => True
  | zone, step :: steps => zone.isEmpty = false →
      zone.DetoursFit step.1 step.2 ∧ (zone.relaxRow step.1 step.2).SumsFit steps

instance decidableSumsFit :
    (zone : Zone) → (steps : List (Nat × Nat)) → Decidable (zone.SumsFit steps)
  | _, [] => inferInstanceAs (Decidable True)
  | zone, step :: steps =>
      have := decidableSumsFit (zone.relaxRow step.1 step.2) steps
      inferInstanceAs (Decidable (_ → _ ∧ _))

theorem Representable.relaxRow (representable : zone.Representable) (square : zone.Square)
    {via row : Nat} (isVia : via < zone.dimension) (isRow : row < zone.dimension) :
    (zone.relaxRow via row).Representable := by
  intro index isIndex column isColumn
  rw [dimension_relaxRow] at isIndex isColumn
  rw [get_relaxRow square isRow isVia isColumn]
  split
  · unfold tighterBound
    split
    · exact Bound.fitsInt64_add ..
    · exact representable row isRow column isColumn
  · exact representable index isIndex column isColumn

/-- A run that ends without a contradiction relaxes the difference system. -/
theorem SumsFit.relaxed (fits : zone.SumsFit steps) (square : zone.Square)
    (representable : zone.Representable)
    (inside : ∀ step ∈ steps, step.1 < zone.dimension ∧ step.2 < zone.dimension)
    (nonempty : (zone.relaxed steps).isEmpty = false) :
    Relaxed zone.dimension steps zone.system (zone.relaxed steps).system ∧
      (zone.relaxed steps).Representable := by
  induction steps generalizing zone with
  | nil => exact ⟨.nil _, representable⟩
  | cons step steps ih =>
      obtain ⟨detours, fits⟩ := fits ((below_relaxed square inside).nonempty nonempty)
      obtain ⟨⟨isVia, isRow⟩, inside⟩ := List.forall_mem_cons.mp inside
      have sameDimension : (zone.relaxRow step.1 step.2).dimension = zone.dimension :=
        dimension_relaxRow zone step.2 step.1
      obtain ⟨rest, representable'⟩ := ih fits (square_relaxRow square isRow isVia)
        (representable.relaxRow square isVia isRow) (by rwa [sameDimension]) nonempty
      rw [sameDimension] at rest
      exact ⟨.cons isVia isRow (relaxes_relaxRow square representable isVia isRow detours) rest,
        representable'⟩

/-- A run changes no solutions.  Once a contradiction shows there are none, whatever the words
of the other entries become. -/
theorem SumsFit.admits_relaxed_iff (fits : zone.SumsFit steps) (square : zone.Square)
    (representable : zone.Representable)
    (inside : ∀ step ∈ steps, step.1 < zone.dimension ∧ step.2 < zone.dimension)
    {values : Nat → ℚ} : (zone.relaxed steps).Admits values ↔ zone.Admits values := by
  induction steps generalizing zone with
  | nil => rfl
  | cons step steps ih =>
      cases nonempty : zone.isEmpty with
      | true =>
          have contradictory : ¬ zone.Admits values := fun admits => by
            simpa [nonempty] using admits.nonempty
          have contradictory' : ¬ (zone.relaxed (step :: steps)).Admits values := fun admits => by
            simpa [nonempty] using (below_relaxed square inside).nonempty admits.nonempty
          simp only [contradictory, contradictory']
      | false =>
          obtain ⟨detours, fits⟩ := fits nonempty
          obtain ⟨⟨isVia, isRow⟩, inside⟩ := List.forall_mem_cons.mp inside
          have relaxes := relaxes_relaxRow square representable isVia isRow detours
          calc (zone.relaxed (step :: steps)).Admits values
              ↔ (zone.relaxRow step.1 step.2).Admits values :=
                ih fits (square_relaxRow square isRow isVia)
                  (representable.relaxRow square isVia isRow)
                  (by rwa [dimension_relaxRow])
            _ ↔ zone.Admits values := by
                unfold Admits
                rw [dimension_relaxRow]
                exact (Relaxed.cons isVia isRow relaxes (.nil _)).solves_iff

section Canonize

variable (square : zone.Square) (representable : zone.Representable)
  (fits : zone.SumsFit zone.relaxations)

include square representable fits

theorem admits_canonize_iff_of_sumsFit {values : Nat → ℚ} :
    zone.canonize.Admits values ↔ zone.Admits values := by
  rw [canonize_eq]
  exact fits.admits_relaxed_iff square representable fun _ => mem_relaxations.mp

theorem contains_canonize_iff {valuation : ClockValuation} :
    zone.canonize.Contains valuation ↔ zone.Contains valuation := by
  unfold Contains
  rw [clocks_canonize]
  exact admits_canonize_iff_of_sumsFit square representable fits

theorem relaxed_canonize_of_sumsFit (nonempty : zone.canonize.isEmpty = false) :
    Relaxed zone.dimension (rounds zone.dimension zone.dimension) zone.system
        zone.canonize.system ∧ zone.canonize.Representable := by
  rw [canonize_eq] at nonempty ⊢
  exact fits.relaxed square representable (fun _ => mem_relaxations.mp) nonempty

theorem closed_canonize (nonempty : zone.canonize.isEmpty = false) :
    zone.canonize.system.Closed zone.canonize.dimension := by
  have relaxed := (relaxed_canonize_of_sumsFit square representable fits nonempty).1
  rw [isEmpty_eq_false_iff_zero_mem] at nonempty
  rw [dimension_canonize] at nonempty ⊢
  exact relaxed.closed nonempty

end Canonize

section Closed

variable {row column : Nat}

/-- A set that has the differences of all valuations has those of all solutions. -/
theorem difference_mem_of_contains (nodup : zone.clocks.Nodup) (isRow : row < zone.dimension)
    (isColumn : column < zone.dimension) {allowed : Set ℚ}
    (implied : ∀ valuation, zone.Contains valuation →
      valuesOf zone.clocks valuation row - valuesOf zone.clocks valuation column ∈ allowed)
    {solution : Nat → ℚ} (admits : zone.Admits solution) :
    solution row - solution column ∈ allowed := by
  have start : solution 0 + -solution 0 = 0 := add_neg_cancel _
  have contains : zone.Contains
      (zone.valuationOf (fun _ => 0) fun index => solution index + -solution 0) :=
    contains_valuationOf nodup (admits.shift (-solution 0)) start
  have member := implied _ contains
  rwa [valuesOf_valuationOf nodup start isRow, valuesOf_valuationOf nodup start isColumn,
    add_sub_add_right_eq_sub] at member

variable (closed : zone.system.Closed zone.dimension) (representable : zone.Representable)
  (isRow : row < zone.dimension) (isColumn : column < zone.dimension)

include closed representable isRow isColumn

theorem get_le_add_of_closed {via : Nat} (isVia : via < zone.dimension)
    (fits : (zone.get row via).SumFits (zone.get via column)) :
    zone.get row column ≤ (zone.get row via).add (zone.get via column) := by
  apply Bound.le_of_differences_subset (representable.le_infinity isRow isColumn)
  rw [Bound.differences_add fits]
  exact closed.triangle isRow isVia isColumn

/-- The bounds of a closed matrix are the least ones that its valuations obey. -/
theorem get_le_iff_of_closed (nodup : zone.clocks.Nodup)
    (diagonal : ∀ index < zone.dimension, zone.system.limit index index ⊆ Set.Iic 0)
    {bound : Bound} (limited : bound ≤ .infinity) :
    zone.get row column ≤ bound ↔ ∀ valuation, zone.Contains valuation →
      valuesOf zone.clocks valuation row - valuesOf zone.clocks valuation column ∈
        bound.differences := by
  constructor
  · intro le valuation contains
    apply Bound.differences_subset le limited
    exact contains row (Finset.mem_range.mpr isRow) column (Finset.mem_range.mpr isColumn)
  · intro implied
    apply Bound.le_of_differences_subset (representable.le_infinity isRow isColumn)
    apply closed.limit_subset diagonal isRow isColumn (Bound.isLowerSet_differences bound)
    intro solution solves
    exact difference_mem_of_contains nodup isRow isColumn implied solves

end Closed

theorem limit_subset_of_le_zero {index : Nat} (le : zone.get index index ≤ .zero) :
    zone.system.limit index index ⊆ Set.Iic 0 := by
  rw [← Bound.differences_zero]
  exact Bound.differences_subset le (by decide)

/-- Unless a sum overflows before a contradiction shows, the canonical form has the valuations
of the matrix, shows a contradiction exactly if there are none, and otherwise satisfies the
triangle inequality with bounds that are the least ones which the valuations obey. -/
theorem canonize_correct (square : zone.Square) (nodup : zone.clocks.Nodup)
    (representable : zone.Representable)
    (diagonal : ∀ index < zone.dimension, zone.get index index ≤ .zero)
    (fits : zone.SumsFit zone.relaxations) :
    (∀ valuation, zone.canonize.Contains valuation ↔ zone.Contains valuation) ∧
    (zone.canonize.isEmpty = true ↔ ∀ valuation, ¬ zone.Contains valuation) ∧
    (zone.canonize.isEmpty = false → ∀ row < zone.dimension, ∀ column < zone.dimension,
      (∀ via < zone.dimension,
        (zone.canonize.get row via).SumFits (zone.canonize.get via column) →
          zone.canonize.get row column ≤
            (zone.canonize.get row via).add (zone.canonize.get via column)) ∧
      ∀ bound ≤ Bound.infinity, zone.canonize.get row column ≤ bound ↔
        ∀ valuation, zone.Contains valuation →
          valuesOf zone.clocks valuation row - valuesOf zone.clocks valuation column ∈
            bound.differences) := by
  have same (valuation : ClockValuation) :
      zone.canonize.Contains valuation ↔ zone.Contains valuation :=
    contains_canonize_iff square representable fits
  have nodup' : zone.canonize.clocks.Nodup := by rwa [clocks_canonize]
  refine ⟨same, ?_, ?_⟩
  · constructor
    · intro empty valuation contains
      simpa [empty] using ((same valuation).mpr contains).nonempty
    · intro none
      by_contra nonempty
      have closed := closed_canonize square representable fits (Bool.eq_false_iff.mpr nonempty)
      obtain ⟨valuation, contains⟩ := exists_contains_of_closed closed nodup'
      exact none valuation ((same valuation).mp contains)
  · intro nonempty row isRow column isColumn
    have closed := closed_canonize square representable fits nonempty
    obtain ⟨relaxed, representable'⟩ :=
      relaxed_canonize_of_sumsFit square representable fits nonempty
    have diagonal' : ∀ index < zone.canonize.dimension,
        zone.canonize.system.limit index index ⊆ Set.Iic 0 := by
      intro index isIndex
      rw [dimension_canonize] at isIndex
      exact (relaxed.subset isIndex isIndex).trans (limit_subset_of_le_zero (diagonal index isIndex))
    rw [← dimension_canonize zone] at isRow isColumn
    constructor
    · intro via isVia sumFits
      rw [← dimension_canonize zone] at isVia
      exact get_le_add_of_closed closed representable' isRow isColumn isVia sumFits
    · intro bound limited
      have least := get_le_iff_of_closed closed representable' isRow isColumn nodup' diagonal'
        limited
      simpa only [same, clocks_canonize] using least

def guestClocks : List VarDecl :=
  [⟨"arrived", .rat⟩, ⟨"served", .rat⟩]

def dinner : Zone :=
  ((top guestClocks).constrain (.below ⟨"arrived", .rat⟩ 5)).constrain
    (.atLeast ⟨"served", .rat⟩ 2)

/-- They were served less than three hours after they arrived, which no bound says. -/
theorem dinner_canonize_correct : dinner.SumsFit dinner.relaxations ∧
    dinner.get 1 2 = .infinity ∧ (∃ valuation, dinner.Contains valuation) ∧
    ∀ valuation, dinner.Contains valuation →
      valuesOf dinner.clocks valuation 1 - valuesOf dinner.clocks valuation 2 ∈
        (Bound.below 3).differences := by
  have fits : dinner.SumsFit dinner.relaxations := by decide +kernel
  have square : dinner.Square := by decide +kernel
  obtain ⟨-, empty, least⟩ := canonize_correct square (by decide +kernel) (by decide +kernel)
    (by decide +kernel) fits
  have nonempty : dinner.canonize.isEmpty = false := by decide +kernel
  refine ⟨fits, by decide +kernel, ?_, ?_⟩
  · by_contra none
    simpa [nonempty] using empty.mpr (not_exists.mp none)
  · have bound := (least nonempty 1 (by decide) 2 (by decide)).2 (.below 3) (by decide)
    exact bound.mp (by decide +kernel)

end Zone

end AbstractionRefinement
