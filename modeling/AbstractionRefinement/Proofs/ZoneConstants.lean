import Mathlib.Tactic.Ring
import AbstractionRefinement.Proofs.ZoneClosure

/-!
# How far constants can grow

While rows are relaxed and no contradiction shows, every bound is the sum along some walk that
visits no clock twice.  So the constants of a matrix with small ones grow at most by a factor
that is the number of its rows, and no sum overflows.
-/

namespace AbstractionRefinement

open scoped Pointwise

/-- All differences are allowed, or those up to a number of at most the given size. -/
def Spans (size : ℚ) (allowed : Set ℚ) : Prop :=
  allowed = Set.univ ∨ Set.Iio (-size) ⊆ allowed ∧ allowed ⊆ Set.Iic size

namespace Spans

variable {size size' : ℚ} {allowed allowed' : Set ℚ}

theorem nonempty (spans : Spans size allowed) : allowed.Nonempty := by
  rcases spans with rfl | ⟨lower, -⟩
  · exact Set.univ_nonempty
  · exact Set.nonempty_Iio.mono lower

theorem mono (spans : Spans size allowed) (le : size ≤ size') : Spans size' allowed := by
  apply spans.imp_right
  rintro ⟨lower, upper⟩
  exact ⟨(Set.Iio_subset_Iio (neg_le_neg le)).trans lower,
    upper.trans (Set.Iic_subset_Iic.mpr le)⟩

theorem add (spans : Spans size allowed) (spans' : Spans size' allowed') :
    Spans (size + size') (allowed + allowed') := by
  rcases id spans with rfl | ⟨lower, upper⟩
  · exact .inl (Set.univ_add spans'.nonempty)
  rcases id spans' with rfl | ⟨lower', upper'⟩
  · exact .inl (Set.add_univ spans.nonempty)
  right
  constructor
  · rw [neg_add, ← Iio_add_Iio]
    exact Set.add_subset_add lower lower'
  · rw [← Iic_add_Iic]
    exact Set.add_subset_add upper upper'

theorem inter (spans : Spans size allowed) (spans' : Spans size allowed') :
    Spans size (allowed ∩ allowed') := by
  rcases spans with rfl | ⟨lower, upper⟩
  · rwa [Set.univ_inter]
  · right
    constructor
    · rcases spans' with rfl | ⟨lower', -⟩
      · rwa [Set.inter_univ]
      · exact Set.subset_inter lower lower'
    · exact Set.inter_subset_left.trans upper

end Spans

section HalfLines

variable {limit : Nat} {value : Int}

theorem spans_Iic (lower : -(limit : Int) ≤ value) (upper : value ≤ limit) :
    Spans limit (Set.Iic (value : ℚ)) := by
  right
  constructor
  · exact Set.Iio_subset_Iic (by exact_mod_cast lower)
  · exact Set.Iic_subset_Iic.mpr (by exact_mod_cast upper)

theorem spans_Iio (lower : -(limit : Int) ≤ value) (upper : value ≤ limit) :
    Spans limit (Set.Iio (value : ℚ)) := by
  right
  constructor
  · exact Set.Iio_subset_Iio (by exact_mod_cast lower)
  · exact Set.Iio_subset_Iic (by exact_mod_cast upper)

end HalfLines

namespace DifferenceSystem

variable {base after : DifferenceSystem} {dimension count : Nat} {size : ℚ}

/-- The size grows with the number of steps of a walk. -/
theorem spans_walk
    (spans : ∀ first < dimension, ∀ second < dimension, Spans size (base.limit first second))
    {first last : Nat} {between : List Nat} (isFirst : first < dimension)
    (isLast : last < dimension) (inside : ∀ via ∈ between, via < dimension) :
    Spans ((between.length + 1) * size) (base.walk first between last) := by
  induction between generalizing first with
  | nil => simpa [walk] using spans first isFirst last isLast
  | cons via between ih =>
      obtain ⟨isVia, inside⟩ := List.forall_mem_cons.mp inside
      have sum := (spans first isFirst via isVia).add (ih isVia inside)
      have length : size + (between.length + 1) * size =
          ((via :: between).length + 1) * size := by
        rw [List.length_cons, Nat.cast_succ]
        ring
      rwa [length] at sum

/-- After rounds over some unknowns every limit is that of a walk that visits each of them at
most once, unless there is a contradiction. -/
theorem Relaxed.exists_walk_eq (relaxed : Relaxed dimension (rounds dimension count) base after)
    (inside : count ≤ dimension)
    (zero_mem : ∀ index < dimension, (0 : ℚ) ∈ after.limit index index) {first second : Nat}
    (isFirst : first < dimension) (isSecond : second < dimension) :
    ∃ between : List Nat, between.Nodup ∧ (∀ via ∈ between, via < count) ∧
      after.limit first second = base.walk first between second := by
  have below := relaxed.below_rounds
  have consistent : base.Consistent count :=
    consistent_of_nodup fun index isIndex between nodup visits =>
      have isIndex := isIndex.trans_le inside
      below index isIndex index isIndex between nodup visits (zero_mem index isIndex)
  have above : AboveWalks dimension count base after :=
    relaxed.aboveWalks (fun step member => (mem_rounds.mp member).1)
      (aboveWalks_self dimension count base)
  obtain ⟨between, visits, less⟩ := above first isFirst second isSecond
  obtain ⟨simple, nodup, subset, less'⟩ := consistent.exists_nodup first second between visits
  have visits' : ∀ via ∈ simple, via < count := fun via member => visits via (subset member)
  refine ⟨simple, nodup, visits', ?_⟩
  apply subset_antisymm
  · exact below first isFirst second isSecond simple nodup visits'
  · exact less'.trans less

theorem length_le_of_nodup {list : List Nat} (nodup : list.Nodup)
    (inside : ∀ index ∈ list, index < count) : list.length ≤ count := by
  have subset : list ⊆ List.range count := fun index member =>
    List.mem_range.mpr (inside index member)
  simpa using (nodup.subperm subset).length_le

theorem Relaxed.spans (relaxed : Relaxed dimension (rounds dimension count) base after)
    (inside : count ≤ dimension)
    (zero_mem : ∀ index < dimension, (0 : ℚ) ∈ after.limit index index) (natural : 0 ≤ size)
    (spans : ∀ first < dimension, ∀ second < dimension, Spans size (base.limit first second))
    {first second : Nat} (isFirst : first < dimension) (isSecond : second < dimension) :
    Spans ((count + 1) * size) (after.limit first second) := by
  obtain ⟨between, nodup, visits, same⟩ :=
    relaxed.exists_walk_eq inside zero_mem isFirst isSecond
  have length : (between.length : ℚ) ≤ count := by
    exact_mod_cast length_le_of_nodup nodup visits
  rw [same]
  apply (spans_walk spans isFirst isSecond fun via member =>
    (visits via member).trans_le inside).mono
  gcongr

end DifferenceSystem

namespace Bound

variable {bound first second : Bound} {limit : Nat}

/-- There is no limit, or its constant has at most the given size. -/
def Within (limit : Nat) (bound : Bound) : Prop :=
  bound = infinity ∨ -(limit : Int) ≤ bound.constant ∧ bound.constant ≤ limit

instance (limit : Nat) (bound : Bound) : Decidable (bound.Within limit) :=
  inferInstanceAs (Decidable (_ ∨ _ ∧ _))

theorem within_iff_spans : bound.Within limit ↔ Spans limit bound.differences := by
  by_cases infinite : bound = infinity
  · simp [Within, Spans, infinite, differences_infinity]
  have half (value : Int) : (-(limit : ℚ) ≤ value ↔ -(limit : Int) ≤ value) ∧
      ((value : ℚ) ≤ limit ↔ value ≤ limit) := by
    constructor <;> norm_cast
  have notAll : bound.differences ≠ Set.univ := fun all => by
    have beyond : (bound.constant : ℚ) + 1 ∈ bound.differences := by simp [all]
    rw [differences_of_finite infinite] at beyond
    unfold constant at beyond
    split at beyond <;> simp only [Set.mem_Iio, Set.mem_Iic] at beyond <;> linarith
  simp only [Within, Spans, infinite, notAll, false_or]
  rw [differences_of_finite infinite]
  unfold constant
  split
  · rw [Set.Iio_subset_Iio_iff, Set.Iio_subset_Iic_iff, (half _).1, (half _).2]
  · rw [Set.Iic_subset_Iic, Set.Iio_subset_Iic_iff, (half _).1, (half _).2]

theorem sumFits_of_spans (spans : Spans limit first.differences)
    (spans' : Spans limit second.differences) (small : limit < 2 ^ 61) :
    first.SumFits second := by
  rcases within_iff_spans.mpr spans with infinite | ⟨lower, upper⟩
  · exact .inl infinite
  · rcases within_iff_spans.mpr spans' with infinite' | ⟨lower', upper'⟩
    · exact .inr (.inl infinite')
    · refine .inr (.inr ?_)
      omega

theorem Within.mono {limit' : Nat} (within : bound.Within limit) (le : limit ≤ limit') :
    bound.Within limit' := by
  apply within.imp_right
  rintro ⟨lower, upper⟩
  omega

theorem Within.mild (within : bound.Within limit) (small : limit < 2 ^ 60) : bound.Mild := by
  apply within.imp_right
  unfold constant
  rintro ⟨lower, upper⟩
  omega

end Bound

namespace Zone

open DifferenceSystem

variable {zone : Zone} {limit : Nat}

/-- All bounds have constants of at most the given size. -/
def Within (limit : Nat) (zone : Zone) : Prop :=
  ∀ row < zone.dimension, ∀ column < zone.dimension, (zone.get row column).Within limit

instance (limit : Nat) (zone : Zone) : Decidable (zone.Within limit) :=
  inferInstanceAs (Decidable (∀ row < _, _))

theorem within_iff_spans : zone.Within limit ↔ ∀ row < zone.dimension,
    ∀ column < zone.dimension, Spans limit (zone.system.limit row column) :=
  forall₂_congr fun _ _ => forall₂_congr fun _ _ => Bound.within_iff_spans

theorem Within.mono {limit' : Nat} (within : zone.Within limit) (le : limit ≤ limit') :
    zone.Within limit' :=
  fun row isRow column isColumn => (within row isRow column isColumn).mono le

theorem Within.mild (within : zone.Within limit) (small : limit < 2 ^ 60) : zone.Mild :=
  fun row isRow column isColumn => (within row isRow column isColumn).mild small

theorem sumsFit_of_empty (empty : zone.isEmpty = true) (steps : List (Nat × Nat)) :
    zone.SumsFit steps := by
  cases steps with
  | nil => trivial
  | cons step steps =>
      intro nonempty
      simp [empty] at nonempty

theorem SumsFit.append {steps others : List (Nat × Nat)} (fits : zone.SumsFit steps)
    (rest : (zone.relaxed steps).isEmpty = false → (zone.relaxed steps).SumsFit others) :
    zone.SumsFit (steps ++ others) := by
  induction steps generalizing zone with
  | nil =>
      cases nonempty : zone.isEmpty with
      | true => exact sumsFit_of_empty nonempty others
      | false => exact rest nonempty
  | cons step steps ih =>
      intro nonempty
      obtain ⟨detours, fits⟩ := fits nonempty
      exact ⟨detours, ih fits rest⟩

/-- A round reads rows that are not relaxed yet, and the row of its clock, which does not
change because its bound by itself is not below zero. -/
theorem sumsFit_round (square : zone.Square) (representable : zone.Representable) {via : Nat}
    {rows : List Nat} (isVia : via < zone.dimension) (inside : ∀ row ∈ rows, row < zone.dimension)
    (nodup : rows.Nodup) (small : limit < 2 ^ 61)
    (spans : ∀ index, index ∈ rows ∨ index = via → ∀ column < zone.dimension,
      Spans limit (zone.system.limit index column)) :
    zone.SumsFit (rows.map fun row => (via, row)) := by
  induction rows generalizing zone with
  | nil => trivial
  | cons row rows ih =>
      intro nonempty
      obtain ⟨isRow, inside⟩ := List.forall_mem_cons.mp inside
      obtain ⟨fresh, nodup⟩ := List.nodup_cons.mp nodup
      have detours : zone.DetoursFit via row := fun column isColumn =>
        Bound.sumFits_of_spans (spans row (by simp) via isVia)
          (spans via (by simp) column isColumn) small
      have relaxes := relaxes_relaxRow square representable isVia isRow detours
      refine ⟨detours, ih (square_relaxRow square isRow isVia)
        (representable.relaxRow square isVia isRow)
        (by rwa [dimension_relaxRow]) (by rwa [dimension_relaxRow]) nodup ?_⟩
      rw [dimension_relaxRow]
      intro index isIndex column isColumn
      by_cases same : index = row
      · -- Only the row of the clock itself is read again.
        obtain rfl : index = via := isIndex.resolve_left (same ▸ fresh)
        have kept : zone.system.limit index column ⊆
            zone.system.limit index index + zone.system.limit index column := by
          rw [isEmpty_eq_false_iff_zero_mem] at nonempty
          exact Set.subset_add_right _ (nonempty index isVia)
        subst same
        rw [relaxes.tightened isColumn, Set.inter_eq_left.mpr kept]
        exact spans index (by simp) column isColumn
      · have inRange : index < zone.dimension := by
          rcases isIndex with member | rfl
          · exact inside index member
          · exact isVia
        rw [relaxes.same inRange isColumn same]
        apply spans index _ column isColumn
        rcases isIndex with member | isVia
        · exact .inl (List.mem_cons_of_mem _ member)
        · exact .inr isVia

theorem sumsFit_rounds (square : zone.Square) (representable : zone.Representable)
    (within : zone.Within limit) (small : zone.dimension * limit < 2 ^ 61) {count : Nat}
    (inside : count ≤ zone.dimension) : zone.SumsFit (rounds zone.dimension count) := by
  induction count with
  | zero => trivial
  | succ count ih =>
      have early := ih (Nat.le_of_succ_le inside)
      have inRange : ∀ step ∈ rounds zone.dimension count,
          step.1 < zone.dimension ∧ step.2 < zone.dimension := fun step member =>
        (mem_rounds.mp member).imp_left fun isVia => by omega
      rw [rounds, List.range_succ, List.flatMap_append, List.flatMap_singleton]
      apply early.append
      intro nonempty
      obtain ⟨relaxed, representable'⟩ := early.relaxed square representable inRange nonempty
      rw [isEmpty_eq_false_iff_zero_mem, dimension_relaxed] at nonempty
      have spans {index column : Nat} (isIndex : index < zone.dimension)
          (isColumn : column < zone.dimension) :
          Spans ((count + 1 : Nat) * limit : Nat)
            ((zone.relaxed (rounds zone.dimension count)).system.limit index column) := by
        push_cast
        exact relaxed.spans (Nat.le_of_succ_le inside) nonempty (Nat.cast_nonneg limit)
          (within_iff_spans.mp within) isIndex isColumn
      apply sumsFit_round (square_relaxed square inRange) representable'
        (by rwa [dimension_relaxed]) (by simp) List.nodup_range
        (lt_of_le_of_lt (Nat.mul_le_mul_right limit inside) small)
      rw [dimension_relaxed]
      rintro index (isRow | rfl) column isColumn
      · exact spans (List.mem_range.mp isRow) isColumn
      · exact spans inside isColumn

theorem Within.sumsFit (within : zone.Within limit) (square : zone.Square)
    (representable : zone.Representable) (small : zone.dimension * limit < 2 ^ 61) :
    zone.SumsFit zone.relaxations :=
  sumsFit_rounds square representable within small le_rfl

theorem Within.canonize (within : zone.Within limit) (square : zone.Square)
    (representable : zone.Representable) (small : zone.dimension * limit < 2 ^ 61)
    (nonempty : zone.canonize.isEmpty = false) :
    zone.canonize.Within ((zone.dimension + 1) * limit) := by
  have fits := within.sumsFit square representable small
  obtain ⟨relaxed, -⟩ := relaxed_canonize_of_sumsFit square representable fits nonempty
  rw [isEmpty_eq_false_iff_zero_mem, dimension_canonize] at nonempty
  rw [within_iff_spans, dimension_canonize]
  intro row isRow column isColumn
  push_cast
  exact relaxed.spans le_rfl nonempty (Nat.cast_nonneg limit) (within_iff_spans.mp within) isRow
    isColumn

section Canonize

variable (within : zone.Within limit) (square : zone.Square)
  (small : zone.dimension * limit < 2 ^ 59)

include small in
theorem limit_lt_of_small : limit < 2 ^ 59 :=
  lt_of_le_of_lt (Nat.le_mul_of_pos_left limit (Nat.succ_pos _)) small

include within small

theorem Within.representable : zone.Representable :=
  (within.mild ((limit_lt_of_small small).trans (by decide))).representable

include square

theorem Within.contains_canonize_iff {valuation : ClockValuation} :
    zone.canonize.Contains valuation ↔ zone.Contains valuation :=
  have representable := within.representable small
  Zone.contains_canonize_iff square representable
    (within.sumsFit square representable (small.trans (by decide)))

theorem Within.canonical_canonize
    (diagonal : ∀ index < zone.dimension, zone.system.limit index index ⊆ Set.Iic 0)
    (nonempty : zone.canonize.isEmpty = false) : zone.canonize.Canonical := by
  have representable := within.representable small
  have small' : zone.dimension * limit < 2 ^ 61 := small.trans (by decide)
  have fits := within.sumsFit square representable small'
  obtain ⟨relaxed, -⟩ := relaxed_canonize_of_sumsFit square representable fits nonempty
  have larger : (zone.dimension + 1) * limit < 2 ^ 60 := by
    have le : limit ≤ zone.dimension * limit := Nat.le_mul_of_pos_left limit (Nat.succ_pos _)
    rw [Nat.add_mul, Nat.one_mul]
    omega
  constructor
  · exact square_canonize square
  · exact (within.canonize square representable small' nonempty).mild larger
  · exact closed_canonize square representable fits nonempty
  · intro index isIndex
    rw [dimension_canonize] at isIndex
    exact (relaxed.subset isIndex isIndex).trans (diagonal index isIndex)

end Canonize

end Zone

end AbstractionRefinement
