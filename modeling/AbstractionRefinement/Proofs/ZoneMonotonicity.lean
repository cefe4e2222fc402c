import AbstractionRefinement.Proofs.BoundWords
import AbstractionRefinement.Proofs.ZoneMatrices

/-!
# Monotonicity of zones

A matrix is below another one if each of its bounds is at most the other one's.  As long
as bounds stay far from the ends of the machine range, every operation on zones is
monotone in this order: constraints, resets, the passing of time, the canonical form and
the extrapolation with any constants, of which emptiness tests are antitone.  So are
sequences of operations.
-/

namespace AbstractionRefinement

namespace Bound

variable {bound first second first' second' : Bound}

/-- There is no limit, or its constant is far from the ends of the machine range. -/
def Mild (bound : Bound) : Prop :=
  bound = infinity ∨ -2305843009213693952 ≤ bound.code ∧ bound.code ≤ 2305843009213693952

instance (bound : Bound) : Decidable bound.Mild :=
  inferInstanceAs (Decidable (_ ∨ _))

theorem Mild.le_infinity (mild : bound.Mild) : bound ≤ infinity := by
  rcases mild with rfl | ⟨-, upper⟩
  · exact Int.le_refl _
  · show bound.code ≤ maxInt64
    unfold maxInt64
    omega

theorem Mild.ne_infinity (mild : second.Mild) (finite : second ≠ infinity) (le : first ≤ second) :
    first ≠ infinity := by
  rintro rfl
  obtain ⟨-, upper⟩ := mild.resolve_left finite
  have le' : maxInt64 ≤ second.code := le
  unfold maxInt64 at le'
  omega

/-- The sum of the constants is one that a bound can have, unless one of the bounds has no
limit. -/
def SumFits (first second : Bound) : Prop :=
  first = infinity ∨ second = infinity ∨
    -4611686018427387904 ≤ first.constant + second.constant ∧
      first.constant + second.constant < 4611686018427387903

instance (first second : Bound) : Decidable (first.SumFits second) :=
  inferInstanceAs (Decidable (_ ∨ _ ∨ _))

theorem Mild.sumFits (mild : first.Mild) (mild' : second.Mild) : first.SumFits second := by
  rcases mild with infinite | ⟨lower, upper⟩
  · exact .inl infinite
  · rcases mild' with infinite' | ⟨lower', upper'⟩
    · exact .inr (.inl infinite')
    · refine .inr (.inr ?_)
      unfold constant
      omega

/-- The word of a sum of limits. -/
theorem code_add (fits : first.SumFits second) (finite : first ≠ infinity)
    (finite' : second ≠ infinity) : (first.add second).code =
      2 * (first.code / 2 + second.code / 2) +
        if first.code % 2 = 0 ∨ second.code % 2 = 0 then 0 else 1 := by
  have sum := (fits.resolve_left finite).resolve_left finite'
  have kept : unpacked (first.constant + second.constant) = first.constant + second.constant :=
    unpacked_eq_self_iff.mpr ⟨sum.1, Int.le_of_lt sum.2⟩
  have limits : ¬ (first.isInfinite || second.isInfinite) = true := by
    rw [Bool.or_eq_true, isInfinite_iff, isInfinite_iff]
    exact not_or.mpr ⟨finite, finite'⟩
  unfold add
  rw [if_neg limits, code_new, kept]
  unfold isStrict constant
  by_cases strict : first.code % 2 = 0 <;> by_cases strict' : second.code % 2 = 0 <;>
    simp [strict, strict']

theorem add_mono (mild : first.Mild) (mild' : second.Mild) (mildAbove : first'.Mild)
    (mildAbove' : second'.Mild) (le : first ≤ first') (le' : second ≤ second') :
    first.add second ≤ first'.add second' := by
  by_cases infinite : first' = infinity ∨ second' = infinity
  · rw [add_of_infinity infinite]
    exact add_le_infinity first second
  · obtain ⟨finite, finite'⟩ := not_or.mp infinite
    have codes : first.code ≤ first'.code := le
    have codes' : second.code ≤ second'.code := le'
    show (first.add second).code ≤ (first'.add second').code
    rw [code_add (mildAbove.sumFits mildAbove') finite finite',
      code_add (mild.sumFits mild') (mildAbove.ne_infinity finite le)
        (mildAbove'.ne_infinity finite' le')]
    split <;> split <;> omega

theorem mild_atMost {value : Int} (lower : -1000000000000000000 ≤ value)
    (upper : value ≤ 1000000000000000000) : (atMost value).Mild := by
  right
  have fits : FitsInt64 (2 * value) := by
    unfold FitsInt64 minInt64 maxInt64
    omega
  unfold atMost
  rw [wrapInt64_of_fits fits]
  dsimp only
  omega

end Bound

/-- The value of a reset is far from the ends of the machine range. -/
def ClockOperation.Mild : ClockOperation → Prop
  | .reset _ value => -1000000000000000000 ≤ value ∧ value ≤ 1000000000000000000
  | _ => True

instance (operation : ClockOperation) : Decidable operation.Mild := by
  cases operation <;> unfold ClockOperation.Mild <;> infer_instance

namespace Zone

variable {zone other : Zone} {row column via : Nat} {constants : ClockConstants}

/-- Every bound is at most the other one's. -/
structure Below (zone other : Zone) : Prop where
  clocks_eq : zone.clocks = other.clocks
  get_le {row column : Nat} : row < zone.dimension → column < zone.dimension →
    zone.get row column ≤ other.get row column

theorem Below.dimension_eq (below : zone.Below other) : zone.dimension = other.dimension := by
  rw [dimension, dimension, below.clocks_eq]

/-- No bound is near the ends of the machine range. -/
def Mild (zone : Zone) : Prop :=
  ∀ row < zone.dimension, ∀ column < zone.dimension, (zone.get row column).Mild

instance (zone : Zone) : Decidable zone.Mild :=
  inferInstanceAs (Decidable (∀ row < _, _))

theorem isEmpty_eq_false_iff : zone.isEmpty = false ↔
    ∀ index < zone.dimension, ¬ zone.get index index < .zero := by
  simp [isEmpty]

theorem leq_iff_below (nonempty : zone.isEmpty = false) :
    zone.leq other = true ↔ zone.Below other := by
  unfold leq
  rw [nonempty, Bool.false_or, Bool.and_eq_true, decide_eq_true_iff]
  simp only [List.all_eq_true, List.mem_range, decide_eq_true_iff]
  exact ⟨fun ⟨clocks_eq, get_le⟩ => ⟨clocks_eq, fun inRow => get_le _ inRow _⟩,
    fun below => ⟨below.clocks_eq, fun _ inRow _ => below.get_le inRow⟩⟩

theorem Below.nonempty (below : zone.Below other) (nonempty : zone.isEmpty = false) :
    other.isEmpty = false := by
  rw [isEmpty_eq_false_iff] at nonempty ⊢
  intro index inRange negative
  rw [← below.dimension_eq] at inRange
  have negative' : (other.get index index).code < Bound.zero.code := negative
  exact nonempty index inRange (Int.lt_of_le_of_lt (below.get_le inRange inRange) negative')

theorem Below.mapEntries (below : zone.Below other) {entry entry' : Nat → Nat → Bound → Bound}
    (monotone : ∀ row < zone.dimension, ∀ column < zone.dimension,
      entry row column (zone.get row column) ≤ entry' row column (other.get row column)) :
    (zone.mapEntries entry).Below (other.mapEntries entry') where
  clocks_eq := below.clocks_eq
  get_le inRow inColumn := by
    rw [dimension_mapEntries] at inRow inColumn
    rw [get_mapEntries _ inRow inColumn,
      get_mapEntries _ (below.dimension_eq ▸ inRow) (below.dimension_eq ▸ inColumn)]
    exact monotone _ inRow _ inColumn

theorem sideIndex?_congr (sameClocks : zone.clocks = other.clocks) (side : Option VarDecl) :
    zone.sideIndex? side = other.sideIndex? side := by
  cases side with
  | none => rfl
  | some clock => rw [sideIndex?, sideIndex?, indexOf?, indexOf?, sameClocks]

theorem Below.constrain (below : zone.Below other) (constraint : ClockConstraint) :
    (zone.constrain constraint).Below (other.constrain constraint) := by
  unfold Zone.constrain
  rw [sideIndex?_congr below.clocks_eq, sideIndex?_congr below.clocks_eq]
  split
  · refine below.mapEntries fun row inRow column inColumn => ?_
    have le : (zone.get row column).code ≤ (other.get row column).code :=
      below.get_le inRow inColumn
    show Bound.code _ ≤ Bound.code _
    have less (first second : Bound) : first < second ↔ first.code < second.code := Iff.rfl
    simp only [less]
    split <;> split <;> omega
  · exact below

theorem Below.up (below : zone.Below other) : zone.up.Below other.up := by
  refine below.mapEntries fun row inRow column inColumn => ?_
  split
  · exact Int.le_refl _
  · exact below.get_le inRow inColumn

/-- A reset adds the value to bounds of the constant zero. -/
theorem Below.reset (below : zone.Below other) (mild : zone.Mild) (mild' : other.Mild)
    (clock : VarDecl) {value : Int} (lower : -1000000000000000000 ≤ value)
    (upper : value ≤ 1000000000000000000) :
    (zone.reset clock value).Below (other.reset clock value) := by
  have sameIndex : zone.indexOf? clock = other.indexOf? clock := by
    rw [indexOf?, indexOf?, below.clocks_eq]
  have origin : 0 < zone.dimension := Nat.succ_pos _
  have sameDimension := below.dimension_eq
  have mildValue := Bound.mild_atMost lower upper
  have mildOpposite : (Bound.atMost (-value)).Mild :=
    Bound.mild_atMost (by omega) (by omega)
  unfold Zone.reset
  rw [sameIndex]
  split
  · exact below
  · refine below.mapEntries fun row inRow column inColumn => ?_
    split
    · exact Int.le_refl _
    · split
      · exact Bound.add_mono mildValue (mild 0 origin column inColumn) mildValue
          (mild' 0 (sameDimension ▸ origin) column (sameDimension ▸ inColumn)) (Int.le_refl _)
          (below.get_le origin inColumn)
      · split
        · exact Bound.add_mono (mild row inRow 0 origin) mildOpposite
            (mild' row (sameDimension ▸ inRow) 0 (sameDimension ▸ origin)) mildOpposite
            (below.get_le inRow origin) (Int.le_refl _)
        · exact below.get_le inRow inColumn

theorem weakenedBound_le_infinity {bound : Bound} (upper lower : Option Int) (row column : Nat)
    (mild : bound.Mild) : weakenedBound upper lower row column bound ≤ .infinity := by
  unfold weakenedBound
  split
  · exact mild.le_infinity
  · split
    · exact Int.le_refl _
    · split
      · split
        · exact Bound.new_le_infinity _ true
        · exact mild.le_infinity
      · exact mild.le_infinity

/-- Forgetting bounds beyond constants is monotone for all constants. -/
theorem weakenedBound_mono {bound bound' : Bound} (upper lower : Option Int) (row column : Nat)
    (mild : bound.Mild) (mild' : bound'.Mild) (le : bound ≤ bound') :
    weakenedBound upper lower row column bound ≤ weakenedBound upper lower row column bound' := by
  by_cases diagonal : row = column
  · unfold weakenedBound
    rw [if_pos (.inl diagonal), if_pos (.inl diagonal)]
    exact le
  by_cases infinite : bound' = .infinity
  · have same : weakenedBound upper lower row column bound' = .infinity := by
      unfold weakenedBound
      rw [if_pos (.inr (Bound.isInfinite_iff.mpr infinite)), infinite]
    rw [same]
    exact weakenedBound_le_infinity upper lower row column mild
  have finite := mild'.ne_infinity infinite le
  have codes : bound.code ≤ bound'.code := le
  have limited {limit : Bound} (limit_finite : limit ≠ .infinity) :
      ¬ (row = column ∨ limit.isInfinite = true) :=
    not_or.mpr ⟨diagonal, mt Bound.isInfinite_iff.mp limit_finite⟩
  by_cases exceeds : upper.any fun greatest => row ≠ 0 && Bound.atMost greatest < bound'
  · have same : weakenedBound upper lower row column bound' = .infinity := by
      unfold weakenedBound
      rw [if_neg (limited infinite), if_pos exceeds]
    rw [same]
    exact weakenedBound_le_infinity upper lower row column mild
  · have exceeds' : ¬ upper.any (fun greatest => row ≠ 0 && Bound.atMost greatest < bound) := by
      cases upper with
      | none => exact exceeds
      | some greatest =>
          simp only [Option.any_some, Bool.and_eq_true, decide_eq_true_iff] at exceeds ⊢
          rintro ⟨clock, above⟩
          have above' : (Bound.atMost greatest).code < bound.code := above
          exact exceeds ⟨clock, Int.lt_of_lt_of_le above' codes⟩
    unfold weakenedBound
    rw [if_neg (limited finite), if_neg (limited infinite), if_neg exceeds, if_neg exceeds']
    cases lower with
    | none => exact le
    | some greatest =>
        show Bound.code _ ≤ Bound.code _
        have less (first second : Bound) : first < second ↔ first.code < second.code := Iff.rfl
        simp only [less]
        split <;> split <;> omega

theorem Below.weakened (below : zone.Below other) (mild : zone.Mild) (mild' : other.Mild)
    (constants : ClockConstants) : (zone.weakened constants).Below (other.weakened constants) := by
  have sameDimension := below.dimension_eq
  refine below.mapEntries fun row inRow column inColumn => ?_
  rw [constantAt_congr below.clocks_eq, constantAt_congr below.clocks_eq]
  exact weakenedBound_mono _ _ row column (mild row inRow column inColumn)
    (mild' row (sameDimension ▸ inRow) column (sameDimension ▸ inColumn))
    (below.get_le inRow inColumn)

theorem tighterBound_mono {first second first' second' : Bound} (le : first ≤ first')
    (le' : second ≤ second') : tighterBound first second ≤ tighterBound first' second' := by
  have codes : first.code ≤ first'.code := le
  have codes' : second.code ≤ second'.code := le'
  show Bound.code _ ≤ Bound.code _
  unfold tighterBound
  have less (first second : Bound) : first < second ↔ first.code < second.code := Iff.rfl
  simp only [less]
  split <;> split <;> omega

theorem tighterBound_le (first second : Bound) : tighterBound first second ≤ second := by
  show Bound.code _ ≤ Bound.code _
  unfold tighterBound
  split
  case isTrue less => exact Int.le_of_lt less
  case isFalse => exact Int.le_refl _

/-- Tightening a row by detours.  A row without a detour on one side has none on the other
side either, or is tightened on the lower side only. -/
theorem Below.relaxRow (below : zone.Below other) (square : zone.Square) (square' : other.Square)
    (mild : zone.Mild) (mild' : other.Mild) (inVia : via < zone.dimension)
    (inRow : row < zone.dimension) : (zone.relaxRow via row).Below (other.relaxRow via row) where
  clocks_eq := by
    rw [clocks_relaxRow, clocks_relaxRow, below.clocks_eq]
  get_le {index column} inIndex inColumn := by
    rw [dimension_relaxRow] at inIndex inColumn
    have inVia' := below.dimension_eq ▸ inVia
    have inRow' := below.dimension_eq ▸ inRow
    have inColumn' := below.dimension_eq ▸ inColumn
    rw [get_relaxRow square inRow inVia inColumn, get_relaxRow square' inRow' inVia' inColumn']
    have le := below.get_le inRow inVia
    split
    case isTrue tightened =>
      obtain ⟨rfl, -⟩ := tightened
      split
      · exact tighterBound_mono (Bound.add_mono (mild _ inRow _ inVia) (mild _ inVia _ inColumn)
          (mild' _ inRow' _ inVia') (mild' _ inVia' _ inColumn') le
          (below.get_le inVia inColumn)) (below.get_le inRow inColumn)
      · exact Int.le_trans (tighterBound_le _ _) (below.get_le inRow inColumn)
    case isFalse kept =>
      split
      case isTrue tightened =>
        obtain ⟨rfl, finite⟩ := tightened
        have limited : other.get index via ≠ .infinity := fun infinite => by
          rw [Bound.isInfinite_iff.mpr infinite] at finite
          cases finite
        have limited' := (mild' _ inRow' _ inVia').ne_infinity limited le
        exact absurd ⟨rfl, Bool.eq_false_iff.mpr (mt Bound.isInfinite_iff.mp limited')⟩ kept
      · exact below.get_le inIndex inColumn

/-- No bound comes near the ends of the machine range while rows are relaxed. -/
def RelaxesMildly : Zone → List (Nat × Nat) → Prop
  | zone, [] => zone.Mild
  | zone, step :: steps =>
      zone.Mild ∧ (zone.relaxRow step.1 step.2).RelaxesMildly steps

instance decidableRelaxesMildly :
    (zone : Zone) → (steps : List (Nat × Nat)) → Decidable (zone.RelaxesMildly steps)
  | zone, [] => inferInstanceAs (Decidable zone.Mild)
  | zone, step :: steps =>
      have := decidableRelaxesMildly (zone.relaxRow step.1 step.2) steps
      inferInstanceAs (Decidable (_ ∧ _))

/-- No bound comes near the ends of the machine range on the way to the canonical form. -/
def CanonizesMildly (zone : Zone) : Prop :=
  zone.RelaxesMildly zone.relaxations

instance (zone : Zone) : Decidable zone.CanonizesMildly :=
  decidableRelaxesMildly zone zone.relaxations

/-- Square matrices far from overflow, the first one below the second one. -/
structure MildlyBelow (zone other : Zone) : Prop where
  below : zone.Below other
  square : zone.Square
  square' : other.Square
  mild : zone.Mild
  mild' : other.Mild

/-- Relaxing the same rows on both sides. -/
theorem Below.relaxed (below : zone.Below other) (square : zone.Square) (square' : other.Square)
    {steps : List (Nat × Nat)}
    (inside : ∀ step ∈ steps, step.1 < zone.dimension ∧ step.2 < zone.dimension)
    (mildly : zone.RelaxesMildly steps) (mildly' : other.RelaxesMildly steps) :
    (zone.relaxed steps).MildlyBelow (other.relaxed steps) := by
  induction steps generalizing zone other with
  | nil => exact ⟨below, square, square', mildly, mildly'⟩
  | cons step steps ih =>
      obtain ⟨mild, mildly⟩ := mildly
      obtain ⟨mild', mildly'⟩ := mildly'
      obtain ⟨⟨inVia, inRow⟩, inside⟩ := List.forall_mem_cons.mp inside
      have sameDimension := below.dimension_eq
      refine ih (below.relaxRow square square' mild mild' inVia inRow)
        (square_relaxRow square inRow inVia)
        (square_relaxRow square' (sameDimension ▸ inRow) (sameDimension ▸ inVia)) ?_ mildly mildly'
      rw [dimension_relaxRow]
      exact inside

theorem Below.canonize (below : zone.Below other) (square : zone.Square) (square' : other.Square)
    (mildly : zone.CanonizesMildly) (mildly' : other.CanonizesMildly) :
    zone.canonize.MildlyBelow other.canonize := by
  have sameSteps : zone.relaxations = other.relaxations := by
    rw [relaxations, relaxations, below.dimension_eq]
  rw [canonize_eq, canonize_eq, ← sameSteps]
  unfold CanonizesMildly at mildly'
  rw [← sameSteps] at mildly'
  exact below.relaxed square square' (fun _ => mem_relaxations.mp) mildly mildly'

/-- No bound comes near the ends of the machine range while the operations are applied one
after the other, as long as the matrix is not empty, and the result is extrapolated. -/
def RunsMildly (constants : ClockConstants) : Zone → List ClockOperation → Prop
  | zone, [] => zone.Mild ∧ (zone.weakened constants).CanonizesMildly
  | zone, operation :: operations =>
      zone.Mild ∧ operation.Mild ∧ (zone.changed operation).CanonizesMildly ∧
        ((zone.apply operation).isEmpty = false →
          (zone.apply operation).RunsMildly constants operations)

instance decidableRunsMildly (constants : ClockConstants) :
    (zone : Zone) → (operations : List ClockOperation) →
      Decidable (zone.RunsMildly constants operations)
  | _, [] => inferInstanceAs (Decidable (_ ∧ _))
  | zone, operation :: operations =>
      have := decidableRunsMildly constants (zone.apply operation) operations
      inferInstanceAs (Decidable (zone.Mild ∧ _ ∧ _ ∧ (_ → _)))

theorem RunsMildly.mild {operations : List ClockOperation}
    (mildly : zone.RunsMildly constants operations) : zone.Mild := by
  cases operations <;> exact mildly.1

theorem MildlyBelow.changed (below : zone.MildlyBelow other) {operation : ClockOperation}
    (mild : operation.Mild) : (zone.changed operation).Below (other.changed operation) := by
  cases operation with
  | guard constraint | invariant constraint => exact below.below.constrain constraint
  | reset clock value => exact below.below.reset below.mild below.mild' clock mild.1 mild.2
  | delay => exact below.below.up

/-- A sequence of operations that does not end in an empty matrix does not do so from a
matrix above, and the extrapolated results are in the same order. -/
theorem MildlyBelow.applyAll (below : zone.MildlyBelow other) {operations : List ClockOperation}
    (mildly : zone.RunsMildly constants operations)
    (mildly' : other.RunsMildly constants operations) {result : Zone}
    (applied : ZoneState.applyAll zone operations = some result) :
    ∃ result', ZoneState.applyAll other operations = some result' ∧
      (result.extrapolate constants).Below (result'.extrapolate constants) := by
  induction operations generalizing zone other with
  | nil =>
      cases applied
      refine ⟨other, rfl, ?_⟩
      rw [extrapolate_eq, extrapolate_eq]
      exact ((below.below.weakened below.mild below.mild' constants).canonize
        (square_mapEntries ..) (square_mapEntries ..) mildly.2 mildly'.2).below
  | cons operation operations ih =>
      obtain ⟨-, mild, canonizes, mildly⟩ := mildly
      obtain ⟨-, -, canonizes', mildly'⟩ := mildly'
      have below' := (below.changed mild).canonize (square_changed below.square operation)
        (square_changed below.square' operation) canonizes canonizes'
      rw [← apply_eq, ← apply_eq] at below'
      rw [ZoneState.applyAll] at applied ⊢
      cases nonempty : (zone.apply operation).isEmpty with
      | true =>
          rw [nonempty] at applied
          cases applied
      | false =>
          have nonempty' := below'.below.nonempty nonempty
          rw [nonempty] at applied
          rw [nonempty']
          exact ih below' (mildly nonempty) (mildly' nonempty') applied

end Zone

namespace ZoneState

variable {ω α : Type} [ClockAction α] {invariants : List ClockConstraint}
  {constants : Zone.ClockConstants} {precision : ZonePrecision}

/-- The state can be the source of the action: its matrix is square and not empty, and no
bound comes near the ends of the machine range on the way to the successor. -/
def Regular (constants : Zone.ClockConstants) (operations : List ClockOperation) :
    ZoneState → Prop
  | bottom => True
  | zone bounds =>
      bounds.Square ∧ bounds.isEmpty = false ∧ bounds.RunsMildly constants operations

instance (operations : List ClockOperation) (state : ZoneState) :
    Decidable (state.Regular constants operations) := by
  cases state <;> unfold Regular <;> infer_instance

def following (constants : Zone.ClockConstants) (operations : List ClockOperation) :
    ZoneState → List ZoneState
  | bottom => []
  | zone bounds =>
      match applyAll bounds operations with
      | none => []
      | some result => [ofZone (result.extrapolate constants)]

theorem successors_run (action : α) (state : ZoneState) (world : ω) :
    (analysis invariants constants).successors precision state action world =
      (.ok (following constants (ClockAction.clockOperations action) state), world) := by
  cases state with
  | bottom => rfl
  | zone bounds =>
      simp only [analysis, following]
      cases applyAll bounds (ClockAction.clockOperations action) <;> rfl

theorem leq_ofZone {first second : Zone} (below : first.Below second) :
    (ofZone first).leq (ofZone second) = true := by
  unfold ofZone
  cases nonempty : first.isEmpty with
  | true => rfl
  | false =>
      rw [below.nonempty nonempty]
      exact (Zone.leq_iff_below nonempty).mpr below

/-- The successors of a zone are monotone. -/
theorem following_mono {operations : List ClockOperation} {state other : ZoneState}
    (leq : state.leq other = true) (regular : state.Regular constants operations)
    (regular' : other.Regular constants operations) :
    ∀ next ∈ following constants operations state,
      ∃ next' ∈ following constants operations other, next.leq next' = true := by
  intro next member
  cases state with
  | bottom => cases member
  | zone bounds =>
      cases other with
      | bottom => cases leq
      | zone bounds' =>
          obtain ⟨square, nonempty, mildly⟩ := regular
          obtain ⟨square', -, mildly'⟩ := regular'
          have below : bounds.Below bounds' := (Zone.leq_iff_below nonempty).mp leq
          have mildlyBelow : bounds.MildlyBelow bounds' :=
            ⟨below, square, square', mildly.mild, mildly'.mild⟩
          unfold following at member ⊢
          dsimp only at member ⊢
          cases applied : applyAll bounds operations with
          | none =>
              rw [applied] at member
              cases member
          | some result =>
              rw [applied, List.mem_singleton] at member
              obtain ⟨result', applied', below'⟩ :=
                mildlyBelow.applyAll mildly mildly' applied
              rw [applied']
              exact ⟨_, List.mem_singleton_self _, member ▸ leq_ofZone below'⟩

end ZoneState

end AbstractionRefinement
