import AbstractionRefinement.Proofs.ZoneStates

/-!
# Inclusion of zones

The bounds of a canonical zone are the least ones that its valuations obey, so comparing bounds
decides inclusion.  A zone that shows a contradiction is included in every other one.  No zone
that the analysis reaches does, and none has entries outside its matrix: on the states that are
reached, inclusion is a partial order.
-/

namespace AbstractionRefinement

namespace Zone

variable {zone other third : Zone}

theorem Below.refl (zone : Zone) : zone.Below zone where
  clocks_eq := rfl
  get_le _ _ := Int.le_refl _

theorem Below.trans (below : zone.Below other) (below' : other.Below third) : zone.Below third where
  clocks_eq := below.clocks_eq.trans below'.clocks_eq
  get_le isRow isColumn := Int.le_trans (below.get_le isRow isColumn)
    (below'.get_le (below.dimension_eq ▸ isRow) (below.dimension_eq ▸ isColumn))

theorem Square.entry (square : zone.Square) {row column : Nat} (isRow : row < zone.dimension)
    (isColumn : column < zone.dimension) :
    (zone.rows[row]?.bind fun entries => entries[column]?) = some (zone.get row column) := by
  have inside : row < zone.rows.length := square.rows ▸ isRow
  have inside' : column < zone.rows[row].length :=
    square.columns _ (List.getElem_mem inside) ▸ isColumn
  simp [get, List.getElem?_eq_getElem inside, List.getElem?_eq_getElem inside',
    List.getD_eq_getElem?_getD]

/-- A square matrix is given by its entries. -/
theorem Square.ext (square : zone.Square) (square' : other.Square)
    (sameClocks : zone.clocks = other.clocks)
    (sameEntries : ∀ row < zone.dimension, ∀ column < zone.dimension,
      zone.get row column = other.get row column) : zone = other := by
  have sameDimension : zone.dimension = other.dimension := by
    rw [dimension, sameClocks, dimension]
  have sameRows : zone.rows = other.rows := by
    apply List.ext_getElem (by rw [square.rows, square'.rows, sameDimension])
    intro row inside inside'
    have isRow : row < zone.dimension := square.rows ▸ inside
    have width := square.columns _ (List.getElem_mem inside)
    have width' := square'.columns _ (List.getElem_mem inside')
    apply List.ext_getElem (by rw [width, width', sameDimension])
    intro column inRow inRow'
    have isColumn : column < zone.dimension := width ▸ inRow
    have entry := square.entry isRow isColumn
    have entry' := square'.entry (sameDimension ▸ isRow) (sameDimension ▸ isColumn)
    rw [← sameEntries row isRow column isColumn, ← entry] at entry'
    simpa [List.getElem?_eq_getElem inside, List.getElem?_eq_getElem inside',
      List.getElem?_eq_getElem inRow, List.getElem?_eq_getElem inRow'] using entry'.symm
  calc zone = ⟨zone.clocks, zone.rows⟩ := rfl
    _ = ⟨other.clocks, other.rows⟩ := by rw [sameClocks, sameRows]

theorem Below.antisymm (below : zone.Below other) (above : other.Below zone)
    (square : zone.Square) (square' : other.Square) : zone = other := by
  refine square.ext square' below.clocks_eq fun row isRow column isColumn => ?_
  exact congrArg Bound.mk (Int.le_antisymm (below.get_le isRow isColumn)
    (above.get_le (below.dimension_eq ▸ isRow) (below.dimension_eq ▸ isColumn)))

theorem leq_refl (zone : Zone) : zone.leq zone = true := by
  cases nonempty : zone.isEmpty with
  | true => simp [leq, nonempty]
  | false => exact (leq_iff_below nonempty).mpr (.refl zone)

theorem leq_trans (leq : zone.leq other = true) (leq' : other.leq third = true) :
    zone.leq third = true := by
  cases nonempty : zone.isEmpty with
  | true => simp [Zone.leq, nonempty]
  | false =>
      have below := (leq_iff_below nonempty).mp leq
      have below' := (leq_iff_below (below.nonempty nonempty)).mp leq'
      exact (leq_iff_below nonempty).mpr (below.trans below')

/-- Comparing bounds decides the inclusion of zones that are canonical or contradictory. -/
theorem leq_iff_subset (either : zone.Canonical ∨ zone.isEmpty = true)
    (either' : other.Canonical ∨ other.isEmpty = true) (sameClocks : zone.clocks = other.clocks)
    (nodup : zone.clocks.Nodup) :
    zone.leq other = true ↔ ∀ valuation, zone.Contains valuation → other.Contains valuation := by
  cases nonempty : zone.isEmpty with
  | true =>
      have contradictory (valuation : ClockValuation) : ¬ zone.Contains valuation := fun contains =>
        absurd contains.nonempty (by simp [nonempty])
      simp [leq, nonempty, contradictory]
  | false =>
      have canonical := either.resolve_right (by simp [nonempty])
      rw [leq_iff_below nonempty]
      constructor
      · intro below valuation contains row isRow column isColumn
        have canonical' := either'.resolve_right (by simp [below.nonempty nonempty])
        have isRow' := Finset.mem_range.mp isRow
        have isColumn' := Finset.mem_range.mp isColumn
        rw [← sameClocks]
        rw [← below.dimension_eq] at isRow isColumn isRow' isColumn'
        exact Bound.differences_subset (below.get_le isRow' isColumn')
          (canonical'.mild row (below.dimension_eq ▸ isRow') column
            (below.dimension_eq ▸ isColumn')).le_infinity
          (contains row isRow column isColumn)
      · intro contained
        obtain ⟨valuation, contains⟩ := exists_contains_of_closed canonical.closed nodup
        have canonical' := either'.resolve_right
          (by simp [(contained valuation contains).nonempty])
        exact ⟨sameClocks, canonical.get_le nodup canonical'.mild sameClocks.symm contained⟩

end Zone

namespace ZoneState

variable {ω α : Type} [ClockAction α] {invariants : List ClockConstraint}
  {constants : Zone.ClockConstants} {tracked : ZonePrecision}
  {admitted : Zone → List ClockOperation → Prop} {state other third : ZoneState}

theorem leq_refl (state : ZoneState) : state.leq state = true := by
  cases state with
  | bottom => rfl
  | zone bounds => exact Zone.leq_refl bounds

theorem leq_trans (leq : state.leq other = true) (leq' : other.leq third = true) :
    state.leq third = true := by
  cases state with
  | bottom => rfl
  | zone first =>
      cases other with
      | bottom => cases leq
      | zone second =>
          cases third with
          | bottom => cases leq'
          | zone third => exact Zone.leq_trans leq leq'

theorem Reached.leq_antisymm (reached : Reached ω α invariants constants tracked admitted state)
    (reached' : Reached ω α invariants constants tracked admitted other)
    (leq : state.leq other = true) (leq' : other.leq state = true) : state = other := by
  have square := reached.square
  have square' := reached'.square
  cases state with
  | bottom =>
      cases other with
      | bottom => rfl
      | zone second => cases leq'
  | zone first =>
      cases other with
      | bottom => cases leq
      | zone second =>
          obtain ⟨nonempty, square, -⟩ := square
          obtain ⟨nonempty', square', -⟩ := square'
          exact congrArg zone (((Zone.leq_iff_below nonempty).mp leq).antisymm
            ((Zone.leq_iff_below nonempty').mp leq') square square')

/-- Comparing states that are reached decides the inclusion of their valuations. -/
theorem Reached.leq_iff_subset {limit : Nat} (nodup : tracked.clocks.Nodup)
    (small : (tracked.clocks.length + 1) * limit < 2 ^ 58)
    (far : ∀ clock ∈ tracked.clocks, ∀ greatest,
      OrderedMap.find? clock constants = some greatest →
        -(limit : Int) ≤ greatest ∧ greatest ≤ limit)
    (reached : Reached ω α invariants constants tracked (Zone.RunsWithin limit) state)
    (reached' : Reached ω α invariants constants tracked (Zone.RunsWithin limit) other) :
    state.leq other = true ↔
      ∀ valuation, state.Contains valuation → other.Contains valuation := by
  have canonical := reached.canonical nodup small far
  have canonical' := reached'.canonical nodup small far
  cases state with
  | bottom => exact ⟨fun _ _ contains => contains.elim, fun _ => rfl⟩
  | zone first =>
      obtain ⟨-, canonical, sameClocks⟩ := canonical
      cases other with
      | bottom =>
          refine ⟨fun leq => (by cases leq), fun contained => ?_⟩
          obtain ⟨valuation, contains⟩ :=
            Zone.exists_contains_of_closed canonical.closed (sameClocks ▸ nodup)
          exact (contained valuation contains).elim
      | zone second =>
          obtain ⟨-, canonical', sameClocks'⟩ := canonical'
          exact Zone.leq_iff_subset (.inl canonical) (.inl canonical')
            (sameClocks.trans sameClocks'.symm) (sameClocks ▸ nodup)

/-- Zones that are canonical or contradictory are compared as their valuations are included in
each other.  On the states that the analysis reaches under a precision, the comparison is a
partial order, and it is the inclusion of valuations. -/
theorem leq_decides_inclusion (ω α : Type) [ClockAction α] :
    (∀ zone other : Zone, (zone.Canonical ∨ zone.isEmpty = true) →
      (other.Canonical ∨ other.isEmpty = true) → zone.clocks = other.clocks →
        zone.clocks.Nodup → (zone.leq other = true ↔
          ∀ valuation, zone.Contains valuation → other.Contains valuation)) ∧
    ∀ (invariants : List ClockConstraint) (constants : Zone.ClockConstants)
      (tracked : ZonePrecision),
      IsPartialOrder {state // Reached ω α invariants constants tracked (fun _ _ => True) state}
        (fun state other => domain.leq tracked state other = true) ∧
      ∀ limit : Nat, tracked.clocks.Nodup → (tracked.clocks.length + 1) * limit < 2 ^ 58 →
        (∀ clock ∈ tracked.clocks, ∀ greatest,
          OrderedMap.find? clock constants = some greatest →
            -(limit : Int) ≤ greatest ∧ greatest ≤ limit) →
        ∀ state other,
          Reached ω α invariants constants tracked (Zone.RunsWithin limit) state →
          Reached ω α invariants constants tracked (Zone.RunsWithin limit) other →
            (domain.leq tracked state other = true ↔
              ∀ valuation, state.Contains valuation → other.Contains valuation) := by
  refine ⟨fun _ _ => Zone.leq_iff_subset, fun invariants constants tracked => ⟨?_, ?_⟩⟩
  · exact {
      refl := fun state => leq_refl state.1
      trans := fun _ _ _ => leq_trans
      antisymm := fun state other leq leq' =>
        Subtype.ext (state.2.leq_antisymm other.2 leq leq') }
  · exact fun limit nodup small far state other => Reached.leq_iff_subset nodup small far

def departure : ControlEdge where
  source := 0
  target := 1
  statements := [.clockGuard (.atMost ⟨"arrived", .rat⟩ 3)]
  formula := .top
  next := .constant 0
  clockOperations := [.guard (.atMost ⟨"arrived", .rat⟩ 3)]

open Zone in
/-- Time has passed since all clocks were zero, and those who leave are among those who stay. -/
theorem guests_leq_decides_inclusion :
    (∀ valuation, (origin guestClocks).Contains valuation →
      ((origin guestClocks).apply .delay).Contains valuation) ∧
    ∃ leaving staying,
      Reached Unit ControlEdge stay [] ⟨guestClocks⟩ (RunsWithin 16) leaving ∧
      Reached Unit ControlEdge stay [] ⟨guestClocks⟩ (RunsWithin 16) staying ∧
      (∀ valuation, leaving.Contains valuation → staying.Contains valuation) ∧
      ¬ ∀ valuation, staying.Contains valuation → leaving.Contains valuation := by
  obtain ⟨zones, states⟩ := leq_decides_inclusion Unit ControlEdge
  have canonical := canonical_origin guestClocks
  have nodup : guestClocks.Nodup := by decide
  constructor
  · have far : ClockOperation.delay.Within 1 := trivial
    have delayed := (canonical.apply_exact nodup (within_origin _ 1) far (by decide)).1
    exact (zones _ _ (.inl canonical) delayed (clocks_apply ..).symm nodup).mp (by decide +kernel)
  · have staying : Reached Unit ControlEdge stay [] ⟨guestClocks⟩ (RunsWithin 16) _ :=
      .of_initialZone () (by decide +kernel) (by decide +kernel)
    have early : applyAll (initialZone stay ⟨guestClocks⟩) departure.clockOperations =
        some ((initialZone stay ⟨guestClocks⟩).apply (.guard (.atMost ⟨"arrived", .rat⟩ 3))) := by
      decide +kernel
    have leaving := staying.of_applyAll () departure early (by decide +kernel)
    have inclusion := (states stay [] ⟨guestClocks⟩).2 16 nodup (by decide) fun _ _ _ found => by
      cases found
    refine ⟨_, _, leaving, staying, (inclusion _ _ leaving staying).mp (by decide +kernel), ?_⟩
    exact fun contained =>
      absurd ((inclusion _ _ staying leaving).mpr contained) (by decide +kernel)

end ZoneState

end AbstractionRefinement
