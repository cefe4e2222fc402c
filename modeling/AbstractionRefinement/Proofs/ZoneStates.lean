import AbstractionRefinement.Proofs.InitialZones
import AbstractionRefinement.Proofs.ZoneExplorers

/-!
# Zone states with small constants

The states that the zone analysis reaches under one precision are those of the initial zone and
of the zones that actions make of a reached one.  While the constants stay far from overflow,
these zones are canonical, and an action makes of a zone what it makes of the valuations in it.
-/

namespace AbstractionRefinement

theorem ClockOperation.Within.mono {operation : ClockOperation} {size limit : Nat}
    (within : operation.Within size) (le : size ≤ limit) : operation.Within limit := by
  cases operation <;> simp only [Within, ClockConstraint.Within] at * <;> omega

namespace Zone

variable {zone result : Zone} {constants : ClockConstants} {limit : Nat}
  {operations : List ClockOperation}

/-- The constants of the operations, and of the zones on the way, have at most the given size, as
long as the zones are not empty. -/
def RunsWithin (limit : Nat) : Zone → List ClockOperation → Prop
  | zone, [] => zone.Within limit
  | zone, operation :: operations => zone.Within limit ∧ operation.Within limit ∧
      ((zone.apply operation).isEmpty = false →
        (zone.apply operation).RunsWithin limit operations)

instance decidableRunsWithin (limit : Nat) :
    (zone : Zone) → (operations : List ClockOperation) →
      Decidable (zone.RunsWithin limit operations)
  | zone, [] => inferInstanceAs (Decidable (zone.Within limit))
  | zone, operation :: operations =>
      have := decidableRunsWithin limit (zone.apply operation) operations
      inferInstanceAs (Decidable (_ ∧ _ ∧ (_ → _)))

/-- The result of a run is canonical, and has the properties of the valuations in the zone that
the operations preserve. -/
theorem Canonical.applyAll_within (canonical : zone.Canonical) (nodup : zone.clocks.Nodup)
    (small : zone.dimension * limit < 2 ^ 58) (runs : zone.RunsWithin limit operations)
    (applied : ZoneState.applyAll zone operations = some result) (holds : ClockValuation → Prop)
    (contained : ∀ valuation, zone.Contains valuation → holds valuation)
    (preserved : ∀ operation ∈ operations, ∀ before after, holds before →
      operation.Yields zone.clocks before after → holds after) :
    result.Canonical ∧ result.clocks = zone.clocks ∧ result.Within limit ∧
      ∀ valuation, result.Contains valuation → holds valuation := by
  induction operations generalizing zone with
  | nil =>
      cases applied
      exact ⟨canonical, rfl, runs, contained⟩
  | cons operation operations ih =>
      obtain ⟨within, far, runs⟩ := runs
      obtain ⟨first, others⟩ := List.forall_mem_cons.mp preserved
      obtain ⟨either, exact_iff⟩ := canonical.apply_exact nodup within far small
      rw [ZoneState.applyAll] at applied
      cases nonempty : (zone.apply operation).isEmpty with
      | true =>
          rw [nonempty] at applied
          cases applied
      | false =>
          rw [nonempty] at applied
          have sameClocks := clocks_apply zone operation
          obtain ⟨canonical', same, within', contained'⟩ :=
            ih (either.resolve_right (by simp [nonempty])) (by rwa [sameClocks])
              (by rwa [dimension, sameClocks]) (runs nonempty) applied
              (fun after contains => by
                obtain ⟨before, inside, yields⟩ := (exact_iff after).mp contains
                exact first before after (contained before inside) yields)
              (by rwa [sameClocks])
          exact ⟨canonical', same.trans sameClocks, within', contained'⟩

/-- A list of operations with small constants keeps constants small: each of them makes these
grow by a factor only. -/
theorem Canonical.runsWithin (canonical : zone.Canonical) (nodup : zone.clocks.Nodup)
    {size : Nat} (within : zone.Within size)
    (far : ∀ operation ∈ operations, operation.Within size)
    (le : (2 * (zone.dimension + 1)) ^ operations.length * size ≤ limit)
    (small : zone.dimension * limit < 2 ^ 58) : zone.RunsWithin limit operations := by
  induction operations generalizing zone size with
  | nil => exact within.mono (by simpa using le)
  | cons operation operations ih =>
      obtain ⟨first, others⟩ := List.forall_mem_cons.mp far
      have factor : 0 < 2 * (zone.dimension + 1) := by omega
      have power : (2 * (zone.dimension + 1)) ^ operations.length *
          (2 * (zone.dimension + 1) * size) ≤ limit := by
        rwa [List.length_cons, pow_succ, mul_assoc] at le
      have grown : 2 * (zone.dimension + 1) * size ≤ limit :=
        (Nat.le_mul_of_pos_left _ (pow_pos factor _)).trans power
      have smaller : size ≤ 2 * (zone.dimension + 1) * size := Nat.le_mul_of_pos_left size factor
      have small' : zone.dimension * size < 2 ^ 58 :=
        (Nat.mul_le_mul_left _ (smaller.trans grown)).trans_lt small
      refine ⟨within.mono (smaller.trans grown), first.mono (smaller.trans grown),
        fun nonempty => ?_⟩
      have sameClocks := clocks_apply zone operation
      have sameDimension : (zone.apply operation).dimension = zone.dimension := by
        rw [dimension, sameClocks, dimension]
      have canonical' := (canonical.apply_exact nodup within first small').1.resolve_right
        (by simp [nonempty])
      have within' : (zone.apply operation).Within (2 * (zone.dimension + 1) * size) := by
        have changed := within.changed (limit_lt_of_small (small'.trans (by decide))) first
        have doubled : (zone.changed operation).dimension * (2 * size) < 2 ^ 59 := by
          rw [dimension, clocks_changed, Nat.mul_left_comm]
          unfold dimension at small'
          omega
        rw [apply_eq] at nonempty ⊢
        have canonized := changed.canonize (square_changed canonical.square operation)
          (changed.representable doubled) (doubled.trans (by decide)) nonempty
        rw [dimension, clocks_changed] at canonized
        exact canonized.mono (by rw [dimension]; linarith)
      exact ih canonical' (by rwa [sameClocks]) within'
        (fun operation member => (others operation member).mono smaller)
        (by rwa [sameDimension]) (by rwa [sameDimension])

/-- Relaxing a row at most doubles the constants. -/
theorem Within.relaxRow (within : zone.Within limit) (square : zone.Square) {via row : Nat}
    (isVia : via < zone.dimension) (isRow : row < zone.dimension) (small : limit < 2 ^ 60) :
    (zone.relaxRow via row).Within (2 * limit) := by
  intro index isIndex column isColumn
  rw [dimension_relaxRow] at isIndex isColumn
  have kept (index : Nat) (isIndex : index < zone.dimension) :
      (zone.get index column).Within (2 * limit) :=
    (within index isIndex column isColumn).mono (by omega)
  rw [get_relaxRow square isRow isVia isColumn]
  split
  · have first := Bound.within_iff_spans.mp (within row isRow via isVia)
    have second := Bound.within_iff_spans.mp (within via isVia column isColumn)
    have sum : ((zone.get row via).add (zone.get via column)).Within (2 * limit) := by
      rw [Bound.within_iff_spans,
        Bound.differences_add (Bound.sumFits_of_spans first second (by omega))]
      push_cast
      rw [two_mul]
      exact first.add second
    unfold tighterBound
    split
    · exact sum
    · exact kept row isRow
  · exact kept index isIndex

theorem Within.relaxesMildly (within : zone.Within limit) (square : zone.Square)
    {steps : List (Nat × Nat)}
    (inside : ∀ step ∈ steps, step.1 < zone.dimension ∧ step.2 < zone.dimension)
    (small : 2 ^ steps.length * limit < 2 ^ 60) : zone.RelaxesMildly steps := by
  induction steps generalizing zone limit with
  | nil => exact within.mild (by simpa using small)
  | cons step steps ih =>
      obtain ⟨⟨isVia, isRow⟩, inside⟩ := List.forall_mem_cons.mp inside
      rw [List.length_cons, pow_succ, mul_assoc] at small
      have smaller : 2 * limit < 2 ^ 60 :=
        (Nat.le_mul_of_pos_left _ (by positivity)).trans_lt small
      refine ⟨within.mild (by omega), ih (within.relaxRow square isVia isRow (by omega))
        (square_relaxRow square isRow isVia) ?_ small⟩
      rwa [dimension_relaxRow]

/-- No bound comes near the ends of the machine range on the way to the canonical form if the
constants are small enough to be doubled once for every row and every clock. -/
theorem Within.canonizesMildly (within : zone.Within limit) (square : zone.Square)
    (small : 2 ^ zone.dimension ^ 2 * limit < 2 ^ 60) : zone.CanonizesMildly := by
  refine within.relaxesMildly square (fun _ => mem_relaxations.mp) ?_
  rwa [relaxations, List.length_flatMap, List.map_congr_left fun _ _ => List.length_map _,
    List.map_const', List.sum_replicate, List.length_range, smul_eq_mul, ← sq]

theorem RunsWithin.appliesMildly (runs : zone.RunsWithin limit operations)
    (square : zone.Square) (small : 2 ^ zone.dimension ^ 2 * (2 * limit) < 2 ^ 60) :
    zone.AppliesMildly operations := by
  induction operations generalizing zone with
  | nil => trivial
  | cons operation operations ih =>
      obtain ⟨within, far, runs⟩ := runs
      have smaller : 2 * limit < 2 ^ 60 :=
        (Nat.le_mul_of_pos_left _ (by positivity)).trans_lt small
      have changed := within.changed (by omega) far
      refine ⟨changed.canonizesMildly (square_changed square operation) ?_, fun nonempty =>
        ih (runs nonempty) (square_apply square operation) ?_⟩
      · rwa [dimension, clocks_changed]
      · rwa [dimension, clocks_apply]

theorem square_applyAll (square : zone.Square)
    (applied : ZoneState.applyAll zone operations = some result) :
    result.Square ∧ result.clocks = zone.clocks := by
  induction operations generalizing zone with
  | nil =>
      cases applied
      exact ⟨square, rfl⟩
  | cons operation operations ih =>
      rw [ZoneState.applyAll] at applied
      split at applied
      · cases applied
      · rw [← clocks_apply zone operation]
        exact ih (square_apply square operation) applied

theorem square_extrapolate (zone : Zone) (constants : ClockConstants) :
    (zone.extrapolate constants).Square := by
  rw [extrapolate_eq]
  exact square_canonize (square_mapEntries ..)

/-- Extrapolation leaves a canonical zone unless the weakened constants are large. -/
theorem Canonical.extrapolate_of_within (canonical : zone.Canonical)
    (weakened : (zone.weakened constants).Within limit) (small : zone.dimension * limit < 2 ^ 59)
    (nonempty : (zone.extrapolate constants).isEmpty = false) :
    (zone.extrapolate constants).Canonical := by
  rw [extrapolate_eq] at nonempty ⊢
  refine weakened.canonical_canonize (square_mapEntries ..) small (fun index isIndex => ?_) nonempty
  have isIndex : index < zone.dimension := isIndex
  have kept : (zone.weakened constants).system.limit index index =
      zone.system.limit index index := by
    show ((zone.weakened constants).get index index).differences = _
    rw [Zone.weakened, get_mapEntries _ isIndex isIndex]
    unfold weakenedBound
    rw [if_pos (.inl rfl)]
    rfl
  rw [kept]
  exact canonical.diagonal isIndex

end Zone

namespace ZoneState

/-- The valuations in the zone of a state. -/
def Contains : ZoneState → ClockValuation → Prop
  | bottom, _ => False
  | zone bounds, valuation => bounds.Contains valuation

/-- The states that the analysis reaches under a precision by any actions, as long as the
operations on the way are admitted. -/
inductive Reached (ω α : Type) [ClockAction α] (invariants : List ClockConstraint)
    (constants : Zone.ClockConstants) (tracked : ZonePrecision)
    (admitted : Zone → List ClockOperation → Prop) : ZoneState → Prop where
  | start {state : ZoneState} {states : List ZoneState} {world after : ω}
      (run : (analysis (α := α) invariants constants).initialStates tracked world =
        (.ok states, after))
      (member : state ∈ states)
      (admits : admitted (.origin tracked.clocks) (Location.delayWithin invariants)) :
      Reached ω α invariants constants tracked admitted state
  | step {state next : ZoneState} {action : α} {states : List ZoneState} {world after : ω}
      (reached : Reached ω α invariants constants tracked admitted state)
      (run : (analysis invariants constants).successors tracked state action world =
        (.ok states, after))
      (member : next ∈ states)
      (admits : state.Everywhere fun bounds =>
        admitted bounds (ClockAction.clockOperations action)) :
      Reached ω α invariants constants tracked admitted next

section Reached

variable {ω α : Type} [ClockAction α] {invariants : List ClockConstraint}
  {constants : Zone.ClockConstants} {tracked : ZonePrecision}
  {admitted : Zone → List ClockOperation → Prop} {state : ZoneState}

theorem Reached.of_initialZone (world : ω)
    (nonempty : (initialZone invariants tracked).isEmpty = false)
    (admits : admitted (.origin tracked.clocks) (Location.delayWithin invariants)) :
    Reached ω α invariants constants tracked admitted
      (.zone (initialZone invariants tracked)) := by
  have run : (analysis (α := α) invariants constants).initialStates tracked world =
      (.ok [.zone (initialZone invariants tracked)], world) := by
    simp only [analysis, ofZone, nonempty]
    rfl
  exact .start run List.mem_cons_self admits

theorem Reached.of_applyAll (world : ω) {bounds result : Zone}
    (reached : Reached ω α invariants constants tracked admitted (.zone bounds)) (action : α)
    (applied : applyAll bounds (ClockAction.clockOperations action) = some result)
    (admits : admitted bounds (ClockAction.clockOperations action)) :
    Reached ω α invariants constants tracked admitted (ofZone (result.extrapolate constants)) := by
  have run : (analysis invariants constants).successors tracked (.zone bounds) action world =
      (.ok [ofZone (result.extrapolate constants)], world) := by
    simp only [analysis, applied]
    rfl
  exact .step reached run List.mem_cons_self admits

theorem everywhere_ofZone {holds : Zone → Prop} {bounds : Zone}
    (nonempty : bounds.isEmpty = false → holds bounds) : (ofZone bounds).Everywhere holds := by
  unfold ofZone
  split
  case isTrue => trivial
  case isFalse notEmpty => exact nonempty (Bool.eq_false_iff.mpr notEmpty)

/-- What holds of the initial zone, and of what admitted operations and the extrapolation make
of a zone for which it holds, holds of all zones that are reached.  None of these is empty. -/
theorem Reached.everywhere {holds : Zone → Prop}
    (start : admitted (.origin tracked.clocks) (Location.delayWithin invariants) →
      (initialZone invariants tracked).isEmpty = false → holds (initialZone invariants tracked))
    (step : ∀ {bounds result : Zone} {operations : List ClockOperation},
      bounds.isEmpty = false → holds bounds → admitted bounds operations →
        applyAll bounds operations = some result →
          (result.extrapolate constants).isEmpty = false → holds (result.extrapolate constants))
    (reached : Reached ω α invariants constants tracked admitted state) :
    state.Everywhere fun bounds => bounds.isEmpty = false ∧ holds bounds := by
  induction reached with
  | @start state states world after run member admits =>
      have listed : state = ofZone (initialZone invariants tracked) := by
        simp only [analysis] at run
        cases known : ofZone (initialZone invariants tracked) with
        | bottom =>
            rw [known] at run
            cases run
            cases member
        | zone bounds =>
            rw [known] at run
            cases run
            exact List.mem_singleton.mp member
      rw [listed]
      exact everywhere_ofZone fun nonempty => ⟨nonempty, start admits nonempty⟩
  | @step state next action states world after reached run member admits ih =>
      rw [successors_run] at run
      cases run
      cases state with
      | bottom => cases member
      | zone bounds =>
          obtain ⟨nonempty, holdsBefore⟩ := ih
          unfold following at member
          dsimp only at member
          split at member
          case h_1 => cases member
          case h_2 result applied =>
            rw [List.mem_singleton.mp member]
            exact everywhere_ofZone fun nonempty' =>
              ⟨nonempty', step nonempty holdsBefore admits applied nonempty'⟩

theorem Reached.square (reached : Reached ω α invariants constants tracked admitted state) :
    state.Everywhere fun bounds =>
      bounds.isEmpty = false ∧ bounds.Square ∧ bounds.clocks = tracked.clocks := by
  refine reached.everywhere (fun _ nonempty => ?_) fun _ ⟨square, same⟩ _ applied _ => ?_
  · exact Zone.square_applyAll (Zone.canonical_origin _).square (applyAll_origin nonempty)
  · obtain ⟨-, same'⟩ := Zone.square_applyAll square applied
    exact ⟨Zone.square_extrapolate .., by rw [Zone.clocks_extrapolate, same', same]⟩

/-- While constants are far from overflow, every zone that is reached is canonical. -/
theorem Reached.canonical {limit : Nat} (nodup : tracked.clocks.Nodup)
    (small : (tracked.clocks.length + 1) * limit < 2 ^ 58)
    (far : ∀ clock ∈ tracked.clocks, ∀ greatest,
      OrderedMap.find? clock constants = some greatest →
        -(limit : Int) ≤ greatest ∧ greatest ≤ limit)
    (reached : Reached ω α invariants constants tracked (Zone.RunsWithin limit) state) :
    state.Everywhere fun bounds =>
      bounds.isEmpty = false ∧ bounds.Canonical ∧ bounds.clocks = tracked.clocks := by
  have canonical := Zone.canonical_origin tracked.clocks
  refine reached.everywhere (fun runs nonempty => ?_)
    fun {bounds result operations} _ ⟨canonical, sameClocks⟩ runs applied nonempty => ?_
  · obtain ⟨canonical', same, -⟩ := canonical.applyAll_within nodup small runs
      (applyAll_origin nonempty) (fun _ => True) (fun _ _ => trivial) fun _ _ _ _ _ _ => trivial
    exact ⟨canonical', same⟩
  · have small' : bounds.dimension * limit < 2 ^ 58 := by rwa [Zone.dimension, sameClocks]
    obtain ⟨canonical', same, within, -⟩ := canonical.applyAll_within (by rwa [sameClocks])
      small' runs applied (fun _ => True) (fun _ _ => trivial) fun _ _ _ _ _ _ => trivial
    have small'' : result.dimension * limit < 2 ^ 59 := by
      rw [Zone.dimension, same]
      exact small'.trans (by decide)
    have weakened : (result.weakened constants).Within limit :=
      within.weakened (Zone.limit_lt_of_small small'') (by rwa [same, sameClocks])
    exact ⟨canonical'.extrapolate_of_within weakened small'' nonempty,
      by rw [Zone.clocks_extrapolate, same, sameClocks]⟩

end Reached

end ZoneState

end AbstractionRefinement
