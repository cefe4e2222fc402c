import AbstractionRefinement.Proofs.ExplorationTermination
import AbstractionRefinement.Proofs.FiniteZones
import AbstractionRefinement.Proofs.LocatedStates
import AbstractionRefinement.Proofs.ZoneExplorers

/-!
# Explorations of zones that end

The zones that are reached have small constants, so at each location of an automaton there are
only finitely many of them.  Exploring with coverage expands each at most once, so it ends.
Where the constants are far from overflow, no step on the way to a zone comes near it.
-/

namespace AbstractionRefinement

open AbstractionRefinement.Computation

namespace Located

variable {ω σ π : Type} {automaton : ControlFlowAutomaton} {inner : Analysis ω σ ControlEdge π}
  {strategy : SearchStrategy} {stop : StopCriterion} {coverage : CoverageMode} {precision : π}

theorem location_of_attains {located : Located σ}
    (attains : (explorer automaton inner strategy stop coverage).Attains precision located) :
    located.location ∈ ControlFlowAutomaton.initial :: automaton.edges.map ControlEdge.target := by
  cases attains with
  | start starts _ => exact List.mem_cons.mpr (.inl (location_of_starts starts))
  | @step _ _ edge _ steps _ =>
      obtain ⟨leaves, same⟩ := location_of_steps steps
      have isEdge : edge ∈ automaton.edges := (List.mem_filter.mp leaves).1
      exact List.mem_cons_of_mem _ (same ▸ List.mem_map_of_mem isEdge)

/-- With finitely many states there are finitely many states at the locations of an automaton. -/
theorem finite_attains {states : Set σ} (finite : states.Finite)
    (inside : ∀ located : Located σ,
      (explorer automaton inner strategy stop coverage).Attains precision located →
        located.state ∈ states) :
    {located | (explorer automaton inner strategy stop coverage).Attains precision
        located}.Finite ∧
      {located | (explorer automaton inner strategy stop coverage).Attains precision
        located}.ncard ≤ (automaton.edges.length + 1) * states.ncard := by
  let locations := (ControlFlowAutomaton.initial :: automaton.edges.map ControlEdge.target).toFinset
  let places (located : Located σ) : Nat × σ := (located.location, located.state)
  have maps : ∀ located ∈ {located |
      (explorer automaton inner strategy stop coverage).Attains precision located},
        places located ∈ (locations : Set Nat) ×ˢ states := fun located attains =>
    ⟨List.mem_toFinset.mpr (location_of_attains attains), inside located attains⟩
  have injective : Function.Injective places := by
    rintro ⟨location, state⟩ ⟨other, last⟩ same
    obtain ⟨rfl, rfl⟩ := Prod.mk.inj same
    rfl
  have finite' : ((locations : Set Nat) ×ˢ states).Finite := locations.finite_toSet.prod finite
  refine ⟨.of_injOn maps injective.injOn finite', ?_⟩
  calc _ ≤ ((locations : Set Nat) ×ˢ states).ncard :=
        Set.ncard_le_ncard_of_injOn places maps injective.injOn finite'
    _ = locations.card * states.ncard := by rw [Set.ncard_prod, Set.ncard_coe_finset]
    _ ≤ (automaton.edges.length + 1) * states.ncard :=
        Nat.mul_le_mul_right _ ((List.toFinset_card_le _).trans (by simp))

end Located

/-- Small constants stay far from overflow while operations are applied and the result is
extrapolated. -/
theorem Zone.RunsAbove.stepsMildly {zone : Zone} {constants : Zone.ClockConstants}
    {operations : List ClockOperation} {limit greatest floor : Nat}
    (runs : zone.RunsAbove limit floor operations)
    (canonical : zone.Canonical) (nodup : zone.clocks.Nodup)
    (has : Zone.HasConstants greatest constants zone.clocks)
    (small : 2 ^ zone.dimension ^ 2 * (2 * max limit greatest) < 2 ^ 60)
    (small' : zone.dimension * limit < 2 ^ 58) : zone.StepsMildly constants operations := by
  have le : limit ≤ max limit greatest := le_max_left ..
  refine ⟨runs.1.appliesMildly canonical.square
    ((Nat.mul_le_mul_left _ (Nat.mul_le_mul_left 2 le)).trans_lt small), fun result applied => ?_⟩
  obtain ⟨canonical', same, within, -⟩ := canonical.applyAll_within nodup small' runs.1 applied
    (fun _ => True) (fun _ _ => trivial) fun _ _ _ _ _ _ => trivial
  have smaller : 2 * max limit greatest < 2 ^ 60 :=
    (Nat.le_mul_of_pos_left _ (by positivity)).trans_lt small
  refine ((within.mono le).weakened (by omega) fun clock isClock constant found => ?_
    ).canonizesMildly (square_mapEntries ..) (lt_of_le_of_lt ?_ small)
  · obtain ⟨constant', atMost, found'⟩ := has clock (same ▸ isClock)
    obtain rfl : constant = constant' := Option.some_injective _ (found.symm.trans found')
    have := le_max_right limit greatest
    omega
  · have sameDimension : (result.weakened constants).dimension = zone.dimension := by
      rw [dimension, weakened, clocks_mapEntries, same, dimension]
    rw [sameDimension]
    exact Nat.mul_le_mul_left _ (Nat.le_mul_of_pos_left _ Nat.two_pos)

namespace ZoneState

variable {ω : Type} {automaton : ControlFlowAutomaton} {invariants : List ClockConstraint}
  {constants : Zone.ClockConstants} {tracked : ZonePrecision} {strategy : SearchStrategy}
  {stop : StopCriterion} {coverage : CoverageMode} {limit greatest floor : Nat}

/-- Exploring comes only to states that the zone analysis reaches, if what is reached admits the
operations of the edges that leave its location. -/
theorem reached_of_attains {admitted : Zone → List ClockOperation → Prop}
    (initially : admitted (.origin tracked.clocks) (Location.delayWithin invariants))
    (admits : ∀ located : Located ZoneState, (Located.explorer (ω := ω) automaton
      (analysis invariants constants) strategy stop coverage).Attains tracked located →
        Reached ω ControlEdge invariants constants tracked admitted located.state →
          ∀ edge ∈ automaton.outgoing located.location, located.state.Everywhere fun bounds =>
            admitted bounds edge.clockOperations)
    {located : Located ZoneState} (attains : (Located.explorer (ω := ω) automaton
      (analysis invariants constants) strategy stop coverage).Attains tracked located) :
    Reached ω ControlEdge invariants constants tracked admitted located.state := by
  induction attains with
  | start starts _ =>
      obtain ⟨-, world, states, after, run, member⟩ := Located.state_of_starts starts
      exact .start run member initially
  | @step located next edge attains steps _ reached =>
      obtain ⟨-, world, states, after, run, member⟩ := Located.state_of_steps steps
      exact .step reached run member
        (admits located attains reached edge (Located.location_of_steps steps).1)

def initials (invariants : List ClockConstraint) (tracked : ZonePrecision) : List ZoneState :=
  match ofZone (initialZone invariants tracked) with
  | bottom => []
  | state => [state]

theorem initials_run {α : Type} [ClockAction α] (world : ω) :
    (analysis (α := α) invariants constants).initialStates tracked world =
      (.ok (initials invariants tracked), world) := by
  simp only [analysis, initials]
  cases ofZone (initialZone invariants tracked) <;> rfl

theorem length_initials_le : (initials invariants tracked).length ≤ 1 := by
  unfold initials
  split <;> simp

theorem length_following_le (operations : List ClockOperation) (state : ZoneState) :
    (following constants operations state).length ≤ 1 := by
  cases state with
  | bottom => exact Nat.zero_le _
  | zone bounds =>
      unfold following
      dsimp only
      split <;> simp

/-- Exploring zones at locations does not ask the world. -/
def answers (automaton : ControlFlowAutomaton) (invariants : List ClockConstraint)
    (constants : Zone.ClockConstants) (strategy : SearchStrategy) (stop : StopCriterion)
    (coverage : CoverageMode) : (Located.explorer (ω := ω) automaton
      (analysis invariants constants) strategy stop coverage).PureAnswers where
  initialStates tracked :=
    (initials invariants tracked).map fun state => ⟨ControlFlowAutomaton.initial, state⟩
  successors _ located edge :=
    if edge.source = located.location then
      (following constants edge.clockOperations located.state).map fun state =>
        ⟨edge.target, state⟩
    else []
  target located := some located.location = automaton.error
  initialStates_eq tracked world := by
    simp only [Located.explorer, Located.analysis]
    rw [bind_run, initials_run]
    rfl
  successors_eq tracked located edge world := by
    simp only [Located.explorer, Located.analysis]
    split
    case isTrue =>
      rw [bind_run, successors_run]
      rfl
    case isFalse => rfl
  target_eq _ _ := rfl

section Answers

variable (automaton : ControlFlowAutomaton) (invariants : List ClockConstraint)
  (constants : Zone.ClockConstants) (tracked : ZonePrecision) (strategy : SearchStrategy)
  (stop : StopCriterion) (coverage : CoverageMode)

theorem length_roots_le : ((answers (ω := ω) automaton invariants constants strategy stop
    coverage).unfolding tracked).roots.length ≤ 1 := by
  refine (List.length_filter_le ..).trans ?_
  rw [answers, List.length_map]
  exact length_initials_le

/-- There is at most one successor for every edge. -/
theorem length_successors_le (located : Located ZoneState) :
    (((answers (ω := ω) automaton invariants constants strategy stop coverage).unfolding
      tracked).successors located).length ≤ automaton.edges.length := by
  have single (edge : ControlEdge) : ((answers (ω := ω) automaton invariants constants strategy
      stop coverage).successors tracked located edge).length ≤ 1 := by
    rw [answers]
    dsimp only
    split
    case isTrue =>
      rw [List.length_map]
      exact length_following_le ..
    case isFalse => exact Nat.zero_le _
  unfold Explorer.PureAnswers.unfolding
  dsimp only
  rw [List.length_flatMap]
  refine (List.sum_le_card_nsmul _ 1 (List.forall_mem_map.mpr fun edge _ => ?_)).trans ?_
  · rw [List.length_map]
    exact (List.length_filter_le ..).trans (single edge)
  · rw [List.length_map, smul_eq_mul, Nat.mul_one]
    exact List.length_filter_le ..

end Answers

/-- The constants stay within the limit wherever exploring comes to, and no clock is reset to a
value below the floor. -/
structure ExploresAbove (limit floor : Nat)
    (explorer : Explorer ω (Located ZoneState) ControlEdge ZonePrecision)
    (invariants : List ClockConstraint) (tracked : ZonePrecision) : Prop where
  start : (Zone.origin tracked.clocks).RunsAbove limit floor (Location.delayWithin invariants)
  step {located : Located ZoneState} : explorer.Attains tracked located →
    ∀ edge ∈ explorer.enabled located, located.state.Everywhere fun bounds =>
      bounds.RunsAbove limit floor edge.clockOperations

section Explorations

variable (nodup : tracked.clocks.Nodup)
  (has : Zone.HasConstants greatest constants tracked.clocks)
  (small : (tracked.clocks.length + 1) * limit < 2 ^ 58)
  (small' : (tracked.clocks.length + 1) * max greatest floor < 2 ^ 59)

include nodup has small small'

theorem Reached.mem_upTo {α : Type} [ClockAction α] {state : ZoneState}
    (reached : Reached ω α invariants constants tracked (Zone.RunsAbove limit floor) state) :
    state = bottom ∨
      state ∈ upTo invariants tracked ((tracked.clocks.length + 1) * max greatest floor) := by
  have within := reached.initial_or_within nodup has small small'
  have square := reached.square
  cases state with
  | bottom => exact .inl rfl
  | zone bounds =>
      obtain ⟨-, -, isInitial | within⟩ := within
      · exact .inr (.inl (congrArg zone isInitial))
      · obtain ⟨-, square, sameClocks⟩ := square
        exact .inr (.inr ⟨bounds, ⟨square, sameClocks, within⟩, rfl⟩)

/-- Only finitely many states are reached. -/
theorem finite_reached (ω α : Type) [ClockAction α] :
    {state | Reached ω α invariants constants tracked (Zone.RunsAbove limit floor)
      state}.Finite ∧
    {state | Reached ω α invariants constants tracked (Zone.RunsAbove limit floor)
      state}.ncard ≤ (4 * ((tracked.clocks.length + 1) * max greatest floor) + 3) ^
        ((tracked.clocks.length + 1) ^ 2) + 2 := by
  obtain ⟨finite, few⟩ :=
    finite_upTo invariants tracked ((tracked.clocks.length + 1) * max greatest floor)
  have subset : {state | Reached ω α invariants constants tracked (Zone.RunsAbove limit floor)
      state} ⊆ insert bottom (upTo invariants tracked _) :=
    fun _ reached => reached.mem_upTo nodup has small small'
  refine ⟨(finite.insert bottom).subset subset, ?_⟩
  calc _ ≤ (insert bottom (upTo invariants tracked _)).ncard :=
        Set.ncard_le_ncard subset (finite.insert bottom)
    _ ≤ (upTo invariants tracked _).ncard + 1 := Set.ncard_insert_le ..
    _ ≤ _ := Nat.succ_le_succ few

/-- Constants of at most the given size stay within the limit if the limit is large enough for
those that the operations of a single edge add up to. -/
theorem exploresAbove_of_within (size grown : Nat)
    (initially : ∀ operation ∈ Location.delayWithin invariants, operation.Within size)
    (delays : (2 * (tracked.clocks.length + 2)) ^ (Location.delayWithin invariants).length * size ≤
      grown)
    (le_grown : (tracked.clocks.length + 1) * max greatest floor ≤ grown)
    (along : ∀ edge ∈ automaton.edges, ∀ operation ∈ edge.clockOperations,
      operation.Within grown ∧ operation.ResetsAbove floor)
    (grown_le : grown ≤ limit)
    (edges : ∀ edge ∈ automaton.edges,
      (2 * (tracked.clocks.length + 2)) ^ edge.clockOperations.length * grown ≤ limit) :
    ExploresAbove limit floor (Located.explorer (ω := ω) automaton (analysis invariants constants)
      strategy stop coverage) invariants tracked := by
  have canonical := Zone.canonical_origin tracked.clocks
  have smaller : (tracked.clocks.length + 1) * grown < 2 ^ 58 :=
    (Nat.mul_le_mul_left _ grown_le).trans_lt small
  have start : (Zone.origin tracked.clocks).RunsWithin grown (Location.delayWithin invariants) :=
    canonical.runsWithin nodup (Zone.within_origin _ size) initially delays smaller
  have start' : (Zone.origin tracked.clocks).RunsAbove limit floor
      (Location.delayWithin invariants) := by
    refine ⟨canonical.runsWithin nodup (Zone.within_origin _ size) initially
      (delays.trans grown_le) small, ?_⟩
    intro operation member
    rcases Location.mem_delayWithin member with rfl | ⟨constraint, -, rfl⟩ <;> trivial
  have step {located : Located ZoneState} (reached : Reached ω ControlEdge invariants constants
      tracked (Zone.RunsAbove limit floor) located.state) (edge : ControlEdge)
      (leaves : edge ∈ automaton.outgoing located.location) :
      located.state.Everywhere fun bounds => bounds.RunsAbove limit floor edge.clockOperations := by
    have zones := reached.initial_or_within nodup has small small'
    have isEdge : edge ∈ automaton.edges := (List.mem_filter.mp leaves).1
    obtain ⟨location, state⟩ := located
    cases state with
    | bottom => trivial
    | zone bounds =>
        obtain ⟨nonempty, floored, either⟩ := zones
        have within : bounds.Within grown := by
          rcases either with rfl | within
          · exact (canonical.applyAll_within nodup smaller start (applyAll_origin nonempty)
              (fun _ => True) (fun _ _ => trivial) fun _ _ _ _ _ _ => trivial).2.2.1
          · exact within.mono le_grown
        obtain ⟨canonical', same, -⟩ := floored
        refine ⟨canonical'.runsWithin (same ▸ nodup) within
          (fun operation member => (along edge isEdge operation member).1) ?_ ?_,
          fun operation member => (along edge isEdge operation member).2⟩
        · rw [Zone.dimension, same]
          exact edges edge isEdge
        · rwa [Zone.dimension, same]
  refine ⟨start', fun attains edge leaves => step ?_ edge leaves⟩
  exact reached_of_attains start' (fun _ _ => step) attains

/-- Exploring with coverage ends. -/
theorem check_ends (covering : coverage ≠ .none)
    (above : ExploresAbove limit floor (Located.explorer (ω := ω) automaton
      (analysis invariants constants) strategy stop coverage) invariants tracked)
    {budget : Budget ω} (unlimited : ∀ world, budget.exceeded? world = none)
    (fuel version : Nat) (world : ω) (status : ExplorationStatus)
    (enough : 1 + automaton.edges.length * ((automaton.edges.length + 1) *
      ((4 * ((tracked.clocks.length + 1) * max greatest floor) + 3) ^
        ((tracked.clocks.length + 1) ^ 2) + 1)) < fuel) :
    ∃ found after, (Located.explorer automaton (analysis invariants constants) strategy stop
      coverage).check fuel tracked version budget ⟨world, .empty, status⟩ = (.ok found, after) := by
  obtain ⟨finite, few⟩ :=
    finite_upTo invariants tracked ((tracked.clocks.length + 1) * max greatest floor)
  obtain ⟨finite, fewer⟩ := Located.finite_attains finite fun located attains => by
    have reached := reached_of_attains above.start (fun located attains _ => above.step attains)
      attains
    refine (reached.mem_upTo nodup has small small').resolve_left fun same => ?_
    have satisfiable : domain.isBottom located.state = false := attains.satisfiable
    rw [same] at satisfiable
    cases satisfiable
  refine (answers automaton invariants constants strategy stop coverage).check_ends covering
    (fun located _ => ?_) finite (fun located _ => length_successors_le ..) unlimited fuel world
    status ?_
  · show (decide (located.location = located.location) && leq located.state located.state) = true
    rw [leq_refl, decide_eq_true rfl]
    rfl
  · refine lt_of_le_of_lt (Nat.add_le_add (length_roots_le ..) ?_) enough
    exact Nat.mul_le_mul_left _ (fewer.trans (Nat.mul_le_mul_left _ few))

end Explorations

section Mildly

open ControlFlowAutomaton ReachabilityGraph

/-- Exploring comes to the states of the nodes of a graph that is reached. -/
theorem attains_of_pathTo {graph : ReachabilityGraph (Located ZoneState) ControlEdge}
    (reached : (automaton.zoneExplorer (ω := ω) strategy stop coverage).Reaches (· = tracked) graph)
    {id : Nat} {path : List ControlEdge} (leads : graph.PathTo id path) :
    ∃ node, graph.node? id = some node ∧
      (automaton.zoneExplorer (ω := ω) strategy stop coverage).Attains tracked node.state := by
  obtain ⟨-, derived⟩ := reached.derived
  induction leads with
  | root found isRoot =>
      obtain ⟨_, rfl, starts⟩ := derived.root found isRoot
      exact ⟨_, found, .start starts (derived.satisfiable found)⟩
  | step _ found origin ih =>
      obtain ⟨parent, foundParent, attains⟩ := ih
      obtain ⟨_, rfl, steps⟩ := derived.child found origin foundParent
      exact ⟨_, found, .step attains steps (derived.satisfiable found)⟩

/-- In the graphs of an automaton all of whose clocks have constants, no bound comes near the
ends of the machine range if the constants are small enough to be doubled once for every pair
of clocks. -/
theorem derivesMildly_of_exploresAbove (nodup : tracked.clocks.Nodup)
    (has : Zone.HasConstants greatest automaton.clockConstants tracked.clocks)
    (small : (tracked.clocks.length + 1) * limit < 2 ^ 58)
    (small' : (tracked.clocks.length + 1) * max greatest floor < 2 ^ 59)
    (far : 2 ^ (tracked.clocks.length + 1) ^ 2 * (2 * max limit greatest) < 2 ^ 60)
    (above : ExploresAbove limit floor (automaton.zoneExplorer (ω := ω) strategy stop coverage)
      automaton.initialInvariants tracked)
    {graph : ReachabilityGraph (Located ZoneState) ControlEdge}
    (reached : (automaton.zoneExplorer (ω := ω) strategy stop coverage).Reaches (· = tracked)
      graph) :
    ∀ node ∈ graph.live, automaton.DerivesMildly id graph node := by
  intro node isLive
  obtain ⟨position, found⟩ := mem_live.mp isLive
  obtain ⟨wellFormed, derived⟩ := reached.derived
  unfold DerivesMildly
  cases origin : node.origin with
  | none =>
      obtain ⟨_, rfl, starts⟩ := derived.root found origin
      rw [state_of_zoneStarts starts]
      have mildly := above.start.1.appliesMildly (Zone.canonical_origin _).square
        ((Nat.mul_le_mul_left _ (Nat.mul_le_mul_left 2 (le_max_left ..))).trans_lt far)
      show (ofZone (initialZone automaton.initialInvariants _)).Everywhere _
      unfold ofZone
      split
      · trivial
      · show (Zone.origin (initialZone ..).clocks).AppliesMildly _
        rwa [clocks_initialZone]
  | some step =>
      obtain ⟨parent, edge⟩ := step
      intro parentNode foundParent
      obtain ⟨_, rfl, leaves, steps⟩ := derived.child found origin foundParent
      obtain ⟨path, leads⟩ := wellFormed.exists_pathTo foundParent
      obtain ⟨_, foundParent', attains⟩ := attains_of_pathTo reached leads
      obtain rfl := Option.some_injective _ (foundParent.symm.trans foundParent')
      have runs := above.step attains edge leaves
      have zones := (reached_of_attains above.start (fun located attains _ => above.step attains)
        attains).initial_or_within nodup has small small'
      revert runs zones
      show (parentNode.state.state.Everywhere _) → parentNode.state.state.Everywhere _ →
        parentNode.state.state.Everywhere _
      cases parentNode.state.state with
      | bottom => exact fun _ _ => trivial
      | zone bounds =>
          rintro runs ⟨-, ⟨canonical, same, -⟩, -⟩
          refine runs.stepsMildly canonical (same ▸ nodup) (same ▸ has) ?_ ?_ <;>
            rwa [Zone.dimension, same]

end Mildly

/-- Extrapolation makes zones finite.  If every clock has a constant and no clock is negative then
the constants that the extrapolation leaves are as small as those of the clocks, times the number
of rows.  So only finitely many states are reached by any actions, and exploring an automaton with
coverage ends. -/
theorem extrapolation_makes_finite (ω α : Type) [ClockAction α] :
    (∀ (zone : Zone) (constants : Zone.ClockConstants) (greatest : Nat), zone.Canonical →
      zone.clocks.Nodup →
      (∀ valuation, zone.Contains valuation → ∀ clock ∈ zone.clocks, 0 ≤ valuation clock) →
      Zone.HasConstants greatest constants zone.clocks →
      (zone.clocks.length + 1) * greatest < 2 ^ 59 →
        (zone.extrapolate constants).Within ((zone.clocks.length + 1) * greatest)) ∧
    ∀ (invariants : List ClockConstraint) (constants : Zone.ClockConstants)
      (tracked : ZonePrecision) (greatest floor limit : Nat), tracked.clocks.Nodup →
      Zone.HasConstants greatest constants tracked.clocks →
      (tracked.clocks.length + 1) * limit < 2 ^ 58 →
      (tracked.clocks.length + 1) * max greatest floor < 2 ^ 59 →
      let zones := (4 * ((tracked.clocks.length + 1) * max greatest floor) + 3) ^
        ((tracked.clocks.length + 1) ^ 2) + 1
      let reached := {state |
        Reached ω α invariants constants tracked (Zone.RunsAbove limit floor) state}
      (reached.Finite ∧ reached.ncard ≤ zones + 1) ∧
      ∀ (automaton : ControlFlowAutomaton) (strategy : SearchStrategy) (stop : StopCriterion)
        (coverage : CoverageMode), coverage ≠ .none →
        let explorer : Explorer ω _ _ _ :=
          Located.explorer automaton (analysis invariants constants) strategy stop coverage
        ExploresAbove limit floor explorer invariants tracked →
        ∀ budget : Budget ω, (∀ world, budget.exceeded? world = none) →
        ∀ (fuel version : Nat) (world : ω) (status : ExplorationStatus),
          1 + automaton.edges.length * ((automaton.edges.length + 1) * zones) < fuel →
            ∃ found after, explorer.check fuel tracked version budget ⟨world, .empty, status⟩ =
              (.ok found, after) := by
  constructor
  · intro zone constants greatest canonical nodup above has small
    have floored : Zone.Floored 0 zone.clocks zone := ⟨canonical, rfl, by simpa using above⟩
    obtain ⟨-, within⟩ := floored.extrapolate nodup has (by simpa using small)
    simpa using within
  · intro invariants constants tracked greatest floor limit nodup has small small'
    refine ⟨finite_reached nodup has small small' ω α, ?_⟩
    intro automaton strategy stop coverage covering explorer above budget unlimited fuel version
      world status enough
    exact check_ends nodup has small small' covering above unlimited fuel version world status
      enough

def restaurant : ControlFlowAutomaton where
  locations := [⟨"inside", stay, false⟩, ⟨"outside", [], false⟩]
  edges :=
    [{ source := 0
       target := 0
       statements := [.clockReset ⟨"served", .rat⟩ 0]
       formula := .top
       next := .constant 0
       clockOperations := [.reset ⟨"served", .rat⟩ 0, .delay] },
      departure]
  error := none

def guestConstants : Zone.ClockConstants :=
  [(⟨"arrived", .rat⟩, 5), (⟨"served", .rat⟩, 2)]

open Zone in
/-- Bounds after a long time become small, and exploring the restaurant ends. -/
theorem guests_extrapolation_makes_finite :
    (∃ late, ZoneState.applyAll (origin guestClocks)
        [.delay, .guard (.atLeast ⟨"served", .rat⟩ 100)] = some late ∧
      ¬ late.Within 15 ∧ (late.extrapolate guestConstants).Within 15) ∧
    {state | Reached Unit ControlEdge stay guestConstants ⟨guestClocks⟩
      (RunsAbove (2 ^ 27) 0) state}.Finite ∧
    ∃ found after, (Located.explorer restaurant (analysis stay guestConstants) .breadthFirst
      .never .single).check (10 ^ 18) ⟨guestClocks⟩ 0 (.start {} (fun _ => 0) ())
        ⟨(), .empty, .idle⟩ = (.ok found, after) := by
  obtain ⟨zones, explorations⟩ := extrapolation_makes_finite Unit ControlEdge
  have nodup : guestClocks.Nodup := by decide
  have has : HasConstants 5 guestConstants guestClocks := by
    unfold HasConstants
    decide
  constructor
  · have runs : (origin guestClocks).RunsAbove 100 0
        [.delay, .guard (.atLeast ⟨"served", .rat⟩ 100)] := by decide +kernel
    have applied : ZoneState.applyAll (origin guestClocks)
        [.delay, .guard (.atLeast ⟨"served", .rat⟩ 100)] =
          some (((origin guestClocks).apply .delay).apply
            (.guard (.atLeast ⟨"served", .rat⟩ 100))) := by decide +kernel
    obtain ⟨canonical, same, above⟩ :=
      (floored_origin 0 guestClocks).applyAll nodup (by decide) runs applied
    refine ⟨_, applied, by decide +kernel, ?_⟩
    exact zones _ guestConstants 5 canonical (same ▸ nodup)
      (by simpa only [same, Nat.cast_zero, neg_zero] using above) (same ▸ has) (by decide)
  · obtain ⟨⟨finite, -⟩, ends⟩ := explorations stay guestConstants ⟨guestClocks⟩ 5 0 (2 ^ 27) nodup
      has (by decide) (by decide)
    refine ⟨finite, ends restaurant .breadthFirst .never .single (by decide) ?_ _ (fun _ => rfl) _ _
      _ _ (by decide)⟩
    exact exploresAbove_of_within nodup has (by decide) (by decide) 5 163840 (by decide)
      (by decide) (by decide) (by decide) (by decide) (by decide)

end ZoneState

end AbstractionRefinement
