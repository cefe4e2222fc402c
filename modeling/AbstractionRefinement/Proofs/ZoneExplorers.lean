import AbstractionRefinement.VerificationTasks
import AbstractionRefinement.Proofs.TimedRuns
import AbstractionRefinement.Proofs.VerifiedGraphs

/-!
# Explorers that track zones

An explorer tracks the zones of an automaton if its states have zones at locations and the
zone analysis lists these, whatever else the states consist of.  In its graphs the zone of a
root is that after a delay in the initial location, and the zone of a child results from the
operations of an edge, with extrapolation.  So what holds of initial zones and survives edges
holds along every path.
-/

namespace AbstractionRefinement

open AbstractionRefinement.Computation ReachabilityGraph

variable {ω σ π : Type}

namespace ZoneState

/-- The zone of the state, if it has one, has the property. -/
def Everywhere (holds : Zone → Prop) : ZoneState → Prop
  | bottom => True
  | zone bounds => holds bounds

instance (holds : Zone → Prop) [DecidablePred holds] (state : ZoneState) :
    Decidable (state.Everywhere holds) :=
  match state with
  | bottom => inferInstanceAs (Decidable True)
  | zone bounds => inferInstanceAs (Decidable (holds bounds))

theorem ofZone_of_satisfiable {bounds : Zone}
    (satisfiable : domain.isBottom (ofZone bounds) = false) :
    bounds.isEmpty = false ∧ ofZone bounds = zone bounds := by
  unfold ofZone at *
  split
  case isTrue isEmpty =>
    rw [if_pos isEmpty] at satisfiable
    cases satisfiable
  case isFalse notEmpty => exact ⟨Bool.eq_false_iff.mpr notEmpty, rfl⟩

theorem initialZone_eq (invariants : List ClockConstraint) (tracked : ZonePrecision) :
    initialZone invariants tracked =
      (Location.delayWithin invariants).foldl Zone.apply (.origin tracked.clocks) := by
  rw [Location.delayWithin, List.foldl_append, List.foldl_cons, List.foldl_map, List.foldl_map]
  rfl

theorem clocks_initialZone (invariants : List ClockConstraint) (tracked : ZonePrecision) :
    (initialZone invariants tracked).clocks = tracked.clocks := by
  have kept (operations : List ClockOperation) (zone : Zone) :
      (operations.foldl Zone.apply zone).clocks = zone.clocks := by
    induction operations generalizing zone with
    | nil => rfl
    | cons operation operations ih => rw [List.foldl_cons, ih, Zone.clocks_apply]
  rw [initialZone_eq, kept]
  rfl

theorem applyAll_origin {invariants : List ClockConstraint} {tracked : ZonePrecision}
    (nonempty : (initialZone invariants tracked).isEmpty = false) :
    applyAll (.origin tracked.clocks) (Location.delayWithin invariants) =
      some (initialZone invariants tracked) := by
  rw [initialZone_eq] at nonempty ⊢
  refine (Zone.applyAll_eq_foldl (Zone.canonical_origin _).square ?_ nonempty).1
  rintro operation member clock value rfl
  rcases Location.mem_delayWithin member with same | ⟨constraint, -, same⟩ <;> cases same

end ZoneState

/-- No bound comes near the ends of the machine range while the operations are applied and
the result is extrapolated. -/
def Zone.StepsMildly (zone : Zone) (constants : Zone.ClockConstants)
    (operations : List ClockOperation) : Prop :=
  zone.AppliesMildly operations ∧
    ∀ result ∈ ZoneState.applyAll zone operations, (result.weakened constants).CanonizesMildly

instance (zone : Zone) (constants : Zone.ClockConstants) (operations : List ClockOperation) :
    Decidable (zone.StepsMildly constants operations) :=
  inferInstanceAs (Decidable (_ ∧ _))

namespace ControlFlowAutomaton

variable {automaton : ControlFlowAutomaton} {strategy : SearchStrategy} {stop : StopCriterion}
  {coverage : CoverageMode}

/-- The invariants of the initial location. -/
def initialInvariants (automaton : ControlFlowAutomaton) : List ClockConstraint :=
  (automaton.locations.head?.map Location.invariants).getD []

/-- The explorer of the zones of an automaton. -/
def zoneExplorer (automaton : ControlFlowAutomaton) (strategy : SearchStrategy)
    (stop : StopCriterion) (coverage : CoverageMode) :
    Explorer ω (Located ZoneState) ControlEdge ZonePrecision :=
  Located.explorer automaton
    (ZoneState.analysis automaton.initialInvariants automaton.clockConstants) strategy stop coverage

example (settings : VerificationSettings) (config : SolverConfig) (initial : Expr)
    (limit : Option Nat) : settings.automatonExplorer Abstraction.zones config initial limit automaton =
      automaton.zoneExplorer settings.search settings.stop settings.coverage :=
  rfl

/-- The precision has all clocks of the automaton, each of them once. -/
def TracksAll (automaton : ControlFlowAutomaton) (tracked : ZonePrecision) : Prop :=
  tracked.clocks.Nodup ∧ automaton.clocks ⊆ tracked.clocks

instance (tracked : ZonePrecision) : Decidable (automaton.TracksAll tracked) :=
  inferInstanceAs (Decidable (_ ∧ _))

/-- The views of the states have zones that the zone analysis of the automaton lists. -/
structure ViewsZones (automaton : ControlFlowAutomaton) (explorer : Explorer ω σ ControlEdge π)
    (mayUse : π → Prop) (view : σ → Located ZoneState) : Prop where
  satisfiable {state : σ} : explorer.analysis.isBottom state = false →
    ZoneState.domain.isBottom (view state).state = false
  starts {precision : π} {state : σ} : mayUse precision → explorer.Starts precision state →
    ∃ tracked, automaton.TracksAll tracked ∧
      view state = ⟨initial, .ofZone (ZoneState.initialZone automaton.initialInvariants tracked)⟩
  steps {precision : π} {state next : σ} {edge : ControlEdge} :
    explorer.Steps precision state edge next →
      edge ∈ automaton.outgoing (view state).location ∧ ∃ bounds result,
        (view state).state = .zone bounds ∧
          ZoneState.applyAll bounds edge.clockOperations = some result ∧
          view next = ⟨edge.target, .ofZone (result.extrapolate automaton.clockConstants)⟩

theorem state_of_zoneStarts {tracked : ZonePrecision} {located : Located ZoneState}
    (starts : (automaton.zoneExplorer (ω := ω) strategy stop coverage).Starts tracked located) :
    located =
      ⟨initial, .ofZone (ZoneState.initialZone automaton.initialInvariants tracked)⟩ := by
  obtain ⟨world, states, after, run, member⟩ := starts
  have ensures : ((automaton.zoneExplorer (ω := ω) strategy stop coverage).analysis.initialStates
      tracked).Ensures world fun states _ => ∀ located ∈ states, located =
        ⟨initial, .ofZone (ZoneState.initialZone automaton.initialInvariants tracked)⟩ := by
    simp only [zoneExplorer, Located.explorer, Located.analysis, ZoneState.analysis, ensures_bind]
    split <;> exact (ensures_pure _).mpr (by simp)
  exact ensures.of_run run located member

theorem state_of_zoneSteps {tracked : ZonePrecision} {located next : Located ZoneState}
    {edge : ControlEdge}
    (steps : (automaton.zoneExplorer (ω := ω) strategy stop coverage).Steps tracked located edge
      next) :
    ∃ bounds result, located.state = .zone bounds ∧
      ZoneState.applyAll bounds edge.clockOperations = some result ∧
      next = ⟨edge.target, .ofZone (result.extrapolate automaton.clockConstants)⟩ := by
  obtain ⟨-, world, states, after, run, member⟩ := steps
  rcases Located.successors_run run with ⟨-, rfl⟩ | ⟨-, inners, runInner, rfl⟩
  · cases member
  obtain ⟨state, listed, rfl⟩ := List.mem_map.mp member
  rw [ZoneState.successors_run] at runInner
  cases runInner
  cases known : located.state with
  | bottom =>
      rw [known] at listed
      cases listed
  | zone bounds =>
      rw [known] at listed
      unfold ZoneState.following at listed
      dsimp only at listed
      split at listed
      case h_1 => cases listed
      case h_2 result applied =>
        rw [List.mem_singleton.mp listed]
        exact ⟨bounds, result, rfl, applied, rfl⟩

theorem viewsZones_zoneExplorer : automaton.ViewsZones
    (automaton.zoneExplorer (ω := ω) strategy stop coverage) automaton.TracksAll id where
  satisfiable := id
  starts all starts := ⟨_, all, state_of_zoneStarts starts⟩
  steps steps := ⟨(Located.location_of_steps steps).1, state_of_zoneSteps steps⟩

/-- No bound comes near the ends of the machine range on the way to the zone of the node. -/
def DerivesMildly (automaton : ControlFlowAutomaton) (view : σ → Located ZoneState)
    (graph : ReachabilityGraph σ ControlEdge) (node : GraphNode σ ControlEdge) : Prop :=
  match node.origin with
  | none => (view node.state).state.Everywhere fun bounds =>
      (Zone.origin bounds.clocks).AppliesMildly (Location.delayWithin automaton.initialInvariants)
  | some (parent, edge) => ∀ parentNode ∈ graph.node? parent,
      (view parentNode.state).state.Everywhere fun bounds =>
        bounds.StepsMildly automaton.clockConstants edge.clockOperations

instance (view : σ → Located ZoneState) (graph : ReachabilityGraph σ ControlEdge)
    (node : GraphNode σ ControlEdge) : Decidable (automaton.DerivesMildly view graph node) := by
  unfold DerivesMildly
  split <;> infer_instance

/-- What holds of the initial zone and survives every edge. -/
structure HoldsAlong (automaton : ControlFlowAutomaton)
    (holds : Located ZoneState → List ControlEdge → Prop) : Prop where
  start {tracked : ZonePrecision} : automaton.TracksAll tracked →
    (Zone.origin tracked.clocks).AppliesMildly
      (Location.delayWithin automaton.initialInvariants) →
    (ZoneState.initialZone automaton.initialInvariants tracked).isEmpty = false →
      holds ⟨initial, .zone (ZoneState.initialZone automaton.initialInvariants tracked)⟩ []
  step {located : Located ZoneState} {path : List ControlEdge} {edge : ControlEdge}
    {bounds result : Zone} : holds located path → edge ∈ automaton.outgoing located.location →
    located.state = .zone bounds →
    bounds.StepsMildly automaton.clockConstants edge.clockOperations →
    ZoneState.applyAll bounds edge.clockOperations = some result →
    (result.extrapolate automaton.clockConstants).isEmpty = false →
      holds ⟨edge.target, .zone (result.extrapolate automaton.clockConstants)⟩ (path ++ [edge])

theorem HoldsAlong.of_pathTo {holds : Located ZoneState → List ControlEdge → Prop}
    (along : automaton.HoldsAlong holds) {explorer : Explorer ω σ ControlEdge π}
    {mayUse : π → Prop} {view : σ → Located ZoneState}
    (views : automaton.ViewsZones explorer mayUse view) {graph : ReachabilityGraph σ ControlEdge}
    (reached : explorer.Reaches mayUse graph)
    (mildly : ∀ node ∈ graph.live, automaton.DerivesMildly view graph node) {id : Nat}
    {path : List ControlEdge} (leads : graph.PathTo id path) :
    ∃ node, graph.node? id = some node ∧ holds (view node.state) path := by
  obtain ⟨-, derived⟩ := reached.derived
  induction leads with
  | root found isRoot =>
      obtain ⟨precision, allowed, starts⟩ := derived.root found isRoot
      obtain ⟨tracked, all, state_eq⟩ := views.starts allowed starts
      have satisfiable := views.satisfiable (derived.satisfiable found)
      rw [state_eq] at satisfiable
      obtain ⟨nonempty, same⟩ := ZoneState.ofZone_of_satisfiable satisfiable
      have mildly := mildly _ (mem_live.mpr ⟨_, found⟩)
      rw [same] at state_eq
      rw [DerivesMildly, isRoot, state_eq] at mildly
      have mildly : (Zone.origin (ZoneState.initialZone automaton.initialInvariants tracked).clocks
        ).AppliesMildly (Location.delayWithin automaton.initialInvariants) := mildly
      rw [ZoneState.clocks_initialZone] at mildly
      exact ⟨_, found, state_eq ▸ along.start all mildly nonempty⟩
  | step _ found origin ih =>
      obtain ⟨parentNode, foundParent, holdsParent⟩ := ih
      obtain ⟨_, -, steps⟩ := derived.child found origin foundParent
      obtain ⟨leaves, bounds, result, known, applied, state_eq⟩ := views.steps steps
      have satisfiable := views.satisfiable (derived.satisfiable found)
      rw [state_eq] at satisfiable
      obtain ⟨nonempty, same⟩ := ZoneState.ofZone_of_satisfiable satisfiable
      have mildly := mildly _ (mem_live.mpr ⟨_, found⟩)
      rw [DerivesMildly, origin] at mildly
      have mildly := mildly _ foundParent
      rw [known] at mildly
      rw [same] at state_eq
      exact ⟨_, found, state_eq ▸ along.step holdsParent leaves known mildly applied nonempty⟩

/-- The constants are far from overflow. -/
structure Moderate (automaton : ControlFlowAutomaton) : Prop where
  farConstraint {constraint : ClockConstraint} :
    constraint ∈ automaton.clockConstraints → FarFromOverflow constraint.bound
  farReset {clock : VarDecl} {value : Int} :
    .clockReset clock value ∈ automaton.statements → FarFromOverflow value

theorem uses_initial {operation : ClockOperation}
    (member : operation ∈ Location.delayWithin automaton.initialInvariants) :
    automaton.Uses operation := by
  refine uses_delayWithin ?_ member
  unfold initialInvariants
  cases first : automaton.locations.head? with
  | none => exact List.nil_subset _
  | some start => exact invariants_subset (List.head?_eq_getElem? ▸ first)

/-- A canonical zone of distinct clocks, those of the automaton among them. -/
structure Suits (automaton : ControlFlowAutomaton) (zone : Zone) : Prop extends zone.Canonical where
  nodup : zone.clocks.Nodup
  tracked : automaton.clocks ⊆ zone.clocks

theorem Suits.tracks {zone : Zone} (suits : automaton.Suits zone) {operation : ClockOperation}
    (uses : automaton.Uses operation) : operation.clocks ⊆ zone.clocks :=
  List.Subset.trans (clocks_subset_of_uses uses) suits.tracked

namespace Moderate

variable {zone result : Zone} {operations : List ClockOperation}

theorem operation (moderate : automaton.Moderate) {operation : ClockOperation}
    (uses : automaton.Uses operation) : operation.Moderate := by
  cases operation with
  | guard constraint | invariant constraint => exact moderate.farConstraint uses
  | reset clock value => exact moderate.farReset uses
  | delay => trivial

theorem regularConstants (moderate : automaton.Moderate) :
    Zone.RegularConstants automaton.clockConstants :=
  ZoneState.regularConstants_constantsOf fun _ => moderate.farConstraint

theorem applyAll (moderate : automaton.Moderate) (suits : automaton.Suits zone)
    (uses : ∀ operation ∈ operations, automaton.Uses operation)
    (mildly : zone.AppliesMildly operations)
    (applied : ZoneState.applyAll zone operations = some result) :
    automaton.Suits result ∧ ∀ after, result.Contains after →
      ∃ before, zone.Contains before ∧ ClockOperation.LeadThrough operations before after := by
  obtain ⟨canonical, sameClocks, images⟩ := suits.toCanonical.applyAll suits.nodup
    (fun _ member => moderate.operation (uses _ member)) (fun _ member => suits.tracks (uses _ member))
    mildly applied
  exact ⟨⟨canonical, sameClocks ▸ suits.nodup, sameClocks ▸ suits.tracked⟩, images⟩

theorem extrapolate (moderate : automaton.Moderate) (suits : automaton.Suits zone)
    (mildly : (zone.weakened automaton.clockConstants).CanonizesMildly)
    (nonempty : (zone.extrapolate automaton.clockConstants).isEmpty = false) :
    automaton.Suits (zone.extrapolate automaton.clockConstants) := by
  refine ⟨suits.toCanonical.extrapolate moderate.regularConstants mildly nonempty, ?_, ?_⟩
  · rw [Zone.clocks_extrapolate]
    exact suits.nodup
  · rw [Zone.clocks_extrapolate]
    exact suits.tracked

/-- The initial zone contains only valuations after a delay within the invariants. -/
theorem initialZone (moderate : automaton.Moderate) {tracked : ZonePrecision}
    (all : automaton.TracksAll tracked)
    (mildly : (Zone.origin tracked.clocks).AppliesMildly
      (Location.delayWithin automaton.initialInvariants))
    (nonempty : (ZoneState.initialZone automaton.initialInvariants tracked).isEmpty = false) :
    automaton.Suits (ZoneState.initialZone automaton.initialInvariants tracked) ∧
      ∀ after, (ZoneState.initialZone automaton.initialInvariants tracked).Contains after →
        ∃ before, (∀ clock ∈ tracked.clocks, before clock = 0) ∧ ClockOperation.LeadThrough
          (Location.delayWithin automaton.initialInvariants) before after := by
  have suits : automaton.Suits (.origin tracked.clocks) :=
    ⟨Zone.canonical_origin _, all.1, all.2⟩
  obtain ⟨suits', images⟩ := moderate.applyAll suits (fun _ => uses_initial) mildly
    (ZoneState.applyAll_origin nonempty)
  refine ⟨suits', fun after contains => ?_⟩
  obtain ⟨before, inOrigin, leads⟩ := images after contains
  exact ⟨before, fun _ => Zone.eq_zero_of_origin inOrigin, leads⟩

end Moderate

end ControlFlowAutomaton

end AbstractionRefinement
