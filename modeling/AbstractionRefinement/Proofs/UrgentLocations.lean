import AbstractionRefinement.Proofs.TimedPaths
import AbstractionRefinement.Proofs.TransferMonotonicity

/-!
# Urgent locations

Time does not elapse on entry of an urgent location: the zone of an edge into it contains only
images of valuations of the source zone.  The zone of a root contains the valuations after a
delay, for the analysis does not know whether the initial location is urgent.  If it is not,
the trace of a violated verdict is the path of a timed run, which does not delay in urgent
locations.
-/

namespace AbstractionRefinement

open AbstractionRefinement.Computation

namespace Located

variable {ω σ τ π ρ : Type} {automaton : ControlFlowAutomaton}
  {first : Analysis ω σ ControlEdge π} {second : Analysis ω τ ControlEdge ρ}
  {strategy : SearchStrategy} {stop : StopCriterion} {coverage : CoverageMode}
  {precision : π × ρ} {located next : Located (σ × τ)} {edge : ControlEdge}

/-- The first component of a pair at a location. -/
def firstPart (located : Located (σ × τ)) : Located σ :=
  ⟨located.location, located.state.1⟩

theorem starts_of_product
    (starts : (explorer automaton (first.product second) strategy stop coverage).Starts precision
      located) :
    (explorer automaton first strategy stop coverage).Starts precision.1 located.firstPart := by
  obtain ⟨world, states, after, run, member⟩ := starts
  have ensures : ((analysis (first.product second)).initialStates precision).Ensures world
      fun states _ => ∀ located ∈ states,
        (explorer automaton first strategy stop coverage).Starts precision.1 located.firstPart := by
    simp only [analysis, Analysis.product, ensures_bind]
    apply ensures_of_run
    intro firsts between runFirst
    split
    case isTrue => exact (ensures_pure _).mpr ((ensures_pure _).mpr (by simp))
    case isFalse =>
      rw [ensures_bind]
      apply ensures_of_run
      intro seconds last _
      refine (ensures_pure _).mpr ((ensures_pure _).mpr (List.forall_mem_map.mpr ?_))
      intro pair listed
      refine ⟨world, firsts.map fun state => ⟨ControlFlowAutomaton.initial, state⟩, between, ?_,
        List.mem_map_of_mem (Analysis.mem_allPairs.mp listed).1⟩
      simp only [explorer, analysis, bind_run, runFirst]
      rfl
  exact ensures.of_run run located member

theorem steps_of_product
    (steps : (explorer automaton (first.product second) strategy stop coverage).Steps precision
      located edge next) :
    (explorer automaton first strategy stop coverage).Steps precision.1 located.firstPart edge
      next.firstPart := by
  obtain ⟨enabled, world, states, after, run, member⟩ := steps
  rcases successors_run run with ⟨-, rfl⟩ | ⟨leaves, pairs, runPairs, rfl⟩
  · cases member
  · obtain ⟨pair, listed, rfl⟩ := List.mem_map.mp member
    obtain ⟨firsts, between, runFirst, ⟨-, rfl⟩ | ⟨-, seconds, -, rfl⟩⟩ :=
      Analysis.product_run runPairs
    · cases listed
    · refine ⟨enabled, world, firsts.map (Located.mk edge.target), between, ?_,
        List.mem_map_of_mem (Analysis.mem_allPairs.mp listed).1⟩
      have leaves' : edge.source = located.firstPart.location := leaves
      have runFirst' : first.successors precision.1 located.firstPart.state edge world =
        (.ok firsts, between) := runFirst
      simp only [explorer, analysis, if_pos leaves', bind_run, runFirst']
      rfl

end Located

namespace ControlFlowAutomaton

variable {automaton : ControlFlowAutomaton} {locations : List Location}
  {edges : List (Nat × Nat × List Statement)} {error : Option Nat}

/-- The explorer of pairs of zones and states of another analysis. -/
abbrev pairExplorer {ω τ ρ : Type} (automaton : ControlFlowAutomaton)
    (second : Analysis ω τ ControlEdge ρ) (strategy : SearchStrategy) (stop : StopCriterion)
    (coverage : CoverageMode) : Explorer ω (Located (ZoneState × τ)) ControlEdge (ZonePrecision × ρ) :=
  Located.explorer automaton
    ((ZoneState.analysis automaton.initialInvariants automaton.clockConstants).product second)
    strategy stop coverage

section Views

variable {ω τ ρ : Type} {second : Analysis ω τ ControlEdge ρ} {strategy : SearchStrategy}
  {stop : StopCriterion} {coverage : CoverageMode}
  {graph : ReachabilityGraph (Located (ZoneState × τ)) ControlEdge}

theorem viewsZones_pairExplorer : automaton.ViewsZones
    (automaton.pairExplorer second strategy stop coverage)
    (fun precision => automaton.TracksAll precision.1) Located.firstPart where
  satisfiable satisfiable := (Bool.or_eq_false_iff.mp satisfiable).1
  starts all starts := by
    have zoneStarts : (automaton.zoneExplorer strategy stop coverage).Starts _ _ :=
      Located.starts_of_product starts
    exact ⟨_, all, state_of_zoneStarts zoneStarts⟩
  steps steps := viewsZones_zoneExplorer.steps (Located.steps_of_product steps)

end Views

/-- The zone of every node suits the automaton, and that of a root is an initial one. -/
theorem Moderate.holdsAlong (moderate : automaton.Moderate)
    (built : build locations edges error = .ok automaton) :
    automaton.HoldsAlong fun located path => ∃ bounds, located.state = .zone bounds ∧
      automaton.Suits bounds ∧ (path = [] → ∀ after, bounds.Contains after → ∃ before,
        (∀ clock ∈ automaton.clocks, before clock = 0) ∧ ClockOperation.LeadThrough
          (Location.delayWithin automaton.initialInvariants) before after) where
  start all mildly nonempty := by
    obtain ⟨suits, images⟩ := moderate.initialZone all mildly nonempty
    refine ⟨_, rfl, suits, fun _ after contains => ?_⟩
    obtain ⟨before, areZero, leads⟩ := images after contains
    exact ⟨before, fun clock member => areZero clock (all.2 member), leads⟩
  step {located path edge bounds result} holds leaves known mildly applied nonempty := by
    obtain ⟨bounds', known', suits, -⟩ := holds
    obtain rfl := ZoneState.zone.inj (known.symm.trans known')
    obtain ⟨suits', -⟩ := moderate.applyAll suits
      (fun _ => uses_clockOperations built (List.mem_filter.mp leaves).1) mildly.1 applied
    exact ⟨_, rfl, moderate.extrapolate suits' (mildly.2 result applied) nonempty,
      fun isEmpty => absurd isEmpty (by simp)⟩

/-- An edge into an urgent location makes of a zone only images of its valuations under the
guards and resets, within the invariants. -/
theorem Moderate.exists_moves (moderate : automaton.Moderate)
    (built : build locations edges error = .ok automaton) {bounds result : Zone}
    (suits : automaton.Suits bounds) {edge : ControlEdge} (member : edge ∈ automaton.edges)
    {target : Location} (found : automaton.locations[edge.target]? = some target)
    (urgent : target.urgent = true) (mildly : bounds.AppliesMildly edge.clockOperations)
    (applied : ZoneState.applyAll bounds edge.clockOperations = some result)
    {after : ClockValuation} (contains : result.Contains after) :
    ∃ before, bounds.Contains before ∧ Statement.MovesClocks edge.statements before after ∧
      ∀ constraint ∈ target.invariants, constraint.Holds after := by
  obtain ⟨-, images⟩ := moderate.applyAll suits (fun _ => uses_clockOperations built member) mildly
    applied
  obtain ⟨before, inBounds, leads⟩ := images after contains
  rw [clockOperations_of_build built member] at leads
  obtain ⟨middle, moves, stays⟩ := ClockOperation.leadThrough_append_iff.mp leads
  rw [leadThrough_entry_iff, Stays, found] at stays
  obtain ⟨holds, rest⟩ := stays
  rw [if_pos urgent] at rest
  subst rest
  exact ⟨before, inBounds, Statement.leadThrough_iff.mp moves, holds⟩

/-- A spurious answer of the refiner has a precision refined by a refutation. -/
theorem exists_of_spurious {σ α π : Type} [ExprState σ] [ExprAction α] {checker : TraceChecker}
    {refine : PrecisionRefiner π} {config : SolverConfig} {initial target : Expr}
    {trace : Trace σ α} {precision refined : π} {position : Nat} {world after : SolverStatistics}
    (run : traceRefiner checker refine config initial target trace precision world =
      (.ok (.spurious refined position), after)) :
    ∃ refutation, refined = refine precision refutation := by
  unfold traceRefiner at run
  rw [bind_run] at run
  rcases checked : checker.check config initial target trace world with
    ⟨error | concrete | refutation, after'⟩ <;> rw [checked] at run
  · cases run
  · cases run
  · cases run
    exact ⟨refutation, rfl⟩

section Verdicts

variable {settings : VerificationSettings} {abstraction : Abstraction} {config : SolverConfig}
  {initial : Expr} {limit : Option Nat} {refine : PrecisionRefiner abstraction.Tracked}

theorem refinesWithin_second : (settings.automatonVerifier (Abstraction.zones.product abstraction)
    config initial limit refine.second automaton).RefinesWithin
      fun precision : ZonePrecision × abstraction.Tracked => automaton.TracksAll precision.1 := by
  intro trace precision refined position world after all run
  obtain ⟨refutation, rfl⟩ := exists_of_spurious run
  exact all

section Violated

variable {limits : ResourceLimits} {checks : SolverStatistics → Nat} {fuel : Nat}
  {tracked : ZonePrecision} {precision : abstraction.Tracked}
  {origin : SolverStatistics × ExplorationStatus}
  {trace : Trace (Located (ZoneState × abstraction.State)) ControlEdge} {concrete : List Valuation}
  {graph : ReachabilityGraph (Located (ZoneState × abstraction.State)) ControlEdge}
  {last : ZonePrecision × abstraction.Tracked}

/-- The graph of a violated verdict was reached, and the trace leads to a target of it. -/
theorem reaches_of_violated (all : automaton.TracksAll tracked)
    (violated : ((settings.automatonVerifier (Abstraction.zones.product abstraction) config initial
      limit refine.second automaton).verify limits checks fuel (tracked, precision) origin).1.outcome =
        .violated trace concrete graph last) :
    (settings.automatonExplorer (Abstraction.zones.product abstraction) config initial limit
      automaton).Reaches (fun precision : ZonePrecision × abstraction.Tracked =>
        automaton.TracksAll precision.1) graph ∧ ∃ id node, graph.node? id = some node ∧
          node.target = true ∧ graph.PathTo id trace.actions := by
  have allowed : (fun precision : ZonePrecision × abstraction.Tracked =>
    automaton.TracksAll precision.1) (tracked, precision) := all
  have refines : (settings.automatonVerifier (Abstraction.zones.product abstraction) config initial
    limit refine.second automaton).RefinesWithin _ := refinesWithin_second
  exact (congrArg (Verifier.Shows _ _) violated).mp
    (Verifier.shows_of_verify refines limits checks fuel allowed origin)

/-- The trace of a violated verdict is the path of a timed run to the error location. -/
theorem exists_timedRun_of_violated (built : build locations edges error = .ok automaton)
    (simple : automaton.SimplyTimed) {start : Location}
    (first : automaton.locations.head? = some start) (patient : start.urgent = false)
    (all : automaton.TracksAll tracked)
    (violated : ((settings.automatonVerifier (Abstraction.zones.product abstraction) config initial
      limit refine.second automaton).verify limits checks fuel (tracked, precision) origin).1.outcome =
        .violated trace concrete graph last)
    (mildly : ∀ node ∈ graph.live, automaton.DerivesMildly Located.firstPart graph node) :
    ∃ location valuation, automaton.TimedRun trace.actions location valuation ∧
      some location = automaton.error := by
  obtain ⟨reached, id, node, found, isTarget, leads⟩ := reaches_of_violated all violated
  obtain ⟨node', found', covers⟩ := (simple.holdsAlong built first patient).of_pathTo
    viewsZones_pairExplorer reached mildly leads
  obtain rfl := Option.some.inj (found.symm.trans found')
  obtain ⟨valuation, run⟩ := covers.exists_timedRun
  have atError : some node.state.location = automaton.error :=
    Located.location_of_hits (reached.derived.2.target found isTarget)
  exact ⟨_, valuation, run, atError⟩

end Violated

/-- On edges into urgent locations the zone is mapped by guards and resets only. -/
def EntersUrgentAtOnce (automaton : ControlFlowAutomaton) (bounds : Zone) (source : Nat) : Prop :=
  ∀ edge ∈ automaton.outgoing source, ∀ target, automaton.locations[edge.target]? = some target →
    target.urgent = true → bounds.AppliesMildly edge.clockOperations →
      ∀ result, ZoneState.applyAll bounds edge.clockOperations = some result →
        ∀ after, result.Contains after → ∃ before, bounds.Contains before ∧
          Statement.MovesClocks edge.statements before after

/-- In the graphs of a verifier no time elapses on entry of urgent locations; at the roots all
clocks have the same value.  Unless the initial location is urgent, and if there are no
differences of clocks, a violated verdict has a timed run, in which no time elapses in urgent
locations. -/
theorem urgent_without_delay (built : build locations edges error = .ok automaton)
    (moderate : automaton.Moderate) (settings : VerificationSettings) (abstraction : Abstraction)
    (config : SolverConfig) (initial : Expr) (limit : Option Nat)
    (refine : PrecisionRefiner abstraction.Tracked) :
    (∀ graph : ReachabilityGraph (Located (ZoneState × abstraction.State)) ControlEdge,
      (settings.automatonExplorer (Abstraction.zones.product abstraction) config initial limit
        automaton).Reaches (fun precision : ZonePrecision × abstraction.Tracked =>
          automaton.TracksAll precision.1) graph →
      (∀ node ∈ graph.live, automaton.DerivesMildly Located.firstPart graph node) →
      ∀ node ∈ graph.live, ∃ bounds, node.state.state.1 = .zone bounds ∧
        automaton.EntersUrgentAtOnce bounds node.state.location ∧
        (node.origin = none → ∀ valuation, bounds.Contains valuation →
          ∃ delay ≥ 0, ∀ clock ∈ automaton.clocks, valuation clock = delay)) ∧
    (∀ start, automaton.locations.head? = some start → start.urgent = false →
      automaton.SimplyTimed → ∀ limits checks fuel tracked precision origin trace concrete graph last,
        automaton.TracksAll tracked →
        ((settings.automatonVerifier (Abstraction.zones.product abstraction) config initial limit
          refine.second automaton).verify limits checks fuel (tracked, precision) origin).1.outcome =
            .violated trace concrete graph last →
        (∀ node ∈ graph.live, automaton.DerivesMildly Located.firstPart graph node) →
        ∃ location valuation, automaton.TimedRun trace.actions location valuation ∧
          some location = automaton.error) := by
  constructor
  · intro graph reached mildly node live
    obtain ⟨id, found⟩ := ReachabilityGraph.mem_live.mp live
    obtain ⟨path, leads⟩ := reached.wellFormed.1.exists_pathTo found
    obtain ⟨node', found', bounds, known, suits, -⟩ := (moderate.holdsAlong built).of_pathTo
      viewsZones_pairExplorer reached mildly leads
    obtain rfl := Option.some.inj (found.symm.trans found')
    refine ⟨bounds, known, ?_, fun isRoot valuation contains => ?_⟩
    · intro edge leaves target foundTarget urgent mildly' result applied after contains
      obtain ⟨before, inside, moves, -⟩ := moderate.exists_moves built suits
        (List.mem_filter.mp leaves).1 foundTarget urgent mildly' applied contains
      exact ⟨before, inside, moves⟩
    · obtain ⟨node', found', bounds', known', -, delayed⟩ := (moderate.holdsAlong built).of_pathTo
        viewsZones_pairExplorer reached mildly (.root found isRoot)
      obtain rfl := Option.some.inj (found.symm.trans found')
      obtain rfl := ZoneState.zone.inj (known.symm.trans known')
      obtain ⟨before, areZero, leads⟩ := delayed rfl valuation contains
      obtain ⟨-, ⟨delay, elapses, rfl⟩, -⟩ := Location.leadThrough_delayWithin_iff.mp leads
      exact ⟨delay, elapses, fun clock member => by
        rw [ClockValuation.elapse, areZero clock member, zero_add]⟩
  · intro start first patient simple limits checks fuel tracked precision origin trace concrete
      graph last all violated mildly
    exact exists_timedRun_of_violated built simple first patient all violated mildly

end Verdicts

abbrev PairOutcome (abstraction : Abstraction) :=
  SafetyOutcome (Located (ZoneState × abstraction.State)) ControlEdge
    (ZonePrecision × abstraction.Tracked)

/-- The outcome for zones of some clocks and states of an abstraction. -/
def pairOutcome (abstraction : Abstraction) (refine : PrecisionRefiner abstraction.Tracked)
    (precision : abstraction.Tracked) (automaton : ControlFlowAutomaton) (clocks : List VarDecl) :
    PairOutcome abstraction :=
  ((usualSettings.automatonVerifier (Abstraction.zones.product abstraction) narrowConfig .top none
    refine.second automaton).verify {} SolverStatistics.checks 40 (⟨clocks⟩, precision)
      ({}, .idle)).1.outcome

abbrev timedOutcome (automaton : ControlFlowAutomaton) (clocks : List VarDecl) :
    PairOutcome Abstraction.explicitValues :=
  pairOutcome Abstraction.explicitValues ExplicitPrecision.refine ⟨[]⟩ automaton clocks

/-- The outcome is violated, and the zones of the graph are computed without overflow. -/
structure IsMildlyViolated (automaton : ControlFlowAutomaton) {abstraction : Abstraction}
    (outcome : PairOutcome abstraction) : Prop where
  exists_violated : ∃ trace concrete graph last, outcome = .violated trace concrete graph last ∧
    ∀ node ∈ graph.live, automaton.DerivesMildly Located.firstPart graph node

instance {abstraction : Abstraction} :
    DecidablePred fun outcome : PairOutcome abstraction => automaton.IsMildlyViolated outcome
  | .safe .. => isFalse fun ⟨_, _, _, _, same, _⟩ => by cases same
  | .unknown .. => isFalse fun ⟨_, _, _, _, same, _⟩ => by cases same
  | .violated trace concrete graph last =>
      decidable_of_iff
        (∀ node ∈ graph.live, automaton.DerivesMildly Located.firstPart graph node)
        ⟨fun mild => ⟨trace, concrete, graph, last, rfl, mild⟩, fun ⟨_, _, _, _, same, mild⟩ => by
          cases same
          exact mild⟩

def relayLocations : List Location :=
  [{ name := "starter", invariants := [.atMost beat 2] }, { name := "runner", urgent := true },
   { name := "finish" }]

def relayEdges : List (Nat × Nat × List Statement) :=
  [(0, 1, [.clockGuard (.atLeast beat 1)]), (1, 2, [.clockReset beat 0])]

def relay : ControlFlowAutomaton where
  locations := relayLocations
  edges := relayEdges.map fun (source, target, statements) =>
    { source, target, statements
      formula := .top
      next := .constant 0
      clockOperations := statements.filterMap Statement.clockOperation? ++
        (relayLocations[target]?.map Location.entry).getD [] }
  error := some 2

theorem relay_built : build relayLocations relayEdges (some 2) = .ok relay := by
  decide +kernel

theorem relay_simplyTimed : relay.SimplyTimed where
  compares member :=
    (by decide +kernel : ∀ constraint ∈ relay.clockConstraints, constraint.ComparesOne) _ member
  farConstraint member :=
    (by decide +kernel : ∀ constraint ∈ relay.clockConstraints,
      FarFromOverflow constraint.bound) _ member
  forward member := by
    simp [statements, relay, relayEdges] at member
    omega
  farReset member := by
    simp [statements, relay, relayEdges] at member
    rw [member.2]
    decide

/-- The finish is reached by a timed run, on which the runner does not wait. -/
theorem relay_finishes : relay.SimplyTimed ∧ ∃ trace concrete graph last,
    timedOutcome relay [beat] = .violated trace concrete graph last ∧
      (∀ node ∈ graph.live, ∃ bounds, node.state.state.1 = .zone bounds ∧
        relay.EntersUrgentAtOnce bounds node.state.location) ∧
      ∃ valuation, relay.TimedRun trace.actions 2 valuation := by
  have mild : relay.IsMildlyViolated (timedOutcome relay [beat]) := by decide +kernel
  obtain ⟨trace, concrete, graph, last, outcome, mild⟩ := mild.exists_violated
  have all : relay.TracksAll ⟨[beat]⟩ := by decide +kernel
  obtain ⟨atOnce, runs⟩ := urgent_without_delay relay_built relay_simplyTimed.toModerate
    usualSettings Abstraction.explicitValues narrowConfig .top none ExplicitPrecision.refine
  obtain ⟨location, valuation, run, atError⟩ := runs _ rfl rfl relay_simplyTimed {}
    SolverStatistics.checks 40 ⟨[beat]⟩ ⟨[]⟩ ({}, .idle) trace concrete graph last all outcome mild
  obtain rfl : location = 2 := Option.some.inj atError
  obtain ⟨reached, -⟩ := reaches_of_violated all outcome
  refine ⟨relay_simplyTimed, trace, concrete, graph, last, outcome, fun node live => ?_, valuation,
    run⟩
  obtain ⟨bounds, known, enters, -⟩ := atOnce graph reached mild node live
  exact ⟨bounds, known, enters⟩

def hastyLocations : List Location :=
  [{ name := "start", urgent := true }, { name := "error" }]

def hastyEdges : List (Nat × Nat × List Statement) :=
  [(0, 1, [.clockGuard (.atLeast beat 1)])]

def hastyEdge : ControlEdge where
  source := 0
  target := 1
  statements := [.clockGuard (.atLeast beat 1)]
  formula := .top
  next := .constant 0
  clockOperations := [.guard (.atLeast beat 1), .delay]

def hasty : ControlFlowAutomaton where
  locations := hastyLocations
  edges := [hastyEdge]
  error := some 1

theorem hasty_simplyTimed : hasty.SimplyTimed where
  compares member :=
    (by decide +kernel : ∀ constraint ∈ hasty.clockConstraints, constraint.ComparesOne) _ member
  farConstraint member :=
    (by decide +kernel : ∀ constraint ∈ hasty.clockConstraints,
      FarFromOverflow constraint.bound) _ member
  forward member := by
    simp [statements, hasty, hastyEdge] at member
  farReset member := by
    simp [statements, hasty, hastyEdge] at member

theorem eq_zero_of_hasty {path : List ControlEdge} {location : Nat} {valuation : ClockValuation}
    (run : hasty.TimedRun path location valuation) : location = 0 ∧ valuation = fun _ => 0 := by
  induction run with
  | start stays =>
      obtain ⟨-, same⟩ := stays
      exact ⟨rfl, same.symm⟩
  | step _ leaves moves _ ih =>
      obtain ⟨rfl, rfl⟩ := ih
      obtain rfl := List.mem_singleton.mp leaves
      obtain ⟨holds, -⟩ := moves
      norm_num [ClockConstraint.Holds, ClockConstraint.atLeast, ClockValuation.side] at holds

/-- The zone of the first root of the graph of a violated verdict. -/
def startZone? {abstraction : Abstraction} : PairOutcome abstraction → Option ZoneState
  | .violated _ _ graph _ =>
      (graph.live.find? fun node => node.origin.isNone).map fun node => node.state.state.1
  | _ => none

theorem exists_of_startZone? {abstraction : Abstraction} {outcome : PairOutcome abstraction}
    {start : ZoneState} (isStart : startZone? outcome = some start) :
    ∃ trace concrete graph last, outcome = .violated trace concrete graph last ∧
      ∃ node ∈ graph.live, node.origin = none ∧ node.state.state.1 = start := by
  cases outcome with
  | safe | unknown => cases isStart
  | violated trace concrete graph last =>
      obtain ⟨node, found, same⟩ := Option.map_eq_some_iff.mp isStart
      exact ⟨trace, concrete, graph, last, rfl, node, List.mem_of_find?_eq_some found,
        by simpa using List.find?_some found, same⟩

def hastyZone : Zone where
  clocks := [beat]
  rows := [[.zero, .zero], [.infinity, .zero]]

theorem contains_hastyZone {valuation : ClockValuation} (nonNegative : 0 ≤ valuation beat) :
    hastyZone.Contains valuation := by
  intro row isRow column isColumn
  have isRow : row < 2 := Finset.mem_range.mp isRow
  have isColumn : column < 2 := Finset.mem_range.mp isColumn
  interval_cases row <;> interval_cases column <;>
    simp [Zone.system, Zone.get, hastyZone, Zone.valuesOf, Bound.differences_zero,
      Bound.differences_infinity, nonNegative]

/-- The hasty automaton is violated, for its initial zone is not that of an urgent location,
but no timed run reaches the error. -/
theorem hasty_violated : build hastyLocations hastyEdges (some 1) = .ok hasty ∧
    hasty.SimplyTimed ∧ hasty.TracksAll ⟨[beat]⟩ ∧
    hasty.locations.head?.map Location.urgent = some true ∧
    (∃ trace concrete graph last, timedOutcome hasty [beat] = .violated trace concrete graph last ∧
      ∃ node ∈ graph.live, node.origin = none ∧
        ∃ bounds, node.state.state.1 = .zone bounds ∧ bounds.Contains fun _ => 1) ∧
    ∀ path valuation, ¬ hasty.TimedRun path 1 valuation := by
  have isStart : startZone? (timedOutcome hasty [beat]) = some (.zone hastyZone) := by
    decide +kernel
  obtain ⟨trace, concrete, graph, last, outcome, node, live, isRoot, zone⟩ :=
    exists_of_startZone? isStart
  exact ⟨by decide +kernel, hasty_simplyTimed, by decide +kernel, rfl,
    ⟨trace, concrete, graph, last, outcome, node, live, isRoot, hastyZone, zone,
      contains_hastyZone zero_le_one⟩,
    fun path valuation run => by cases (eq_zero_of_hasty run).1⟩

end ControlFlowAutomaton

end AbstractionRefinement
