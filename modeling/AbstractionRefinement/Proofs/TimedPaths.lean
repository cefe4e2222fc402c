import AbstractionRefinement.Proofs.ZoneExplorers

/-!
# Paths of timed automata

If every constraint compares one clock with a constant, each valuation of the zone of a node
is similar to the end of a timed run along the path to the node.  This holds of the initial
zone, and it survives an edge: a valuation of the extrapolated zone is similar to one of the
zone before, which is the image of a valuation of the parent's zone, which is similar to the
end of a run.  That run goes on along the edge, since similar valuations have similar
successors.
-/

namespace AbstractionRefinement

namespace ControlFlowAutomaton

variable {ω σ π : Type} {automaton : ControlFlowAutomaton} {locations : List Location}
  {edges : List (Nat × Nat × List Statement)} {error : Option Nat}

/-- Every constraint compares one clock with a constant, no clock is set to a negative value,
and the constants are far from overflow. -/
structure SimplyTimed (automaton : ControlFlowAutomaton) : Prop extends automaton.Moderate where
  compares {constraint : ClockConstraint} :
    constraint ∈ automaton.clockConstraints → constraint.ComparesOne
  forward {clock : VarDecl} {value : Int} :
    .clockReset clock value ∈ automaton.statements → 0 ≤ value

theorem SimplyTimed.matters (simple : automaton.SimplyTimed) {operation : ClockOperation}
    (uses : automaton.Uses operation) :
    operation.Matters automaton.clockConstants automaton.clocks := by
  cases operation with
  | guard constraint | invariant constraint =>
      exact ⟨simple.compares uses, clocks_subset_of_uses uses,
        fun _ inside => ZoneState.exists_constant uses inside⟩
  | reset clock value | delay => trivial

theorem SimplyTimed.nonNegative (simple : automaton.SimplyTimed) {zone result : Zone}
    (suits : automaton.Suits zone) (nonNegative : zone.NonNegative)
    {operations : List ClockOperation}
    (uses : ∀ operation ∈ operations, automaton.Uses operation)
    (mildly : zone.AppliesMildly operations)
    (applied : ZoneState.applyAll zone operations = some result) : result.NonNegative :=
  nonNegative.applyAll suits.toCanonical (fun _ member => simple.operation (uses _ member))
    (fun _ member => suits.tracks (uses _ member))
    (fun _ _ member => simple.forward (uses _ member)) mildly applied

theorem stays_initial {start : Location} (first : automaton.locations.head? = some start)
    (patient : start.urgent = false) {before after : ClockValuation}
    (leads : ClockOperation.LeadThrough (Location.delayWithin automaton.initialInvariants) before
      after) : automaton.Stays initial before after := by
  rw [← leadThrough_entry_iff, entry, initial, ← List.head?_eq_getElem?, first, Option.map_some,
    Option.getD_some, Location.entry, patient, if_neg Bool.false_ne_true]
  rwa [initialInvariants, first, Option.map_some, Option.getD_some] at leads

/-- The state has a zone whose valuations are similar to ends of runs along the edges. -/
def Covers (automaton : ControlFlowAutomaton) (located : Located ZoneState)
    (path : List ControlEdge) : Prop :=
  ∃ bounds, located.state = .zone bounds ∧ automaton.Suits bounds ∧ bounds.NonNegative ∧
    ∀ valuation, bounds.Contains valuation → ∃ reached,
      automaton.TimedRun path located.location reached ∧
        ∀ clock ∈ automaton.clocks, reached.Similar automaton.clockConstants valuation clock

theorem Covers.exists_timedRun {located : Located ZoneState} {path : List ControlEdge}
    (covers : automaton.Covers located path) :
    ∃ valuation, automaton.TimedRun path located.location valuation := by
  obtain ⟨bounds, -, suits, -, ends⟩ := covers
  obtain ⟨valuation, contains⟩ := Zone.exists_contains_of_closed suits.closed suits.nodup
  obtain ⟨reached, run, -⟩ := ends valuation contains
  exact ⟨reached, run⟩

/-- The zones of a graph contain only valuations similar to ends of runs. -/
theorem SimplyTimed.holdsAlong (simple : automaton.SimplyTimed)
    (built : build locations edges error = .ok automaton) {start : Location}
    (first : automaton.locations.head? = some start) (patient : start.urgent = false) :
    automaton.HoldsAlong automaton.Covers where
  start {tracked} all mildly nonempty := by
    obtain ⟨suits, images⟩ := simple.initialZone all mildly nonempty
    have nonNegative := simple.nonNegative ⟨Zone.canonical_origin _, all.1, all.2⟩
      (Zone.nonNegative_origin tracked.clocks) (fun _ => uses_initial) mildly
      (ZoneState.applyAll_origin nonempty)
    refine ⟨_, rfl, suits, nonNegative, fun valuation contains => ?_⟩
    obtain ⟨zeros, areZero, leads⟩ := images valuation contains
    have similarZeros : ∀ clock ∈ automaton.clocks,
        ClockValuation.Similar automaton.clockConstants (fun _ => 0) zeros clock :=
      fun clock member => .inl (areZero clock (all.2 member)).symm
    obtain ⟨reached, leads', similar⟩ := leads.exists_similar
      (fun operation member => simple.matters (uses_initial member)) similarZeros
    exact ⟨reached, .start (stays_initial first patient leads'), similar⟩
  step {located path edge bounds result} covers leaves known mildly applied nonempty := by
    obtain ⟨bounds', known', suits, nonNegative, ends⟩ := covers
    obtain rfl := ZoneState.zone.inj (known.symm.trans known')
    have member := (List.mem_filter.mp leaves).1
    have uses : ∀ operation ∈ edge.clockOperations, automaton.Uses operation := fun _ inside =>
      uses_clockOperations built member inside
    obtain ⟨suits', images⟩ := simple.applyAll suits uses mildly.1 applied
    have nonNegative' := simple.nonNegative suits nonNegative uses mildly.1 applied
    have canonizes := mildly.2 result applied
    refine ⟨_, rfl, simple.extrapolate suits' canonizes nonempty,
      nonNegative'.extrapolate simple.regularConstants canonizes, fun valuation contains => ?_⟩
    -- Back over the extrapolation and the operations, and forth along the run.
    obtain ⟨original, inResult, similar⟩ := suits'.toCanonical.exists_similar nonNegative'
      suits'.nodup simple.regularConstants canonizes contains
    obtain ⟨before, inBounds, leads⟩ := images original inResult
    obtain ⟨source, run, similarSource⟩ := ends before inBounds
    obtain ⟨reached, leads', similarReached⟩ := leads.exists_similar
      (fun operation inside => simple.matters (uses operation inside)) similarSource
    rw [clockOperations_of_build built member] at leads'
    obtain ⟨middle, moves, stays⟩ := ClockOperation.leadThrough_append_iff.mp leads'
    exact ⟨reached, .step run leaves (Statement.leadThrough_iff.mp moves)
      (leadThrough_entry_iff.mp stays), fun clock isClock =>
        (similarReached clock isClock).trans (similar clock)⟩

/-- Every path from a root of a graph of zones to a node is the path of a timed run. -/
theorem exists_timedRun_of_pathTo {strategy : SearchStrategy} {stop : StopCriterion}
    {coverage : CoverageMode} {graph : ReachabilityGraph (Located ZoneState) ControlEdge}
    (built : build locations edges error = .ok automaton) (simple : automaton.SimplyTimed)
    {start : Location} (first : automaton.locations.head? = some start)
    (patient : start.urgent = false)
    (reached : (automaton.zoneExplorer (ω := ω) strategy stop coverage).Reaches
      automaton.TracksAll graph)
    (mildly : ∀ node ∈ graph.live, automaton.DerivesMildly id graph node) {id : Nat}
    {path : List ControlEdge} (leads : graph.PathTo id path) :
    ∃ node valuation, graph.node? id = some node ∧
      automaton.TimedRun path node.state.location valuation := by
  obtain ⟨node, found, covers⟩ := (simple.holdsAlong built first patient).of_pathTo
    viewsZones_zoneExplorer reached mildly leads
  obtain ⟨valuation, run⟩ := covers.exists_timedRun
  exact ⟨node, valuation, found, run⟩

def beat : VarDecl :=
  ⟨"beat", .rat⟩

def age : VarDecl :=
  ⟨"age", .rat⟩

/-- The metronome ticks at the end of a swing, which takes one or two units of time. -/
def metronomeLocations : List Location :=
  [{ name := "swing", invariants := [.atMost beat 2] },
   { name := "tick", urgent := true },
   { name := "stopped" }]

def metronomeEdges : List (Nat × Nat × List Statement) :=
  [(0, 1, [.clockGuard (.atLeast beat 1)]),
   (1, 0, [.clockReset beat 0]),
   (1, 2, [.clockGuard (.above age 4)])]

def metronome : ControlFlowAutomaton where
  locations := metronomeLocations
  edges := metronomeEdges.map fun (source, target, statements) =>
    { source, target, statements
      formula := .top
      next := .constant 0
      clockOperations := statements.filterMap Statement.clockOperation? ++
        (metronomeLocations[target]?.map Location.entry).getD [] }
  error := some 2

theorem metronome_built : build metronomeLocations metronomeEdges (some 2) = .ok metronome := by
  decide +kernel

theorem metronome_simplyTimed : metronome.SimplyTimed where
  compares member :=
    (by decide +kernel : ∀ constraint ∈ metronome.clockConstraints, constraint.ComparesOne) _ member
  farConstraint member :=
    (by decide +kernel : ∀ constraint ∈ metronome.clockConstraints,
      FarFromOverflow constraint.bound) _ member
  forward member := by
    simp [statements, metronome, metronomeEdges] at member
    omega
  farReset member := by
    simp [statements, metronome, metronomeEdges] at member
    rw [member.2]
    decide

def metronomeGraph : ReachabilityGraph (Located ZoneState) ControlEdge :=
  ((metronome.zoneExplorer .breadthFirst .never .single).check 99 ⟨[beat, age]⟩ 0
    (.start {} (fun _ => 0) ()) ⟨(), .empty, .idle⟩).2.graph

/-- After four ticks the upper bounds of the age are forgotten, and a node behind them still
is the end of a run. -/
theorem metronome_stops : metronome.SimplyTimed ∧ ∃ path valuation,
    metronomeGraph.PathTo 10 path ∧ metronome.TimedRun path 2 valuation := by
  have reached : (metronome.zoneExplorer (ω := Unit) .breadthFirst .never .single).Reaches
      metronome.TracksAll metronomeGraph :=
    .check_self .empty (by decide +kernel) 99 0 (.start {} (fun _ => 0) ())
  have there : (metronomeGraph.node? 10).map (fun node => node.state.location) = some 2 := by
    decide +kernel
  obtain ⟨node, found, atEnd⟩ := Option.map_eq_some_iff.mp there
  obtain ⟨path, leads⟩ := reached.wellFormed.1.exists_pathTo found
  obtain ⟨node', valuation, found', run⟩ := exists_timedRun_of_pathTo metronome_built
    metronome_simplyTimed rfl rfl reached (by decide +kernel) leads
  obtain rfl := Option.some.inj (found.symm.trans found')
  exact ⟨metronome_simplyTimed, path, valuation, leads, atEnd ▸ run⟩

end ControlFlowAutomaton

end AbstractionRefinement
