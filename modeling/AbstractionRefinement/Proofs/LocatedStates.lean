import AbstractionRefinement.ControlFlowAutomata
import AbstractionRefinement.Proofs.ExplorationInvariants

/-!
# States at locations

The analysis of located states lists the initial states of the analysis inside at the initial
location, and the successors under an edge at the target of the edge.
-/

namespace AbstractionRefinement

open AbstractionRefinement.Computation

namespace Located

variable {ω σ π : Type} {automaton : ControlFlowAutomaton} {inner : Analysis ω σ ControlEdge π}
  {strategy : SearchStrategy} {stop : StopCriterion} {coverage : CoverageMode} {precision : π}
  {located next : Located σ} {edge : ControlEdge}

section Runs

variable {world after : ω} {states : List (Located σ)}

theorem initialStates_run
    (run : (analysis inner).initialStates precision world = (.ok states, after)) :
    ∃ inners, inner.initialStates precision world = (.ok inners, after) ∧
      states = inners.map (Located.mk ControlFlowAutomaton.initial) := by
  have ensures : ((analysis inner).initialStates precision).Ensures world fun states after =>
      ∃ inners, inner.initialStates precision world = (.ok inners, after) ∧
        states = inners.map (Located.mk ControlFlowAutomaton.initial) := by
    unfold analysis
    dsimp only
    rw [ensures_bind]
    apply ensures_of_run
    intro inners after runInner
    exact (ensures_pure _).mpr ⟨inners, runInner, rfl⟩
  exact ensures.of_run run

/-- Edges that do not leave the location have no successors. -/
theorem successors_run
    (run : (analysis inner).successors precision located edge world = (.ok states, after)) :
    edge.source ≠ located.location ∧ states = [] ∨ edge.source = located.location ∧
      ∃ inners, inner.successors precision located.state edge world = (.ok inners, after) ∧
        states = inners.map (Located.mk edge.target) := by
  have ensures : ((analysis inner).successors precision located edge).Ensures world
      fun states after => edge.source ≠ located.location ∧ states = [] ∨
        edge.source = located.location ∧ ∃ inners,
          inner.successors precision located.state edge world = (.ok inners, after) ∧
            states = inners.map (Located.mk edge.target) := by
    unfold analysis
    dsimp only
    split
    case isTrue leaves =>
      rw [ensures_bind]
      apply ensures_of_run
      intro inners after runInner
      exact .inr ⟨leaves, inners, runInner, rfl⟩
    case isFalse elsewhere => exact .inl ⟨elsewhere, rfl⟩
  exact ensures.of_run run

end Runs

theorem state_of_starts
    (starts : (explorer automaton inner strategy stop coverage).Starts precision located) :
    located.location = ControlFlowAutomaton.initial ∧ ∃ world states after,
      inner.initialStates precision world = (.ok states, after) ∧ located.state ∈ states := by
  obtain ⟨world, states, after, run, member⟩ := starts
  obtain ⟨inners, runInner, rfl⟩ := initialStates_run run
  obtain ⟨state, isInner, rfl⟩ := List.mem_map.mp member
  exact ⟨rfl, world, inners, after, runInner, isInner⟩

theorem state_of_steps
    (steps : (explorer automaton inner strategy stop coverage).Steps precision located edge next) :
    next.location = edge.target ∧ ∃ world states after,
      inner.successors precision located.state edge world = (.ok states, after) ∧
        next.state ∈ states := by
  obtain ⟨-, world, states, after, run, member⟩ := steps
  rcases successors_run run with ⟨-, rfl⟩ | ⟨-, inners, runInner, rfl⟩
  · cases member
  · obtain ⟨state, isInner, rfl⟩ := List.mem_map.mp member
    exact ⟨rfl, world, inners, after, runInner, isInner⟩

theorem location_of_starts
    (starts : (explorer automaton inner strategy stop coverage).Starts precision located) :
    located.location = ControlFlowAutomaton.initial :=
  (state_of_starts starts).1

theorem location_of_steps
    (steps : (explorer automaton inner strategy stop coverage).Steps precision located edge next) :
    edge ∈ automaton.outgoing located.location ∧ next.location = edge.target :=
  ⟨steps.1, (state_of_steps steps).1⟩

theorem location_of_hits
    (hits : (explorer automaton inner strategy stop coverage).Hits located) :
    some located.location = automaton.error := by
  obtain ⟨world, after, run⟩ := hits
  have isTrue : decide (some located.location = automaton.error) = true :=
    Except.ok.inj (congrArg Prod.fst run)
  exact of_decide_eq_true isTrue

end Located

end AbstractionRefinement
