import AbstractionRefinement.Proofs.BoundedRuns
import AbstractionRefinement.Proofs.GraphOrigins
import AbstractionRefinement.Proofs.StaleNodes
import AbstractionRefinement.Proofs.VerifiedGraphs

/-!
# Rounds of the refinement loop

A round consists of an abstraction step with the refiner's answer, and of what is done about a
spurious counterexample.  If the answer teaches nothing new, the first node on the path that was
built under an older precision is pruned, and without such a node the refinement has stalled.
-/

namespace AbstractionRefinement

open AbstractionRefinement.Computation

/-- A spurious counterexample: its path, the refined precision, and the position from which the
graph is to be built again. -/
structure SpuriousAnswer (π : Type) where
  path : List Nat
  refined : π
  pruneIndex : Nat

namespace Verifier

open ReachabilityGraph

variable {ω σ α π : Type} (verifier : Verifier ω σ α π) (budget : Budget ω)

/-- A round up to the answer of the refiner. -/
def examine [Precision π] (explorationFuel : Nat) (precision : π) (version : Nat) :
    Run ω σ α (SafetyOutcome σ α π ⊕ SpuriousAnswer π) := do
  match ← verifier.abstractionStep budget explorationFuel precision version with
  | .exhausted => return .inl (.safe (← Run.graph) precision)
  | .targetFound => do
      let counterexample ← nearestCounterexample
      Run.explore (Exploration.poll budget)
      let found ← Run.explore (Exploration.ofAnalysis
        (verifier.refiner counterexample.trace precision))
      match found with
      | .feasible concrete =>
          return .inl (.violated counterexample.trace concrete (← Run.graph) precision)
      | .spurious refined pruneIndex =>
          return .inr ⟨counterexample.nodes, refined, pruneIndex⟩
  | status =>
      throw (.inconsistentGraph ("abstractor returned in state " ++ status.display))

/-- The rest of a round after a spurious counterexample: the precision and the version of the
next round. -/
def react [DecidableEq π] (precision : π) (version : Nat) (answer : SpuriousAnswer π) :
    Run ω σ α (π × Nat) := do
  Run.count fun figures => { figures with refinements := figures.refinements + 1 }
  if answer.refined = precision then
    match firstStale? (← Run.graph) version answer.path with
    | none => throw (.refinementStalled (← get).statistics.iterations)
    | some position => do
        verifier.pruneAt answer.path position
        return (precision, version)
  else do
    verifier.pruneAt answer.path (min answer.pruneIndex (answer.path.length - 1))
    return (answer.refined, version + 1)

/-- The run after the first part of a round. -/
def resume [Precision π] [DecidableEq π] (explorationFuel fuel : Nat) (precision : π)
    (version : Nat) : SafetyOutcome σ α π ⊕ SpuriousAnswer π → Run ω σ α (SafetyOutcome σ α π)
  | .inl outcome => return outcome
  | .inr answer => do
      let next ← verifier.react precision version answer
      verifier.loop budget explorationFuel fuel next.1 next.2

theorem loop_succ [Precision π] [DecidableEq π] (explorationFuel fuel : Nat) (precision : π)
    (version : Nat) :
    verifier.loop budget explorationFuel (fuel + 1) precision version =
      verifier.examine budget explorationFuel precision version >>=
        verifier.resume budget explorationFuel fuel precision version := by
  unfold examine
  rw [loop]
  simp only [bind_assoc]
  refine bind_congr fun status => ?_
  cases status with
  | exhausted => simp [resume]
  | idle => rfl
  | exploring => rfl
  | targetFound =>
      simp only [bind_assoc]
      refine bind_congr fun counterexample => bind_congr fun _ => bind_congr fun found => ?_
      cases found with
      | feasible concrete => simp [resume]
      | spurious refined pruneIndex =>
          simp only [pure_bind, resume, react, bind_assoc]
          refine bind_congr fun _ => ?_
          split
          case isTrue =>
            simp only [bind_assoc]
            refine bind_congr fun graph => ?_
            cases firstStale? graph version counterexample.nodes with
            | none => rfl
            | some position => simp
          case isFalse => simp

variable {verifier budget}

/-- An abstraction step builds nodes of the current version only. -/
theorem staleFrom_abstractionStep [Precision π] (fuel : Nat) (precision : π) (version : Nat)
    (state : RunState ω σ α) (wellFormed : state.exploration.graph.WellFormed) :
    (verifier.abstractionStep budget fuel precision version).Ensures state fun _ after =>
      StaleFrom version state.exploration.graph after.exploration.graph := by
  unfold abstractionStep
  simp only [ensures_bind, ensures_get]
  split
  case isTrue => trivial
  case isFalse =>
    simp only [ensures_bind, ensures_explore, Run.count, Run.graph, ensures_modify,
      ensures_get, ensures_pure]
    apply ensures_poll
    exact ((Explorer.staleFrom_keeps precision version _).outcome_check fuel budget
      state.exploration ⟨wellFormed, .refl ..⟩).mono (fun _ _ valid => valid.2)
        fun _ _ _ => trivial

theorem persistent_abstractionStep [Precision π] (precision : π) (version : Nat) :
    Persistent fun fuel => verifier.abstractionStep budget fuel precision version := by
  unfold abstractionStep
  have rest : Persistent fun fuel => (do
      Run.explore (Exploration.poll budget)
      Run.count fun figures =>
        { figures with
          iterations := figures.iterations + 1
          precisionSize := Precision.size precision }
      let status ← Run.explore (verifier.explorer.check fuel precision version budget)
      let graph ← Run.graph
      Run.count fun figures => { figures with graphSize := graph.size, graphDepth := graph.depth }
      return status : Run ω σ α ExplorationStatus) :=
    (persistent_const _).bind fun _ => (persistent_const _).bind fun _ =>
      (Run.persistent_explore (Explorer.persistent_check precision version budget)).bind
        fun _ => persistent_const _
  exact (persistent_const get).bind fun _ => .ite ((persistent_const _).bind fun _ => rest) rest

theorem examine_congr [Precision π] {fuel other : Nat} {precision : π} {version : Nat}
    {state : RunState ω σ α}
    (same : verifier.abstractionStep budget fuel precision version state =
      verifier.abstractionStep budget other precision version state) :
    verifier.examine budget fuel precision version state =
      verifier.examine budget other precision version state := by
  unfold examine
  rw [bind_run, bind_run, same]

/-- What is known when a counterexample was found spurious. -/
structure Examined (verifier : Verifier ω σ α π) (precision : π) (version : Nat)
    (before : RunState ω σ α) (answer : SpuriousAnswer π) (after : RunState ω σ α) : Prop where
  reached : verifier.HasReached (fun _ => True) after
  staleFrom : StaleFrom version before.exploration.graph after.exploration.graph
  answered : ∃ trace world last, verifier.refiner trace precision world =
    (.ok (.spurious answer.refined answer.pruneIndex), last)

theorem examined_of_examine [Precision π] {fuel : Nat} {precision : π} {version : Nat}
    {before after : RunState ω σ α} {answer : SpuriousAnswer π}
    (reached : verifier.HasReached (fun _ => True) before)
    (run : verifier.examine budget fuel precision version before = (.ok (.inr answer), after)) :
    verifier.Examined precision version before answer after := by
  suffices ensures : (verifier.examine budget fuel precision version).Ensures before
      fun result after => ∀ answer, result = .inr answer →
        verifier.Examined precision version before answer after from
    ensures.of_run run answer rfl
  unfold examine
  rw [ensures_bind]
  refine ((reached_abstractionStep budget fuel trivial version before reached).and
    (staleFrom_abstractionStep fuel precision version before reached.wellFormed.1)).mono ?_
  rintro status explored ⟨reached, staleFrom⟩
  cases status with
  | exhausted => rintro _ ⟨⟩
  | idle => trivial
  | exploring => trivial
  | targetFound =>
      dsimp only
      rw [ensures_bind]
      refine (ensures_nearestCounterexample explored).mono ?_
      rintro counterexample _ rfl
      simp only [ensures_bind, ensures_explore, ensures_ofAnalysis]
      apply ensures_poll
      apply ensures_of_run
      intro found world refined
      cases found with
      | feasible concrete => rintro _ ⟨⟩
      | spurious precision pruneIndex =>
          rintro _ ⟨⟩
          exact ⟨reached, staleFrom, _, _, _, refined⟩

/-- The state in which the graph is pruned. -/
def countRefinement (state : RunState ω σ α) : RunState ω σ α :=
  { state with
    statistics := { state.statistics with refinements := state.statistics.refinements + 1 } }

/-- The position on the path is the first one of an older version. -/
structure IsFirstStale (graph : ReachabilityGraph σ α) (version : Nat) (path : List Nat)
    (position : Nat) : Prop where
  fresh : Explorer.Fresh graph version (path.take position)
  stale : ∃ id node, path[position]? = some id ∧ graph.node? id = some node ∧
    node.version < version

theorem isFirstStale_of_firstStale? {graph : ReachabilityGraph σ α} {version position : Nat}
    {path : List Nat} (first : firstStale? graph version path = some position) :
    IsFirstStale graph version path position := by
  obtain ⟨inside, stale, earlier⟩ := List.findIdx?_eq_some_iff_getElem.mp first
  constructor
  · intro id member node found
    obtain ⟨index, small, rfl⟩ := List.mem_take_iff_getElem.mp member
    have notStale := earlier index (by omega)
    rw [found, Option.any_some, decide_eq_true_eq] at notStale
    exact Nat.le_of_not_lt notStale
  · obtain ⟨node, found, older⟩ := (Option.any_eq_true ..).mp stale
    exact ⟨path[position], node, List.getElem?_eq_getElem inside, found, of_decide_eq_true older⟩

/-- Pruning at a live stale node succeeds and leaves fewer stale nodes, under both strategies. -/
theorem pruneAt_stale {path : List Nat} {position version : Nat} {state : RunState ω σ α}
    (wellFormed : state.exploration.graph.WellFormed)
    (first : IsFirstStale state.exploration.graph version path position) :
    ∃ next, verifier.pruneAt path position state = (.ok (), next) ∧
      next.exploration.graph.staleCount version <
        state.exploration.graph.staleCount version := by
  obtain ⟨id, node, atPosition, found, older⟩ := first.stale
  have chosen : path.getD position 0 = id := by simp [atPosition]
  cases strategy : verifier.prune with
  | full =>
      refine ⟨_, by unfold pruneAt; rw [strategy]; rfl, ?_⟩
      exact staleCount_lt found older (node?_pruneAll _ id) (by simp)
  | lazy =>
      obtain ⟨after, run, vanished, kept⟩ := wellFormed.prune_removes found
      refine ⟨{ state with exploration := { state.exploration with graph := after } }, ?_,
        staleCount_lt found older vanished kept⟩
      unfold pruneAt
      rw [strategy, chosen]
      simp only [Run.explore, Exploration.onGraph, run]

theorem react_same [DecidableEq π] {precision : π} {version : Nat} {answer : SpuriousAnswer π}
    {state : RunState ω σ α} (wellFormed : state.exploration.graph.WellFormed)
    (same : answer.refined = precision) :
    (Explorer.Fresh state.exploration.graph version answer.path ∧
      verifier.react precision version answer state =
        (.error (.refinementStalled state.statistics.iterations), countRefinement state)) ∨
    ∃ position next, IsFirstStale state.exploration.graph version answer.path position ∧
      verifier.pruneAt answer.path position (countRefinement state) = (.ok (), next) ∧
      verifier.react precision version answer state = (.ok (precision, version), next) ∧
      next.exploration.graph.staleCount version < state.exploration.graph.staleCount version := by
  have reacts : verifier.react precision version answer state =
      (match firstStale? state.exploration.graph version answer.path with
        | none => throw (.refinementStalled state.statistics.iterations)
        | some position => do
            verifier.pruneAt answer.path position
            return (precision, version) : Run ω σ α (π × Nat)) (countRefinement state) := by
    unfold react
    rw [if_pos same]
    show (match firstStale? state.exploration.graph version answer.path with
        | none => do throw (.refinementStalled (← get).statistics.iterations)
        | some position => do
            verifier.pruneAt answer.path position
            return (precision, version) : Run ω σ α (π × Nat)) (countRefinement state) = _
    cases firstStale? state.exploration.graph version answer.path <;> rfl
  cases found : firstStale? state.exploration.graph version answer.path with
  | none =>
      refine .inl ⟨Explorer.fresh_of_firstStale? found, ?_⟩
      rw [reacts, found]
      rfl
  | some position =>
      have first := isFirstStale_of_firstStale? found
      obtain ⟨next, pruned, fewer⟩ : ∃ next,
          verifier.pruneAt answer.path position (countRefinement state) = (.ok (), next) ∧
            next.exploration.graph.staleCount version <
              state.exploration.graph.staleCount version :=
        pruneAt_stale wellFormed first
      refine .inr ⟨position, next, first, pruned, ?_, fewer⟩
      rw [reacts, found]
      dsimp only
      rw [bind_run, pruned]
      rfl

theorem react_changed [DecidableEq π] {precision refined : π} {version following : Nat}
    {answer : SpuriousAnswer π} {state next : RunState ω σ α} (changed : answer.refined ≠ precision)
    (reacts : verifier.react precision version answer state = (.ok (refined, following), next)) :
    refined = answer.refined ∧ following = version + 1 := by
  suffices ensures : (verifier.react precision version answer).Ensures state fun result _ =>
      result = (answer.refined, version + 1) by
    have equal := ensures.of_run reacts
    exact ⟨congrArg Prod.fst equal, congrArg Prod.snd equal⟩
  unfold react
  rw [if_neg changed]
  simp only [Run.count, ensures_bind, ensures_modify, ensures_pure]
  exact ensures_of_run fun _ _ _ => trivial

theorem reached_react [DecidableEq π] (precision : π) (version : Nat) (answer : SpuriousAnswer π)
    (state : RunState ω σ α) (reached : verifier.HasReached (fun _ => True) state) :
    (verifier.react precision version answer).Ensures state fun _ after =>
      verifier.HasReached (fun _ => True) after := by
  unfold react
  simp only [Run.count, ensures_bind, ensures_modify]
  split
  case isTrue =>
    simp only [Run.graph, ensures_bind, ensures_get, ensures_pure]
    split
    case h_1 => trivial
    case h_2 position _ =>
      rw [ensures_bind]
      exact (reached_pruneAt answer.path position _ (by exact reached)).mono fun _ _ => id
  case isFalse =>
    rw [ensures_bind]
    exact (reached_pruneAt answer.path _ _ (by exact reached)).mono fun _ _ => id

end Verifier

end AbstractionRefinement
