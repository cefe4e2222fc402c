import AbstractionRefinement.Proofs.ReachedGraphs

/-!
# Graphs behind verdicts

The graph of a verdict is reached by checks and pruning, under precisions that the refiner
makes of the initial one.  The trace of a violated verdict goes along the path from a root of
the graph to a target.
-/

namespace AbstractionRefinement

open AbstractionRefinement.Computation

namespace ReachabilityGraph

variable {σ α : Type} {graph : ReachabilityGraph σ α}

/-- The actions on the way from a root to the node. -/
inductive PathTo (graph : ReachabilityGraph σ α) : Nat → List α → Prop where
  | root {id : Nat} {node : GraphNode σ α} (found : graph.node? id = some node)
      (isRoot : node.origin = none) : PathTo graph id []
  | step {id parent : Nat} {node : GraphNode σ α} {action : α} {actions : List α}
      (path : PathTo graph parent actions) (found : graph.node? id = some node)
      (origin : node.origin = some (parent, action)) : PathTo graph id (actions ++ [action])

theorem WellFormed.exists_pathTo (wellFormed : graph.WellFormed) {id : Nat} {node : GraphNode σ α}
    (found : graph.node? id = some node) : ∃ actions, graph.PathTo id actions := by
  induction id using Nat.strong_induction_on generalizing node with
  | _ id ih =>
      cases origin : node.origin with
      | none => exact ⟨[], .root found origin⟩
      | some source =>
          obtain ⟨parent, action⟩ := source
          obtain ⟨older, parentNode, foundParent, -, -⟩ := wellFormed.above found origin
          obtain ⟨actions, path⟩ := ih parent older foundParent
          exact ⟨actions ++ [action], .step path found origin⟩

/-- The walk up from a node, the other way round, is the path to it. -/
theorem pathTo_of_pathUpWithin {fuel id : Nat} {path : List Nat}
    (walks : graph.pathUpWithin fuel id = .ok path) {nodes : List (GraphNode σ α)}
    (looked : path.reverse.mapM graph.lookup = .ok nodes) :
    graph.PathTo id (nodes.filterMap fun node => node.origin.map Prod.snd) := by
  induction fuel generalizing id path nodes with
  | zero => cases walks
  | succ fuel ih =>
      obtain ⟨node, lookedUp, walks⟩ := exists_of_bind_eq_ok walks
      have found := lookup_eq_ok_iff.mp lookedUp
      have lookedSelf : [id].mapM graph.lookup = .ok [node] := by
        rw [List.mapM_cons, lookedUp]
        rfl
      cases origin : node.origin with
      | none =>
          rw [GraphNode.parent, origin] at walks
          cases walks
          obtain rfl := Except.ok.inj (lookedSelf.symm.trans looked)
          rw [List.filterMap_cons, origin]
          exact .root found origin
      | some source =>
          obtain ⟨parent, action⟩ := source
          rw [GraphNode.parent, origin] at walks
          obtain ⟨above, walksAbove, made⟩ := exists_of_bind_eq_ok walks
          cases made
          rw [List.reverse_cons, List.mapM_append] at looked
          obtain ⟨nodesAbove, lookedAbove, looked⟩ := exists_of_bind_eq_ok looked
          obtain ⟨last, lookedLast, made⟩ := exists_of_bind_eq_ok looked
          cases made
          obtain rfl := Except.ok.inj (lookedSelf.symm.trans lookedLast)
          rw [List.filterMap_append, List.filterMap_cons, origin]
          exact .step (ih walksAbove lookedAbove) found origin

end ReachabilityGraph

/-- The trace of a counterexample goes along the path to its target. -/
theorem Counterexample.pathTo_of_ofGraph {σ α : Type} {graph : ReachabilityGraph σ α}
    {target : Nat} {counterexample : Counterexample σ α}
    (made : ofGraph graph target = .ok counterexample) :
    graph.PathTo target counterexample.trace.actions := by
  obtain ⟨path, walks, made⟩ := exists_of_bind_eq_ok made
  obtain ⟨nodes, looked, made⟩ := exists_of_bind_eq_ok made
  obtain ⟨up, walksUp, rfl⟩ := ReachabilityGraph.exists_of_pathTo walks
  have leads := ReachabilityGraph.pathTo_of_pathUpWithin walksUp looked
  dsimp only at made
  split at made
  case h_1 trace listed =>
    cases made
    rwa [Trace.actions_of_ofLists? listed]
  case h_2 => cases made

/-- Pruning succeeds at live nodes only. -/
theorem Explorer.Reaches.ensures_prune {ω σ α π : Type} {explorer : Explorer ω σ α π}
    {mayUse : π → Prop} {graph : ReachabilityGraph σ α} (reached : explorer.Reaches mayUse graph)
    (id : Nat) : (ReachabilityGraph.prune id).Ensures graph
      fun _ after => explorer.Reaches mayUse after := by
  apply ensures_of_run
  intro _ after run
  cases found : graph.node? id with
  | none =>
      have fails : (ReachabilityGraph.prune id).Ensures graph fun _ _ => False := by
        unfold ReachabilityGraph.prune
        simp only [ensures_bind, ReachabilityGraph.ensures_getNode, found]
        intro _ unfounded
        cases unfounded
      exact (fails.of_run run).elim
  | some node =>
      have pruned := reached.prune found
      rwa [run] at pruned

namespace Verifier

open ReachabilityGraph

variable {ω σ α π : Type} {verifier : Verifier ω σ α π} {mayUse : π → Prop}

/-- The refiner makes precisions that may be used of those that may be used. -/
def RefinesWithin (verifier : Verifier ω σ α π) (mayUse : π → Prop) : Prop :=
  ∀ ⦃trace precision refined position world after⦄, mayUse precision →
    verifier.refiner trace precision world = (.ok (.spurious refined position), after) →
      mayUse refined

/-- The graph of the verdict was reached, and the trace leads to a target of it. -/
def Shows (explorer : Explorer ω σ α π) (mayUse : π → Prop) : SafetyOutcome σ α π → Prop
  | .safe graph _ => explorer.Reaches mayUse graph
  | .violated trace _ graph _ => explorer.Reaches mayUse graph ∧ ∃ id node,
      graph.node? id = some node ∧ node.target = true ∧ graph.PathTo id trace.actions
  | .unknown _ => True

/-- The graph of the run was reached. -/
abbrev HasReached (verifier : Verifier ω σ α π) (mayUse : π → Prop) (state : RunState ω σ α) :
    Prop :=
  verifier.explorer.Reaches mayUse state.exploration.graph

theorem reached_abstractionStep [Precision π] (budget : Budget ω) (fuel : Nat) {precision : π}
    (allowed : mayUse precision) (version : Nat) (state : RunState ω σ α)
    (reached : verifier.HasReached mayUse state) :
    (verifier.abstractionStep budget fuel precision version).Ensures state
      fun _ after => verifier.HasReached mayUse after := by
  unfold abstractionStep
  simp only [ensures_bind, ensures_get]
  split
  case isTrue => trivial
  case isFalse =>
    simp only [ensures_bind, ensures_explore, Run.count, Run.graph, ensures_modify,
      ensures_get, ensures_pure]
    apply ensures_poll
    apply ensures_of_run
    intro status after run
    have checked := reached.check_self allowed fuel version budget
    rwa [run] at checked

theorem reached_pruneAt (path : List Nat) (position : Nat) (state : RunState ω σ α)
    (reached : verifier.HasReached mayUse state) :
    (verifier.pruneAt path position).Ensures state
      fun _ after => verifier.HasReached mayUse after := by
  unfold pruneAt
  rw [ensures_explore, ensures_onGraph]
  cases verifier.prune with
  | full => exact reached.pruneAll
  | lazy => exact reached.ensures_prune _

theorem pathTo_nearestCounterexample (state : RunState ω σ α) (linked : state.exploration.graph.Linked) :
    (nearestCounterexample : Run ω σ α (Counterexample σ α)).Ensures state
      fun counterexample after => after = state ∧ ∃ id node,
        state.exploration.graph.node? id = some node ∧ node.target = true ∧
          state.exploration.graph.PathTo id counterexample.trace.actions := by
  unfold nearestCounterexample Run.graph
  simp only [ensures_bind, ensures_get, ensures_pure]
  split
  case h_1 => trivial
  case h_2 target nearest =>
    obtain ⟨node, found, isTarget⟩ := nearestTarget?_spec linked nearest
    exact (ensures_lift _).mpr fun counterexample made =>
      ⟨rfl, target, node, found, isTarget, Counterexample.pathTo_of_ofGraph made⟩

theorem shows_loop [Precision π] [DecidableEq π] (refines : verifier.RefinesWithin mayUse)
    (budget : Budget ω) (explorationFuel fuel : Nat) {precision : π}
    (allowed : mayUse precision) (version : Nat) (state : RunState ω σ α)
    (reached : verifier.HasReached mayUse state) :
    (verifier.loop budget explorationFuel fuel precision version).Ensures state
      fun outcome _ => Shows verifier.explorer mayUse outcome := by
  induction fuel generalizing precision version state with
  | zero => trivial
  | succ fuel ih =>
      unfold loop
      rw [ensures_bind]
      apply (reached_abstractionStep budget explorationFuel allowed version state reached).mono
      intro status explored reached
      cases status with
      | exhausted =>
          simp only [Run.graph, ensures_bind, ensures_get, ensures_pure]
          exact reached
      | idle => trivial
      | exploring => trivial
      | targetFound =>
          dsimp only
          rw [ensures_bind]
          apply (pathTo_nearestCounterexample explored reached.wellFormed.1.linked).mono
          rintro counterexample _ ⟨rfl, leads⟩
          simp only [ensures_bind, ensures_explore, ensures_ofAnalysis]
          apply ensures_poll
          apply ensures_of_run
          intro found world run
          cases found with
          | feasible concrete =>
              simp only [Run.graph, ensures_bind, ensures_get, ensures_pure]
              exact ⟨reached, leads⟩
          | spurious refined pruneIndex =>
              simp only [Run.count, Run.graph, ensures_bind, ensures_modify]
              split
              case isTrue =>
                simp only [ensures_bind, ensures_get, ensures_pure]
                split
                case h_1 => trivial
                case h_2 position _ =>
                  rw [ensures_bind]
                  exact (reached_pruneAt counterexample.nodes position _ (by exact reached)).mono
                    fun _ pruned reached => ih allowed version pruned reached
              case isFalse =>
                rw [ensures_bind]
                exact (reached_pruneAt counterexample.nodes _ _ (by exact reached)).mono
                  fun _ pruned reached => ih (refines allowed run) _ pruned reached

/-- Whatever shapes the exploration and the refinement, the graph of a verdict is reached, and
the trace of a violated one is the path to a target of it. -/
theorem shows_of_verify [Precision π] [DecidableEq π] (refines : verifier.RefinesWithin mayUse)
    (limits : ResourceLimits) (checks : ω → Nat) (fuel : Nat) {precision : π}
    (allowed : mayUse precision) (start : ω × ExplorationStatus) :
    Shows verifier.explorer mayUse
      (verifier.verify limits checks fuel precision start).1.outcome := by
  obtain ⟨world, status⟩ := start
  have ends := shows_loop refines (Budget.start limits checks world) fuel fuel allowed 0
    { exploration := { world, graph := .empty, status }, statistics := {} } .empty
  unfold Verifier.verify
  unfold Ensures Outcome at ends
  dsimp only
  revert ends
  rcases verifier.loop (Budget.start limits checks world) fuel fuel precision 0
    { exploration := { world, graph := .empty, status }, statistics := {} } with
    ⟨_ | outcome, after⟩
  · exact fun _ => trivial
  · exact id

end Verifier

end AbstractionRefinement
