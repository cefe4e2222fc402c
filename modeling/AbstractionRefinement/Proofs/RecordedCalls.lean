import AbstractionRefinement.Proofs.ComputationLaws

/-!
# Recorded calls

A verifier asks its analysis for initial states and successors, and its refiner about
counterexamples.  It is generic in the state of its world, so it can also be run in a world
that records these calls, and the record tells which calls a run makes.  A run is determined
by them: if all satisfy a condition, refusing all other calls does not change it.
-/

namespace AbstractionRefinement

open AbstractionRefinement.Computation

/-- A call of an analysis or a refiner, and the state of the world in which it is made. -/
inductive VerifierCall (ω σ α π : Type) where
  | initialStates (precision : π) (world : ω)
  | successors (precision : π) (state : σ) (action : α) (world : ω)
  | refinement (trace : Trace σ α) (precision : π) (world : ω)

variable {ω ψ κ σ α π β γ : Type}

namespace Computation

/-- A computation in a world with a record. -/
def beside (computation : Computation ω β) : Computation (ω × List κ) β :=
  fun (world, calls) =>
    let (result, after) := computation world
    (result, (after, calls))

/-- A computation in a world with a record, in which it is recorded. -/
def recorded (call : ω → κ) (computation : Computation ω β) : Computation (ω × List κ) β :=
  fun (world, calls) =>
    let (result, after) := computation world
    (result, (after, call world :: calls))

end Computation

/-- The analysis that records its calls. -/
def Analysis.recording (analysis : Analysis ω σ α π) :
    Analysis (ω × List (VerifierCall ω σ α π)) σ α π where
  toDomain := analysis.toDomain
  initialStates precision :=
    (analysis.initialStates precision).recorded (.initialStates precision)
  successors precision state action :=
    (analysis.successors precision state action).recorded (.successors precision state action)

def Explorer.recording (explorer : Explorer ω σ α π) :
    Explorer (ω × List (VerifierCall ω σ α π)) σ α π where
  analysis := explorer.analysis.recording
  enabled := explorer.enabled
  target state := (explorer.target state).beside
  projection := explorer.projection
  strategy := explorer.strategy
  stop := explorer.stop
  coverage := explorer.coverage

def Verifier.recording (verifier : Verifier ω σ α π) :
    Verifier (ω × List (VerifierCall ω σ α π)) σ α π where
  explorer := verifier.explorer.recording
  refiner trace precision :=
    (verifier.refiner trace precision).recorded (.refinement trace precision)
  prune := verifier.prune

/-- The calls of the analysis and the refiner in a run of a verifier. -/
def Verifier.calls [Precision π] [DecidableEq π] (verifier : Verifier ω σ α π)
    (limits : ResourceLimits) (checks : ω → Nat) (fuel : Nat) (precision : π)
    (start : ω × ExplorationStatus) : List (VerifierCall ω σ α π) :=
  (verifier.recording.verify limits (checks ∘ Prod.fst) fuel precision
    ((start.1, []), start.2)).2.1.2

section Restriction

variable (admits : VerifierCall ω σ α π → Prop) [DecidablePred admits]

/-- The analysis that refuses calls outside a condition. -/
def Analysis.restricted (analysis : Analysis ω σ α π) : Analysis ω σ α π where
  toDomain := analysis.toDomain
  initialStates precision world :=
    if admits (.initialStates precision world) then analysis.initialStates precision world
    else (.error .outOfFuel, world)
  successors precision state action world :=
    if admits (.successors precision state action world) then
      analysis.successors precision state action world
    else (.error .outOfFuel, world)

def Explorer.restricted (explorer : Explorer ω σ α π) : Explorer ω σ α π :=
  { explorer with analysis := explorer.analysis.restricted admits }

def Verifier.restricted (verifier : Verifier ω σ α π) : Verifier ω σ α π where
  explorer := verifier.explorer.restricted admits
  refiner trace precision world :=
    if admits (.refinement trace precision world) then verifier.refiner trace precision world
    else (.error .outOfFuel, world)
  prune := verifier.prune

variable {admits} {precision : π} {world after : ω}

theorem Analysis.initialStates_of_restricted {analysis : Analysis ω σ α π} {states : List σ}
    (run : (analysis.restricted admits).initialStates precision world = (.ok states, after)) :
    admits (.initialStates precision world) ∧
      analysis.initialStates precision world = (.ok states, after) := by
  unfold restricted at run
  dsimp only at run
  split at run
  case isTrue admitted => exact ⟨admitted, run⟩
  case isFalse => cases run

theorem Analysis.successors_of_restricted {analysis : Analysis ω σ α π} {state : σ} {action : α}
    {states : List σ}
    (run : (analysis.restricted admits).successors precision state action world =
      (.ok states, after)) :
    admits (.successors precision state action world) ∧
      analysis.successors precision state action world = (.ok states, after) := by
  unfold restricted at run
  dsimp only at run
  split at run
  case isTrue admitted => exact ⟨admitted, run⟩
  case isFalse => cases run

theorem Verifier.refiner_of_restricted {verifier : Verifier ω σ α π} {trace : Trace σ α}
    {found : RefinementResult π}
    (run : (verifier.restricted admits).refiner trace precision world = (.ok found, after)) :
    admits (.refinement trace precision world) ∧
      verifier.refiner trace precision world = (.ok found, after) := by
  unfold restricted at run
  dsimp only at run
  split at run
  case isTrue admitted => exact ⟨admitted, run⟩
  case isFalse => cases run

end Restriction

/-- While the states satisfy the condition, the second computation runs as the first one does,
on the states with less in them. -/
def Follows (forget : ψ → ω) (good : ψ → Prop) (first : Computation ψ β)
    (second : Computation ω β) : Prop :=
  ∀ state, good (first state).2 →
    good state ∧ second (forget state) = ((first state).1, forget (first state).2)

namespace Follows

variable {forget : ψ → ω} {good : ψ → Prop} {first : Computation ψ β}
  {second : Computation ω β}

theorem pure (result : β) :
    Follows forget good (Pure.pure result) (Pure.pure result) :=
  fun _ holds => ⟨holds, rfl⟩

theorem throw (error : EngineError) :
    Follows forget good (MonadExcept.throw error : Computation ψ β) (MonadExcept.throw error) :=
  fun _ holds => ⟨holds, rfl⟩

theorem lift (computed : Except EngineError β) :
    Follows forget good (liftM computed) (liftM computed) := by
  cases computed with
  | error error => exact throw error
  | ok result => exact pure result

theorem bind {next : β → Computation ψ γ} {next' : β → Computation ω γ}
    (follows : Follows forget good first second)
    (continues : ∀ result, Follows forget good (next result) (next' result)) :
    Follows forget good (first >>= next) (second >>= next') := by
  intro state holds
  rw [bind_run] at holds ⊢
  rw [bind_run]
  rcases run : first state with ⟨error | result, after⟩ <;> rw [run] at holds
  · obtain ⟨holds', same⟩ := follows state (by rwa [run])
    rw [same, run]
    exact ⟨holds', rfl⟩
  · obtain ⟨holds', same'⟩ := continues result after holds
    obtain ⟨holds'', same⟩ := follows state (by rwa [run])
    rw [same, run]
    exact ⟨holds'', same'⟩

theorem discard (follows : Follows forget good first second) :
    Follows forget good (Functor.discard first) (Functor.discard second) := by
  have mapped : Follows forget good ((fun _ => PUnit.unit) <$> first)
      ((fun _ => PUnit.unit) <$> second) := by
    rw [← bind_pure_comp, ← bind_pure_comp]
    exact follows.bind fun _ => pure _
  exact mapped

theorem bind_get {next : ψ → Computation ψ β} {next' : ω → Computation ω β}
    (continues : ∀ state, Follows forget good (next state) (next' (forget state))) :
    Follows forget good (get >>= next) (get >>= next') :=
  fun state holds => continues state state holds

theorem modify {change : ψ → ψ} {change' : ω → ω}
    (commutes : ∀ state, forget (change state) = change' (forget state))
    (keeps : ∀ state, good (change state) → good state) :
    Follows forget good (modify change : Computation ψ PUnit) (modify change') := by
  intro state holds
  refine ⟨keeps state holds, ?_⟩
  show ((Except.ok ⟨⟩ : Except EngineError PUnit), change' (forget state)) =
    (.ok ⟨⟩, forget (change state))
  rw [commutes]

end Follows

def ExplorationState.unrecorded (state : ExplorationState (ω × List κ) σ α) :
    ExplorationState ω σ α :=
  ⟨state.world.1, state.graph, state.status⟩

def RunState.unrecorded (state : RunState (ω × List κ) σ α) : RunState ω σ α :=
  ⟨state.exploration.unrecorded, state.statistics⟩

def Budget.recording (budget : Budget ω) : Budget (ω × List κ) :=
  ⟨budget.limits, budget.checks ∘ Prod.fst, budget.checksAtStart⟩

section Following

variable (admits : VerifierCall ω σ α π → Prop)

/-- An exploration follows a recorded one. -/
abbrev Exploration.Follows (first : Exploration (ω × List (VerifierCall ω σ α π)) σ α β)
    (second : Exploration ω σ α β) : Prop :=
  AbstractionRefinement.Follows ExplorationState.unrecorded
    (fun state => ∀ call ∈ state.world.2, admits call) first second

/-- A run follows a recorded one. -/
abbrev Run.Follows (first : Run (ω × List (VerifierCall ω σ α π)) σ α β)
    (second : Run ω σ α β) : Prop :=
  AbstractionRefinement.Follows RunState.unrecorded
    (fun state => ∀ call ∈ state.exploration.world.2, admits call) first second

variable {admits}

theorem Exploration.follows_ofAnalysis {first : Computation (ω × List (VerifierCall ω σ α π)) β}
    {second : Computation ω β}
    (follows : AbstractionRefinement.Follows Prod.fst
      (fun state => ∀ call ∈ state.2, admits call) first second) :
    Exploration.Follows admits (Exploration.ofAnalysis first) (Exploration.ofAnalysis second) := by
  intro state holds
  obtain ⟨holds', same⟩ := follows state.world holds
  have resumed := congrArg (Prod.map id fun world =>
    (⟨world, state.graph, state.status⟩ : ExplorationState ω σ α)) same
  exact ⟨holds', resumed⟩

theorem Exploration.follows_onGraph (operation : ReachabilityGraph.Operation σ α β) :
    Exploration.Follows admits (Exploration.onGraph operation) (Exploration.onGraph operation) :=
  fun _ holds => ⟨holds, rfl⟩

theorem Exploration.follows_poll (budget : Budget ω) :
    Exploration.Follows admits (Exploration.poll budget.recording) (Exploration.poll budget) := by
  refine Follows.bind_get fun state => ?_
  rw [show budget.recording.exceeded? state.world = budget.exceeded? state.unrecorded.world from rfl]
  cases budget.exceeded? state.unrecorded.world with
  | some error => exact .throw error
  | none => exact .pure ()

theorem Run.follows_explore {first : Exploration (ω × List (VerifierCall ω σ α π)) σ α β}
    {second : Exploration ω σ α β} (follows : Exploration.Follows admits first second) :
    Run.Follows admits (Run.explore first) (Run.explore second) := by
  intro state holds
  obtain ⟨holds', same⟩ := follows state.exploration holds
  have resumed := congrArg (Prod.map id fun exploration =>
    (⟨exploration, state.statistics⟩ : RunState ω σ α)) same
  exact ⟨holds', resumed⟩

theorem Run.follows_count (change : RunStatistics → RunStatistics) :
    Run.Follows admits (Run.count change) (Run.count change) :=
  .modify (fun _ => rfl) fun _ => id

theorem Run.follows_graph :
    Run.Follows admits (Run.graph : Run (ω × List (VerifierCall ω σ α π)) σ α _) Run.graph :=
  .bind_get fun state => .pure state.exploration.graph

namespace Explorer

open Exploration

variable (admits) [DecidablePred admits] (explorer : Explorer ω σ α π)

theorem follows_initialStates (precision : π) :
    Exploration.Follows admits
      (ofAnalysis (explorer.recording.analysis.initialStates precision))
      (ofAnalysis ((explorer.restricted admits).analysis.initialStates precision)) := by
  apply follows_ofAnalysis
  intro state holds
  obtain ⟨here, earlier⟩ := List.forall_mem_cons.mp holds
  exact ⟨earlier, if_pos here⟩

theorem follows_successors (precision : π) (state : σ) (action : α) :
    Exploration.Follows admits
      (ofAnalysis (explorer.recording.analysis.successors precision state action))
      (ofAnalysis ((explorer.restricted admits).analysis.successors precision state action)) := by
  apply follows_ofAnalysis
  intro state holds
  obtain ⟨here, earlier⟩ := List.forall_mem_cons.mp holds
  exact ⟨earlier, if_pos here⟩

theorem follows_nodeData (version : Nat) (state : σ) :
    Exploration.Follows admits (explorer.recording.nodeData version state)
      ((explorer.restricted admits).nodeData version state) :=
  .bind (follows_ofAnalysis fun _ holds => ⟨holds, rfl⟩) fun _ => .pure _

theorem follows_addInitialStates (version : Nat) (states : List σ) :
    Exploration.Follows admits (explorer.recording.addInitialStates version states)
      ((explorer.restricted admits).addInitialStates version states) := by
  induction states with
  | nil => exact .pure []
  | cons state states ih =>
      unfold addInitialStates
      rw [show explorer.recording.analysis.isBottom state =
        (explorer.restricted admits).analysis.isBottom state from rfl]
      split
      · exact ih
      · refine .bind (explorer.follows_nodeData admits version state) fun data => ?_
        refine .bind_get fun exploration => ?_
        refine .bind (.modify (fun _ => rfl) fun _ => id) fun _ => ?_
        exact .bind ih fun _ => .pure _

theorem follows_createInitial (precision : π) (version : Nat) :
    Exploration.Follows admits (explorer.recording.createInitial precision version)
      ((explorer.restricted admits).createInitial precision version) := by
  refine .bind (explorer.follows_initialStates admits precision) fun states => ?_
  refine .bind (explorer.follows_addInitialStates admits version states) fun nodes => ?_
  exact .bind (.modify (fun _ => rfl) fun _ => id) fun _ => .pure nodes

theorem follows_addSuccessorStates (version parent : Nat) (action : α) (states : List σ) :
    Exploration.Follows admits
      (explorer.recording.addSuccessorStates version parent action states)
      ((explorer.restricted admits).addSuccessorStates version parent action states) := by
  induction states with
  | nil => exact .pure []
  | cons state states ih =>
      unfold addSuccessorStates
      rw [show explorer.recording.analysis.isBottom state =
        (explorer.restricted admits).analysis.isBottom state from rfl]
      split
      · exact ih
      · refine .bind (explorer.follows_nodeData admits version state) fun data => ?_
        refine .bind (follows_onGraph _) fun id => ?_
        exact .bind ih fun _ => .pure _

theorem follows_expandActions (precision : π) (version parent : Nat) (state : σ)
    (actions : List α) :
    Exploration.Follows admits
      (explorer.recording.expandActions precision version parent state actions)
      ((explorer.restricted admits).expandActions precision version parent state actions) := by
  induction actions with
  | nil => exact .pure []
  | cons action actions ih =>
      refine .bind (explorer.follows_successors admits precision state action) fun states => ?_
      refine .bind (explorer.follows_addSuccessorStates admits version parent action states)
        fun first => ?_
      exact .bind ih fun _ => .pure _

theorem follows_expand (precision : π) (version id : Nat) :
    Exploration.Follows admits (explorer.recording.expand precision version id)
      ((explorer.restricted admits).expand precision version id) := by
  refine .bind (follows_onGraph _) fun node => ?_
  refine .bind (explorer.follows_expandActions admits precision version id node.state
    (explorer.enabled node.state)) fun nodes => ?_
  exact .bind (follows_onGraph _) fun _ => .pure nodes

theorem joinedCover?_recording (precision : π) (state joined : σ) (coverers : List Nat)
    (candidates : List (GraphNode σ α)) :
    explorer.recording.joinedCover? precision state joined coverers candidates =
      (explorer.restricted admits).joinedCover? precision state joined coverers candidates := by
  induction candidates generalizing joined coverers with
  | nil => rfl
  | cons node candidates ih =>
      rw [joinedCover?, joinedCover?]
      simp only [ih]
      rfl

theorem coverers?_recording (precision : π) (graph : ReachabilityGraph σ α)
    (node : GraphNode σ α) : explorer.recording.coverers? precision graph node =
      (explorer.restricted admits).coverers? precision graph node := by
  unfold coverers?
  simp only [explorer.joinedCover?_recording admits]
  rfl

theorem follows_close (precision : π) (id : Nat) :
    Exploration.Follows admits (explorer.recording.close precision id)
      ((explorer.restricted admits).close precision id) := by
  unfold close
  rw [show explorer.recording.coverage = (explorer.restricted admits).coverage from rfl]
  split
  · exact .pure false
  · refine .bind_get fun exploration => ?_
    refine .bind (follows_onGraph _) fun node => ?_
    rw [explorer.coverers?_recording admits,
      show exploration.unrecorded.graph = exploration.graph from rfl]
    cases (explorer.restricted admits).coverers? precision exploration.graph node with
    | none => exact .pure false
    | some coverers => exact .bind (follows_onGraph _) fun _ => .pure true

theorem follows_enqueue (precision : π) (ids : List Nat) (list : Waitlist RandomStream) :
    Exploration.Follows admits (explorer.recording.enqueue precision ids list)
      ((explorer.restricted admits).enqueue precision ids list) := by
  induction ids generalizing list with
  | nil => exact .pure list
  | cons id ids ih =>
      refine .bind (follows_onGraph _) fun node => ?_
      split
      · exact ih list
      · refine .bind (explorer.follows_close admits precision id) fun closed => ?_
        split
        · exact ih list
        · exact ih _

theorem follows_exploreWithin (precision : π) (version : Nat) (budget : Budget ω) (fuel : Nat)
    (list : Waitlist RandomStream) :
    Exploration.Follows admits
      (explorer.recording.exploreWithin precision version budget.recording fuel list)
      ((explorer.restricted admits).exploreWithin precision version budget fuel list) := by
  induction fuel generalizing list with
  | zero => exact .throw _
  | succ fuel ih =>
      refine .bind_get fun exploration => ?_
      show Exploration.Follows admits (if explorer.canStop exploration.graph then _ else _)
        (if explorer.canStop exploration.graph then _ else _)
      split
      · exact .pure ()
      · cases list.remove with
        | none => exact .pure ()
        | some removed =>
            obtain ⟨id, list⟩ := removed
            refine .bind (follows_poll budget) fun _ => ?_
            refine .bind_get fun exploration => ?_
            show Exploration.Follows admits
              (if !(exploration.graph.node? id).any GraphNode.isIncomplete then _ else _)
              (if !(exploration.graph.node? id).any GraphNode.isIncomplete then _ else _)
            split
            · exact ih list
            · refine .bind (explorer.follows_close admits precision id) fun closed => ?_
              split
              · exact ih list
              · refine .bind (explorer.follows_expand admits precision version id)
                  fun nodes => ?_
                exact .bind (explorer.follows_enqueue admits precision nodes list)
                  fun list => ih list

theorem follows_explore (fuel : Nat) (precision : π) (version : Nat) (budget : Budget ω) :
    Exploration.Follows admits
      (explorer.recording.explore fuel precision version budget.recording)
      ((explorer.restricted admits).explore fuel precision version budget) := by
  have continues : Exploration.Follows admits (do
      let waiting := (← get).graph.incompleteNodes.map fun node => (node.id, node.depth)
      explorer.recording.exploreWithin precision version budget.recording fuel
        ((Waitlist.new explorer.strategy).addAll waiting)
      return statusOf (← get).graph) (do
      let waiting := (← get).graph.incompleteNodes.map fun node => (node.id, node.depth)
      (explorer.restricted admits).exploreWithin precision version budget fuel
        ((Waitlist.new explorer.strategy).addAll waiting)
      return statusOf (← get).graph) := by
    refine .bind_get fun exploration => ?_
    refine .bind (explorer.follows_exploreWithin admits precision version budget fuel _) fun _ => ?_
    exact .bind_get fun exploration => .pure _
  refine .bind_get fun exploration => ?_
  show Exploration.Follows admits (if !exploration.graph.initialized then _ else _)
    (if !exploration.graph.initialized then _ else _)
  split
  · exact .bind (explorer.follows_createInitial admits precision version).discard
      fun _ => continues
  · exact continues

theorem follows_check (fuel : Nat) (precision : π) (version : Nat) (budget : Budget ω) :
    Exploration.Follows admits
      (explorer.recording.check fuel precision version budget.recording)
      ((explorer.restricted admits).check fuel precision version budget) := by
  intro state holds
  have follows := explorer.follows_explore admits fuel precision version budget
    { state with status := .exploring }
  unfold check at holds ⊢
  rcases run : explorer.recording.explore fuel precision version budget.recording
    { state with status := .exploring } with ⟨error | status, after⟩
  all_goals
    rw [run] at follows holds
    obtain ⟨holds', same⟩ := follows holds
    refine ⟨holds', ?_⟩
    have same' : (explorer.restricted admits).explore fuel precision version budget
      { state.unrecorded with status := .exploring } = _ := same
    rw [same']
    rfl

end Explorer

namespace Verifier

variable (admits) [DecidablePred admits] (verifier : Verifier ω σ α π)

theorem follows_pruneAt (path : List Nat) (position : Nat) :
    Run.Follows admits (verifier.recording.pruneAt path position)
      ((verifier.restricted admits).pruneAt path position) :=
  Run.follows_explore (Exploration.follows_onGraph _)

theorem follows_refiner (trace : Trace σ α) (precision : π) :
    Exploration.Follows admits
      (Exploration.ofAnalysis (verifier.recording.refiner trace precision))
      (Exploration.ofAnalysis ((verifier.restricted admits).refiner trace precision)) := by
  apply Exploration.follows_ofAnalysis
  intro state holds
  obtain ⟨here, earlier⟩ := List.forall_mem_cons.mp holds
  exact ⟨earlier, if_pos here⟩

omit [DecidablePred admits] in
theorem follows_nearestCounterexample :
    Run.Follows admits
      (nearestCounterexample : Run (ω × List (VerifierCall ω σ α π)) σ α _)
      nearestCounterexample := by
  refine Run.follows_graph.bind fun graph => ?_
  cases nearestTarget? graph with
  | none => exact .throw _
  | some target => exact .lift _

theorem restricted_true : verifier.restricted (fun _ => True) = verifier := by
  simp only [restricted, Explorer.restricted, Analysis.restricted, if_true]

variable [Precision π]

theorem follows_abstractionStep (budget : Budget ω) (fuel : Nat) (precision : π)
    (version : Nat) :
    Run.Follows admits
      (verifier.recording.abstractionStep budget.recording fuel precision version)
      ((verifier.restricted admits).abstractionStep budget fuel precision version) := by
  have continues : Run.Follows admits (do
      Run.explore (Exploration.poll budget.recording)
      Run.count fun figures =>
        { figures with
          iterations := figures.iterations + 1
          precisionSize := Precision.size precision }
      let status ← Run.explore
        (verifier.recording.explorer.check fuel precision version budget.recording)
      let graph ← Run.graph
      Run.count fun figures => { figures with graphSize := graph.size, graphDepth := graph.depth }
      return status) (do
      Run.explore (Exploration.poll budget)
      Run.count fun figures =>
        { figures with
          iterations := figures.iterations + 1
          precisionSize := Precision.size precision }
      let status ← Run.explore
        ((verifier.restricted admits).explorer.check fuel precision version budget)
      let graph ← Run.graph
      Run.count fun figures => { figures with graphSize := graph.size, graphDepth := graph.depth }
      return status) := by
    refine .bind (Run.follows_explore (Exploration.follows_poll budget)) fun _ => ?_
    refine .bind (Run.follows_count _) fun _ => ?_
    refine .bind (Run.follows_explore
      (verifier.explorer.follows_check admits fuel precision version budget)) fun status => ?_
    refine Run.follows_graph.bind fun graph => ?_
    exact .bind (Run.follows_count _) fun _ => .pure status
  refine .bind_get fun state => ?_
  show Run.Follows admits
    (if budget.limits.iterations.any (· ≤ state.statistics.iterations) then _ else _)
    (if budget.limits.iterations.any (· ≤ state.statistics.iterations) then _ else _)
  split
  · exact .bind (.throw _) fun _ => continues
  · exact continues

variable [DecidableEq π]

theorem follows_loop (budget : Budget ω) (explorationFuel fuel : Nat) (precision : π)
    (version : Nat) :
    Run.Follows admits
      (verifier.recording.loop budget.recording explorationFuel fuel precision version)
      ((verifier.restricted admits).loop budget explorationFuel fuel precision version) := by
  induction fuel generalizing precision version with
  | zero => exact .throw _
  | succ fuel ih =>
      refine .bind (verifier.follows_abstractionStep admits budget explorationFuel precision
        version) fun status => ?_
      cases status with
      | idle => exact .throw _
      | exploring => exact .throw _
      | exhausted => exact Run.follows_graph.bind fun graph => .pure _
      | targetFound =>
          refine .bind (follows_nearestCounterexample admits) fun counterexample => ?_
          refine .bind (Run.follows_explore (Exploration.follows_poll budget)) fun _ => ?_
          refine .bind (Run.follows_explore (verifier.follows_refiner admits _ precision))
            fun found => ?_
          cases found with
          | feasible concrete => exact Run.follows_graph.bind fun graph => .pure _
          | spurious refined pruneIndex =>
              refine .bind (Run.follows_count _) fun _ => ?_
              dsimp only
              split
              · refine Run.follows_graph.bind fun graph => ?_
                cases firstStale? graph version counterexample.nodes with
                | none => exact .bind_get fun state => .throw _
                | some position =>
                    exact .bind (verifier.follows_pruneAt admits _ position) fun _ =>
                      ih precision version
              · exact .bind (verifier.follows_pruneAt admits _ _) fun _ => ih refined (version + 1)

/-- A run without a record ends as the recorded one does. -/
theorem verify_eq_recording {limits : ResourceLimits} {checks : ω → Nat} {fuel : Nat}
    {precision : π} {start : ω × ExplorationStatus}
    (all : ∀ call ∈ verifier.calls limits checks fuel precision start, admits call) :
    ((verifier.restricted admits).verify limits checks fuel precision start).1 =
      (verifier.recording.verify limits (checks ∘ Prod.fst) fuel precision
        ((start.1, []), start.2)).1 := by
  obtain ⟨world, status⟩ := start
  obtain ⟨-, same⟩ := verifier.follows_loop admits (.start limits checks world) fuel fuel precision 0
    ⟨⟨(world, []), .empty, status⟩, {}⟩ all
  have same' : (verifier.restricted admits).loop (.start limits checks world) fuel fuel precision 0
    ⟨⟨world, .empty, status⟩, {}⟩ = _ := same
  unfold verify
  dsimp only
  rw [same']
  rfl

theorem verify_restricted {limits : ResourceLimits} {checks : ω → Nat} {fuel : Nat}
    {precision : π} {start : ω × ExplorationStatus}
    (all : ∀ call ∈ verifier.calls limits checks fuel precision start, admits call) :
    ((verifier.restricted admits).verify limits checks fuel precision start).1 =
      (verifier.verify limits checks fuel precision start).1 := by
  rw [verifier.verify_eq_recording admits all,
    ← verifier.verify_eq_recording (fun _ => True) fun _ _ => trivial, restricted_true]

end Verifier

end Following

end AbstractionRefinement
