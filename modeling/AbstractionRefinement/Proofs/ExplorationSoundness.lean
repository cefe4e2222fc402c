import AbstractionRefinement.Proofs.GraphPruning
import AbstractionRefinement.Proofs.WaitlistContents

/-!
# Exploration keeps a graph sound

An explorer is sound for a concrete system when its initial states, its enabled
actions and its successors cover the concrete ones, when the order and the exact
joins of its domain respect the concretization, and when every state that stands
for a bad state is a target.  Such an explorer keeps a graph sound under every
precision.  Its waitlist always holds the nodes that are left to expand; so when
the exploration ends without a target, the graph is complete.
-/

namespace AbstractionRefinement

/-- An explorer that covers all behaviour of a concrete system, as far as its
states are admissible. -/
structure Explorer.SoundFor {ω σ α π κ : Type} (explorer : Explorer ω σ α π)
    (system : ConcreteSystem κ α) (concretizes : σ → κ → Prop) (admissible : σ → Prop)
    (bad : κ → Prop) : Prop where
  initial_covers {precision : π} {world after : ω} {states : List σ} {state : κ} :
    explorer.analysis.initialStates precision world = (.ok states, after) →
      system.initial state → ∃ s ∈ states, concretizes s state
  initial_admissible {precision : π} {world after : ω} {states : List σ} :
    explorer.analysis.initialStates precision world = (.ok states, after) →
      ∀ s ∈ states, admissible s
  enabled_covers {s : σ} {state next : κ} {action : α} :
    admissible s → concretizes s state → system.step state action next →
      action ∈ explorer.enabled s
  successors_cover {precision : π} {s : σ} {action : α} {world after : ω} {states : List σ}
    {state next : κ} : admissible s →
    explorer.analysis.successors precision s action world = (.ok states, after) →
      concretizes s state → system.step state action next →
        ∃ t ∈ states, concretizes t next
  successors_admissible {precision : π} {s : σ} {action : α} {world after : ω}
    {states : List σ} : admissible s → action ∈ explorer.enabled s →
    explorer.analysis.successors precision s action world = (.ok states, after) →
      ∀ t ∈ states, admissible t
  bottom_empty {s : σ} {state : κ} :
    explorer.analysis.isBottom s = true → ¬ concretizes s state
  leq_subsumes {precision : π} {first second : σ} {state : κ} :
    admissible first → admissible second →
      explorer.analysis.leq precision first second = true →
        concretizes first state → concretizes second state
  join_admissible {precision : π} {first second union : σ} :
    admissible first → admissible second →
      explorer.analysis.join precision first second = some union → admissible union
  join_exact {precision : π} {first second union : σ} {state : κ} :
    admissible first → admissible second →
      explorer.analysis.join precision first second = some union →
        concretizes union state → concretizes first state ∨ concretizes second state
  target_marks {s : σ} {world after : ω} {answer : Bool} {state : κ} :
    explorer.target s world = (.ok answer, after) → concretizes s state → bad state →
      answer = true

namespace ReachabilityGraph

variable {σ α : Type}

/-- The nodes that are left to expand are among the given ones. -/
def Pending (graph : ReachabilityGraph σ α) (waiting : List Nat) : Prop :=
  ∀ ⦃id : Nat⦄ ⦃node : GraphNode σ α⦄, graph.node? id = some node →
    node.isIncomplete = true → id ∈ waiting

theorem Pending.mono {graph : ReachabilityGraph σ α} {waiting others : List Nat}
    (pending : graph.Pending waiting) (more : ∀ id ∈ waiting, id ∈ others) :
    graph.Pending others :=
  fun id _ found isOpen => more id (pending found isOpen)

/-- How exploration changes a graph: nodes stay where they are, and the nodes that
are left to expand afterwards were so before or are among some new ones. -/
structure Explored (before after : ReachabilityGraph σ α) (new : List Nat) : Prop where
  initialized : after.initialized = before.initialized
  grows : before.Grows after
  opens {id : Nat} {other : GraphNode σ α} : after.node? id = some other →
    other.isIncomplete = true → id ∈ new ∨
      ∃ node, before.node? id = some node ∧ node.isIncomplete = true

theorem Grows.refl (graph : ReachabilityGraph σ α) : graph.Grows graph :=
  fun _ node found => ⟨node, found, rfl, rfl, by simp, by simp⟩

theorem Grows.trans {first second third : ReachabilityGraph σ α}
    (earlier : first.Grows second) (later : second.Grows third) : first.Grows third := by
  intro id node found
  obtain ⟨middle, foundMiddle, state_eq, parent_eq, children, covers⟩ := earlier found
  obtain ⟨last, foundLast, state_eq', parent_eq', children', covers'⟩ := later foundMiddle
  exact ⟨last, foundLast, state_eq'.trans state_eq, parent_eq'.trans parent_eq,
    List.Subset.trans children children', List.Subset.trans covers covers'⟩

theorem Explored.refl (graph : ReachabilityGraph σ α) : graph.Explored graph [] where
  initialized := rfl
  grows := .refl graph
  opens found isOpen := .inr ⟨_, found, isOpen⟩

theorem Explored.trans {first second third : ReachabilityGraph σ α} {new newer : List Nat}
    (earlier : first.Explored second new) (later : second.Explored third newer) :
    first.Explored third (new ++ newer) where
  initialized := later.initialized.trans earlier.initialized
  grows := earlier.grows.trans later.grows
  opens found isOpen := by
    rcases later.opens found isOpen with isNew | ⟨node, foundNode, wasOpen⟩
    · exact .inl (by simp [isNew])
    · rcases earlier.opens foundNode wasOpen with isNew | wasThere
      · exact .inl (by simp [isNew])
      · exact .inr wasThere

theorem Explored.pending {before after : ReachabilityGraph σ α} {new waiting : List Nat}
    (explored : before.Explored after new) (pending : before.Pending waiting) :
    after.Pending (new ++ waiting) := by
  intro id node found isOpen
  rcases explored.opens found isOpen with isNew | ⟨before, foundBefore, wasOpen⟩
  · simp [isNew]
  · simp [pending foundBefore wasOpen]

theorem explored_withSuccessor {graph : ReachabilityGraph σ α} {parent : Nat}
    {node : GraphNode σ α} (found : graph.node? parent = some node) (action : α)
    (data : NodeData σ) (depth : Nat) :
    graph.Explored (graph.withSuccessor parent action data depth) [graph.nodes.size] where
  initialized := rfl
  grows := grows_withSuccessor found action data depth
  opens {id other} foundOther isOpen := by
    rw [node?_withSuccessor found] at foundOther
    split at foundOther
    case isTrue isParent =>
      obtain rfl := Option.some.inj foundOther
      exact .inr ⟨node, isParent ▸ found, isOpen⟩
    case isFalse =>
      split at foundOther
      case isTrue isNew => exact .inl (by simp [isNew])
      case isFalse => exact .inr ⟨other, foundOther, isOpen⟩

/-- Some children of a node have the given state. -/
def HasChild (graph : ReachabilityGraph σ α) (parent : Nat) (holds : σ → Prop) : Prop :=
  ∃ node, graph.node? parent = some node ∧ ∃ child ∈ node.children, ∃ other,
    graph.node? child = some other ∧ holds other.state

theorem HasChild.grow {before after : ReachabilityGraph σ α} {parent : Nat}
    {holds : σ → Prop} (hasChild : before.HasChild parent holds)
    (grows : before.Grows after) : after.HasChild parent holds := by
  obtain ⟨node, found, child, isChild, other, foundChild, holdsChild⟩ := hasChild
  obtain ⟨last, foundLast, -, -, children, -⟩ := grows found
  obtain ⟨lastChild, foundLastChild, state_eq, -⟩ := grows foundChild
  exact ⟨last, foundLast, child, children isChild, lastChild, foundLastChild,
    state_eq ▸ holdsChild⟩

theorem hasChild_withSuccessor {graph : ReachabilityGraph σ α} {parent : Nat}
    {node : GraphNode σ α} (found : graph.node? parent = some node) (action : α)
    (data : NodeData σ) (depth : Nat) {holds : σ → Prop} (holdsState : holds data.state) :
    (graph.withSuccessor parent action data depth).HasChild parent holds := by
  have inside := node?_eq_some_lt found
  have view := node?_withSuccessor found action data depth
  refine ⟨_, by rw [view, if_pos rfl], graph.nodes.size, by simp,
    .created graph.nodes.size data (some (parent, action)) depth, ?_, holdsState⟩
  rw [view, if_neg (Nat.ne_of_gt inside), if_pos rfl]

end ReachabilityGraph

namespace Explorer

variable {ω σ α π κ : Type} {explorer : Explorer ω σ α π} {system : ConcreteSystem κ α}
  {concretizes : σ → κ → Prop} {admissible : σ → Prop} {bad : κ → Prop}

open AbstractionRefinement.Computation ReachabilityGraph

/-- The data of a new node marks bad states as targets and leaves the graph as it
is. -/
theorem SoundFor.ensures_nodeData
    (soundFor : explorer.SoundFor system concretizes admissible bad) (version : Nat)
    (s : σ) (exploration : ExplorationState ω σ α) :
    (explorer.nodeData version s).Ensures exploration fun data after =>
      after.graph = exploration.graph ∧ data.state = s ∧
        (data.target = false → ∀ state, concretizes data.state state → ¬ bad state) := by
  unfold nodeData
  simp only [ensures_bind, ensures_ofAnalysis, ensures_pure]
  apply ensures_of_run
  intro answer world run
  refine ⟨trivial, trivial, ?_⟩
  intro unmarked state stands isBad
  have marked := soundFor.target_marks run stands isBad
  exact absurd (unmarked.symm.trans marked) (by simp)

/-- Initial nodes are added for every state that is not bottom. -/
theorem SoundFor.ensures_addInitialStates
    (soundFor : explorer.SoundFor system concretizes admissible bad) (version : Nat)
    (states : List σ) (allAdmissible : ∀ s ∈ states, admissible s)
    (exploration : ExplorationState ω σ α)
    (sound : exploration.graph.Sound system concretizes admissible bad) :
    (explorer.addInitialStates version states).Ensures exploration fun _ after =>
      after.graph.Sound system concretizes admissible bad ∧
        exploration.graph.Grows after.graph ∧
        ∀ s ∈ states, explorer.analysis.isBottom s = false →
          ∃ id node, after.graph.node? id = some node ∧ node.parent = none ∧ node.state = s := by
  induction states generalizing exploration with
  | nil => exact ⟨sound, .refl _, by simp⟩
  | cons s states ih =>
      have restAdmissible : ∀ t ∈ states, admissible t :=
        fun t member => allAdmissible t (by simp [member])
      unfold addInitialStates
      split
      case isTrue isBottom =>
        refine (ih restAdmissible exploration sound).mono ?_
        rintro _ after ⟨soundAfter, grows, added⟩
        exact ⟨soundAfter, grows, by grind⟩
      case isFalse notBottom =>
        rw [ensures_bind]
        refine (soundFor.ensures_nodeData version s exploration).mono ?_
        rintro data middle ⟨graph_eq, state_eq, unmarked⟩
        simp only [ensures_bind, ensures_get, ensures_modify, ensures_pure]
        have soundNext := (graph_eq ▸ sound : middle.graph.Sound ..).addInitial
          data (state_eq ▸ allAdmissible s (by simp)) unmarked
        refine (ih restAdmissible _ soundNext).mono ?_
        rintro _ after ⟨soundAfter, grows, added⟩
        refine ⟨soundAfter, graph_eq ▸ (grows_addInitial middle.graph data).trans grows, ?_⟩
        intro t member notBottomT
        rcases List.mem_cons.mp member with rfl | later
        · have created : (middle.graph.addInitial data).node? middle.graph.nodes.size =
              some (.created middle.graph.nodes.size data none 0) := by
            rw [node?_addInitial, if_pos rfl]
          obtain ⟨last, foundLast, last_eq, parent_eq, -⟩ := grows created
          exact ⟨_, last, foundLast, parent_eq, last_eq.trans state_eq⟩
        · exact added t later notBottomT

/-- The initial nodes cover the initial states of the system. -/
theorem SoundFor.ensures_createInitial
    (soundFor : explorer.SoundFor system concretizes admissible bad) (precision : π)
    (version : Nat) (exploration : ExplorationState ω σ α)
    (sound : exploration.graph.Sound system concretizes admissible bad) :
    (explorer.createInitial precision version).Ensures exploration fun _ after =>
      after.graph.Sound system concretizes admissible bad ∧
        after.graph.initialized = true := by
  unfold createInitial
  simp only [ensures_bind, ensures_ofAnalysis, ensures_modify, ensures_pure]
  apply ensures_of_run
  intro states world run
  refine (soundFor.ensures_addInitialStates version states
    (soundFor.initial_admissible run) { exploration with world } sound).mono ?_
  rintro _ after ⟨soundAfter, -, added⟩
  refine ⟨soundAfter.markInitialized ?_, trivial⟩
  intro state starts
  obtain ⟨s, member, stands⟩ := soundFor.initial_covers run starts
  have notBottom : explorer.analysis.isBottom s = false := by
    by_contra isBottom
    exact soundFor.bottom_empty (by simpa using isBottom) stands
  obtain ⟨id, node, found, isRoot, state_eq⟩ := added s member notBottom
  exact ⟨id, node, found, isRoot, state_eq ▸ stands⟩

/-- A child is added for every successor state that is not bottom. -/
theorem SoundFor.ensures_addSuccessorStates
    (soundFor : explorer.SoundFor system concretizes admissible bad)
    (version parent : Nat) (action : α) (states : List σ)
    (allAdmissible : ∀ s ∈ states, admissible s) (exploration : ExplorationState ω σ α)
    (sound : exploration.graph.Sound system concretizes admissible bad) :
    (explorer.addSuccessorStates version parent action states).Ensures exploration
      fun new after =>
        after.graph.Sound system concretizes admissible bad ∧
          exploration.graph.Explored after.graph new ∧
          ∀ s ∈ states, explorer.analysis.isBottom s = false →
            after.graph.HasChild parent (· = s) := by
  induction states generalizing exploration with
  | nil => exact ⟨sound, .refl _, by simp⟩
  | cons s states ih =>
      have restAdmissible : ∀ t ∈ states, admissible t :=
        fun t member => allAdmissible t (by simp [member])
      unfold addSuccessorStates
      split
      case isTrue isBottom =>
        refine (ih restAdmissible exploration sound).mono ?_
        rintro _ after ⟨soundAfter, explored, added⟩
        exact ⟨soundAfter, explored, by grind⟩
      case isFalse notBottom =>
        rw [ensures_bind]
        refine (soundFor.ensures_nodeData version s exploration).mono ?_
        rintro data middle ⟨graph_eq, state_eq, unmarked⟩
        simp only [ensures_bind, ensures_onGraph, ensures_addSuccessor, ensures_pure]
        intro node found
        have soundNext := (graph_eq ▸ sound : middle.graph.Sound ..).withSuccessor found action
          data (node.depth + 1) (state_eq ▸ allAdmissible s (by simp)) unmarked
        have exploredFirst :=
          explored_withSuccessor found action data (node.depth + 1)
        refine (ih restAdmissible _ soundNext).mono ?_
        rintro new after ⟨soundAfter, explored, added⟩
        refine ⟨soundAfter, graph_eq ▸ exploredFirst.trans explored, ?_⟩
        intro t member notBottomT
        rcases List.mem_cons.mp member with rfl | later
        · exact (hasChild_withSuccessor found action data (node.depth + 1)
            state_eq).grow explored.grows
        · exact added t later notBottomT

/-- Under every listed action, the concrete successors of a node are covered by
its children. -/
theorem SoundFor.ensures_expandActions
    (soundFor : explorer.SoundFor system concretizes admissible bad) (precision : π)
    (version parent : Nat) {s : σ} (isAdmissible : admissible s) (actions : List α)
    (enabled : ∀ action ∈ actions, action ∈ explorer.enabled s)
    (exploration : ExplorationState ω σ α)
    (sound : exploration.graph.Sound system concretizes admissible bad) :
    (explorer.expandActions precision version parent s actions).Ensures exploration
      fun new after =>
        after.graph.Sound system concretizes admissible bad ∧
          exploration.graph.Explored after.graph new ∧
          ∀ action ∈ actions, ∀ state next, concretizes s state →
            system.step state action next →
              after.graph.HasChild parent (concretizes · next) := by
  induction actions generalizing exploration with
  | nil => exact ⟨sound, .refl _, by simp⟩
  | cons action actions ih =>
      unfold expandActions
      simp only [ensures_bind, ensures_ofAnalysis, ensures_pure]
      apply ensures_of_run
      intro states world run
      refine (soundFor.ensures_addSuccessorStates version parent action states
        (soundFor.successors_admissible isAdmissible (enabled action (by simp)) run)
        { exploration with world } sound).mono ?_
      rintro first middle ⟨soundMiddle, exploredFirst, added⟩
      refine (ih (fun other member => enabled other (by simp [member])) middle
        soundMiddle).mono ?_
      rintro rest after ⟨soundAfter, exploredRest, covers⟩
      refine ⟨soundAfter, exploredFirst.trans exploredRest, ?_⟩
      intro other member state next stands steps
      rcases List.mem_cons.mp member with rfl | later
      · obtain ⟨t, isSuccessor, standsNext⟩ :=
          soundFor.successors_cover isAdmissible run stands steps
        have notBottom : explorer.analysis.isBottom t = false := by
          by_contra isBottom
          exact soundFor.bottom_empty (by simpa using isBottom) standsNext
        obtain ⟨node, found, child, isChild, known, foundChild, state_eq⟩ :=
          (added t isSuccessor notBottom).grow exploredRest.grows
        exact ⟨node, found, child, isChild, known, foundChild, state_eq ▸ standsNext⟩
      · exact covers other later state next stands steps

theorem explored_markExpanded (graph : ReachabilityGraph σ α) (id : Nat) :
    graph.Explored (graph.modifyNode id fun node => { node with expanded := true }) [] where
  initialized := rfl
  grows := grows_markExpanded graph id
  opens {other node} found isOpen := by
    rw [node?_modifyNode] at found
    split at found
    · obtain ⟨before, -, rfl⟩ := Option.map_eq_some_iff.mp found
      simp [GraphNode.isIncomplete] at isOpen
    · exact .inr ⟨node, found, isOpen⟩

/-- Expanding a node closes it and opens its children at most. -/
theorem SoundFor.ensures_expand
    (soundFor : explorer.SoundFor system concretizes admissible bad) (precision : π)
    (version id : Nat) (exploration : ExplorationState ω σ α)
    (sound : exploration.graph.Sound system concretizes admissible bad) :
    (explorer.expand precision version id).Ensures exploration fun new after =>
      after.graph.Sound system concretizes admissible bad ∧
        exploration.graph.Explored after.graph new ∧
        ∀ node, after.graph.node? id = some node → node.isIncomplete = false := by
  unfold expand
  simp only [ensures_bind, ensures_onGraph, ensures_getNode]
  intro node found
  refine (soundFor.ensures_expandActions precision version id
    (sound.follows.admissible found) (explorer.enabled node.state) (fun _ member => member)
    _ sound).mono ?_
  rintro new middle ⟨soundMiddle, explored, covers⟩
  simp only [setExpanded, ensures_updateNode, ensures_pure]
  intro last foundLast
  obtain ⟨grown, foundGrown, state_eq, -⟩ := explored.grows found
  obtain rfl : last = grown := by simpa [foundLast] using foundGrown
  refine ⟨soundMiddle.markExpanded foundLast ?_, ?_, ?_⟩
  · intro state next action stands steps
    rw [state_eq] at stands
    obtain ⟨parent, foundParent, child, isChild, other, foundChild, standsNext⟩ :=
      covers action
        (soundFor.enabled_covers (sound.follows.admissible found) stands steps)
        state next stands steps
    obtain rfl : last = parent := by simpa [foundLast] using foundParent
    exact ⟨child, isChild, other, foundChild, standsNext⟩
  · simpa using explored.trans (explored_markExpanded middle.graph id)
  · intro marked foundMarked
    rw [node?_modifyNode, if_pos rfl, foundLast] at foundMarked
    obtain rfl := Option.some.inj foundMarked
    simp [GraphNode.isIncomplete]

/-- The listed nodes are uncovered nodes other than the given one, and together
they stand for all concrete states of a state. -/
structure Covering (graph : ReachabilityGraph σ α) (concretizes : σ → κ → Prop) (id : Nat)
    (s : σ) (coverers : List Nat) : Prop where
  sinks : ∀ coverer ∈ coverers, coverer ≠ id ∧
    ∃ other, graph.node? coverer = some other ∧ other.coveredBy = []
  subsumes : ∀ state, concretizes s state → ∃ coverer ∈ coverers, ∃ other,
    graph.node? coverer = some other ∧ concretizes other.state state

/-- A node that may cover the node with the given number. -/
structure Candidate (graph : ReachabilityGraph σ α) (admissible : σ → Prop) (id : Nat)
    (node : GraphNode σ α) : Prop where
  found : graph.node? node.id = some node
  other : node.id ≠ id
  uncovered : node.coveredBy = []
  isAdmissible : admissible node.state

theorem SoundFor.covering_of_singleCover?
    (soundFor : explorer.SoundFor system concretizes admissible bad) {precision : π}
    {graph : ReachabilityGraph σ α} {id : Nat} {s : σ} {candidates : List (GraphNode σ α)}
    {coverers : List Nat} (isAdmissible : admissible s)
    (areCandidates : ∀ node ∈ candidates, Candidate graph admissible id node)
    (chosen : explorer.singleCover? precision s candidates = some coverers) :
    Covering graph concretizes id s coverers := by
  unfold singleCover? at chosen
  rw [Option.map_eq_some_iff] at chosen
  obtain ⟨node, first, rfl⟩ := chosen
  have candidate := areCandidates node (List.mem_of_find?_eq_some first)
  have below : explorer.analysis.leq precision s node.state = true := by
    simpa using List.find?_some first
  constructor
  · intro coverer member
    obtain rfl : coverer = node.id := by simpa using member
    exact ⟨candidate.other, node, candidate.found, candidate.uncovered⟩
  · intro state stands
    exact ⟨node.id, by simp, node, candidate.found,
      soundFor.leq_subsumes isAdmissible candidate.isAdmissible below stands⟩

/-- Joining exactly, the nodes joined so far cover what their join covers. -/
theorem SoundFor.covering_of_joinedCover?
    (soundFor : explorer.SoundFor system concretizes admissible bad) {precision : π}
    {graph : ReachabilityGraph σ α} {id : Nat} {s joined : σ}
    {candidates : List (GraphNode σ α)} {coverers chosen : List Nat}
    (isAdmissible : admissible s)
    (areCandidates : ∀ node ∈ candidates, Candidate graph admissible id node)
    (joinedAdmissible : admissible joined)
    (covering : Covering graph concretizes id joined coverers)
    (found : explorer.joinedCover? precision s joined coverers candidates = some chosen) :
    Covering graph concretizes id s chosen := by
  induction candidates generalizing joined coverers with
  | nil => simp [joinedCover?] at found
  | cons node candidates ih =>
      have candidate := areCandidates node (by simp)
      have restCandidates : ∀ other ∈ candidates, Candidate graph admissible id other :=
        fun other member => areCandidates other (by simp [member])
      -- Whether or not the candidate could be joined, the search goes on like this.
      have goesOn (union : σ) (others : List Nat) (unionAdmissible : admissible union)
          (unionCovering : Covering graph concretizes id union others)
          (rest : (if (1 < others.length && explorer.analysis.leq precision s union) = true
            then some others
            else explorer.joinedCover? precision s union others candidates) = some chosen) :
          Covering graph concretizes id s chosen := by
        split at rest
        case isTrue covers =>
          obtain rfl := Option.some.inj rest
          simp only [Bool.and_eq_true] at covers
          exact ⟨unionCovering.sinks, fun state stands => unionCovering.subsumes state
            (soundFor.leq_subsumes isAdmissible unionAdmissible covers.2 stands)⟩
        case isFalse => exact ih restCandidates unionAdmissible unionCovering rest
      unfold joinedCover? at found
      cases join : explorer.analysis.join precision joined node.state with
      | none =>
          rw [join] at found
          exact goesOn joined coverers joinedAdmissible covering found
      | some union =>
          rw [join] at found
          refine goesOn union (coverers ++ [node.id])
            (soundFor.join_admissible joinedAdmissible candidate.isAdmissible join)
            ⟨?_, ?_⟩ found
          · intro coverer member
            rcases List.mem_append.mp member with old | new
            · exact covering.sinks coverer old
            · obtain rfl : coverer = node.id := by simpa using new
              exact ⟨candidate.other, node, candidate.found, candidate.uncovered⟩
          · intro state stands
            rcases soundFor.join_exact joinedAdmissible candidate.isAdmissible join stands
              with inJoined | inNode
            · obtain ⟨coverer, member, known, foundKnown, standsKnown⟩ :=
                covering.subsumes state inJoined
              exact ⟨coverer, by simp [member], known, foundKnown, standsKnown⟩
            · exact ⟨node.id, by simp, node, candidate.found, inNode⟩

/-- Whatever the coverage mode, the chosen nodes cover the node. -/
theorem SoundFor.covering_of_coverers?
    (soundFor : explorer.SoundFor system concretizes admissible bad) {precision : π}
    {graph : ReachabilityGraph σ α} {node : GraphNode σ α} {coverers : List Nat}
    (sound : graph.Sound system concretizes admissible bad)
    (isAdmissible : admissible node.state)
    (found : explorer.coverers? precision graph node = some coverers) :
    Covering graph concretizes node.id node.state coverers := by
  unfold coverers? at found
  dsimp only at found
  generalize chosen : (graph.withKey node.key).filter (fun candidate =>
    decide (candidate.id ≠ node.id) && !candidate.isCovered && !candidate.target) = candidates
    at found
  have areCandidates : ∀ other ∈ candidates, Candidate graph admissible node.id other := by
    intro other member
    rw [← chosen, List.mem_filter, mem_withKey] at member
    obtain ⟨⟨id, -, foundOther⟩, conditions⟩ := member
    simp only [GraphNode.isCovered, Bool.and_eq_true, decide_eq_true_eq, Bool.not_eq_true',
      Bool.not_eq_false', List.isEmpty_iff] at conditions
    have number := sound.linked.id_eq foundOther
    exact ⟨number ▸ foundOther, conditions.1.1, conditions.1.2,
      sound.follows.admissible foundOther⟩
  cases single : explorer.singleCover? precision node.state candidates with
  | some chosen =>
      rw [single] at found
      obtain rfl := Option.some.inj found
      exact soundFor.covering_of_singleCover? isAdmissible areCandidates single
  | none =>
      rw [single] at found
      dsimp only at found
      split at found
      case isFalse => exact absurd found (by simp)
      case isTrue =>
        cases candidates with
        | nil => exact absurd found (by simp)
        | cons first rest =>
            have candidate := areCandidates first (by simp)
            refine soundFor.covering_of_joinedCover? isAdmissible
              (fun other member => areCandidates other (by simp [member]))
              candidate.isAdmissible ⟨?_, ?_⟩ found
            · intro coverer member
              obtain rfl : coverer = first.id := by simpa using member
              exact ⟨candidate.other, first, candidate.found, candidate.uncovered⟩
            · intro state stands
              exact ⟨first.id, by simp, first, candidate.found, stands⟩

/-- A covered node is closed, and covering opens no other node. -/
theorem explored_withCover (graph : ReachabilityGraph σ α) (id : Nat) {coverers : List Nat}
    (nonempty : coverers ≠ []) :
    graph.Explored (graph.withCover id coverers) [] ∧
      ∀ node, (graph.withCover id coverers).node? id = some node →
        node.isIncomplete = false := by
  have closed : ∀ node, (graph.withCover id coverers).node? id = some node →
      node.isIncomplete = false := by
    intro node found
    rw [node?_withCover, Option.map_eq_some_iff] at found
    obtain ⟨before, -, rfl⟩ := found
    simp [GraphNode.isIncomplete, GraphNode.isCovered, nonempty]
  refine ⟨⟨initialized_withCover graph id coverers, grows_withCover graph id coverers, ?_⟩,
    closed⟩
  intro other node found isOpen
  by_cases isCovered : other = id
  · have isClosed := closed node (isCovered ▸ found)
    simp [isClosed] at isOpen
  · rw [node?_withCover, Option.map_eq_some_iff] at found
    obtain ⟨before, foundBefore, rfl⟩ := found
    refine .inr ⟨before, foundBefore, ?_⟩
    simpa [GraphNode.isIncomplete, GraphNode.isCovered, isCovered] using isOpen

/-- Trying to close a node keeps the graph sound and opens no node; when it
succeeds, the node is closed. -/
theorem SoundFor.ensures_close
    (soundFor : explorer.SoundFor system concretizes admissible bad) (precision : π)
    (id : Nat) (exploration : ExplorationState ω σ α)
    (sound : exploration.graph.Sound system concretizes admissible bad) :
    (explorer.close precision id).Ensures exploration fun closed after =>
      after.graph.Sound system concretizes admissible bad ∧
        exploration.graph.Explored after.graph [] ∧
        (closed = true → ∀ node, after.graph.node? id = some node →
          node.isIncomplete = false) := by
  unfold close
  split
  case isTrue => exact ⟨sound, .refl _, by simp⟩
  case isFalse =>
    simp only [ensures_bind, ensures_get, ensures_onGraph, ensures_getNode]
    intro node found
    have number : node.id = id := sound.linked.id_eq found
    cases chosen : explorer.coverers? precision exploration.graph node with
    | none => exact ⟨sound, .refl _, by simp⟩
    | some coverers =>
        have covering := soundFor.covering_of_coverers? sound
          (sound.follows.admissible found) chosen
        simp only [ensures_bind, ensures_onGraph, ensures_pure]
        apply ensures_cover
        intro _ _ _ _ nonempty irreflexive
        obtain ⟨explored, closed⟩ := explored_withCover exploration.graph id nonempty
        refine ⟨⟨sound.linked.withCover ?_ irreflexive, sound.follows.withCover ?_⟩,
          explored, fun _ => closed⟩
        · exact fun coverer member => (covering.sinks coverer member).2
        · intro other state foundOther stands
          obtain rfl : node = other := by simpa [found] using foundOther
          exact covering.subsumes state stands

/-- New nodes that are left to expand are put on the waitlist. -/
theorem SoundFor.ensures_enqueue
    (soundFor : explorer.SoundFor system concretizes admissible bad) (precision : π)
    (new : List Nat) (list : Waitlist RandomStream) (exploration : ExplorationState ω σ α)
    (sound : exploration.graph.Sound system concretizes admissible bad)
    (pending : exploration.graph.Pending (new ++ list.contents)) :
    (explorer.enqueue precision new list).Ensures exploration fun list after =>
      after.graph.Sound system concretizes admissible bad ∧
        after.graph.initialized = exploration.graph.initialized ∧
        after.graph.Pending list.contents := by
  induction new generalizing list exploration with
  | nil => exact ⟨sound, rfl, by simpa using pending⟩
  | cons id new ih =>
      unfold enqueue
      simp only [ensures_bind, ensures_onGraph, ensures_getNode]
      intro node found
      split
      case isTrue isTarget =>
        refine ih list exploration sound ?_
        intro other otherNode foundOther isOpen
        rcases List.mem_cons.mp (pending foundOther isOpen) with rfl | member
        · obtain rfl : node = otherNode := by simpa [found] using foundOther
          simp [GraphNode.isIncomplete, isTarget] at isOpen
        · exact member
      case isFalse =>
        rw [ensures_bind]
        refine (soundFor.ensures_close precision id exploration sound).mono ?_
        rintro closed middle ⟨soundMiddle, explored, closes⟩
        have pendingMiddle := explored.pending pending
        rw [← explored.initialized]
        split
        case isTrue isClosed =>
          refine ih list middle soundMiddle ?_
          intro other otherNode foundOther isOpen
          rcases List.mem_cons.mp (pendingMiddle foundOther isOpen) with rfl | member
          · have := closes isClosed otherNode foundOther
            simp [this] at isOpen
          · exact member
        case isFalse =>
          refine ih (list.add id node.depth) middle soundMiddle ?_
          refine pendingMiddle.mono ?_
          intro other member
          simp only [List.nil_append, List.cons_append, List.mem_cons, List.mem_append,
            Waitlist.mem_contents_add] at member ⊢
          tauto

/-- Exploration ends with a target or with nothing left to expand. -/
theorem SoundFor.ensures_exploreWithin
    (soundFor : explorer.SoundFor system concretizes admissible bad) (precision : π)
    (version : Nat) (budget : Budget ω) (fuel : Nat) (list : Waitlist RandomStream)
    (exploration : ExplorationState ω σ α)
    (sound : exploration.graph.Sound system concretizes admissible bad)
    (pending : exploration.graph.Pending list.contents) :
    (explorer.exploreWithin precision version budget fuel list).Ensures exploration
      fun _ after =>
        after.graph.Sound system concretizes admissible bad ∧
          after.graph.initialized = exploration.graph.initialized ∧
          (after.graph.targetNodes = [] → after.graph.Pending []) := by
  induction fuel generalizing list exploration with
  | zero => trivial
  | succ fuel ih =>
      unfold exploreWithin
      simp only [ensures_bind, ensures_get]
      split
      case isTrue stops =>
        refine ⟨sound, rfl, ?_⟩
        intro noTargets
        cases criterion : explorer.stop <;>
          simp [canStop, StopCriterion.targetCount, criterion, noTargets] at stops
      case isFalse =>
        cases removed : list.remove with
        | none =>
            refine ⟨sound, rfl, fun _ => ?_⟩
            simpa [Waitlist.contents_eq_nil removed] using pending
        | some next =>
            obtain ⟨id, rest⟩ := next
            have pendingNext : exploration.graph.Pending (id :: rest.contents) :=
              pending.mono fun other member =>
                (Waitlist.contents_remove removed).mem_iff.mp member
            dsimp only
            rw [ensures_bind]
            apply ensures_poll
            simp only [ensures_bind, ensures_get]
            split
            case isTrue notOpen =>
              refine ih rest exploration sound ?_
              intro other node foundOther isOpen
              rcases List.mem_cons.mp (pendingNext foundOther isOpen) with rfl | member
              · simp [foundOther, isOpen] at notOpen
              · exact member
            case isFalse =>
              rw [ensures_bind]
              refine (soundFor.ensures_close precision id exploration sound).mono ?_
              rintro closed middle ⟨soundMiddle, explored, closes⟩
              have pendingMiddle := explored.pending pendingNext
              rw [← explored.initialized]
              split
              case isTrue isClosed =>
                refine ih rest middle soundMiddle ?_
                intro other node foundOther isOpen
                rcases List.mem_cons.mp (pendingMiddle foundOther isOpen) with rfl | member
                · have := closes isClosed node foundOther
                  simp [this] at isOpen
                · exact member
              case isFalse =>
                rw [ensures_bind]
                refine (soundFor.ensures_expand precision version id middle
                  soundMiddle).mono ?_
                rintro new grown ⟨soundGrown, exploredGrown, closed⟩
                have pendingGrown : grown.graph.Pending (new ++ rest.contents) := by
                  intro other node foundOther isOpen
                  have member := exploredGrown.pending pendingMiddle foundOther isOpen
                  have notExpanded : other ≠ id := by
                    rintro rfl
                    simp [closed node foundOther] at isOpen
                  simpa [notExpanded] using member
                rw [ensures_bind, ← exploredGrown.initialized]
                refine (soundFor.ensures_enqueue precision new rest grown soundGrown
                  pendingGrown).mono ?_
                rintro list last ⟨soundLast, initialized, pendingLast⟩
                rw [← initialized]
                exact ih list last soundLast pendingLast

/-- A check that finds no target completes the graph. -/
theorem SoundFor.ensures_check
    (soundFor : explorer.SoundFor system concretizes admissible bad) (fuel : Nat)
    (precision : π) (version : Nat) (budget : Budget ω)
    (exploration : ExplorationState ω σ α)
    (sound : exploration.graph.Sound system concretizes admissible bad) :
    (explorer.check fuel precision version budget).Ensures exploration
      fun status after =>
        after.graph.Sound system concretizes admissible bad ∧
          (status = .exhausted → after.graph.Complete) := by
  have explores (start : ExplorationState ω σ α)
      (soundStart : start.graph.Sound system concretizes admissible bad)
      (initialized : start.graph.initialized = true) :
      (explorer.exploreWithin precision version budget fuel
        (explorer.waitlist start.graph)).Ensures start fun _ after =>
          after.graph.Sound system concretizes admissible bad ∧
            (statusOf after.graph = .exhausted → after.graph.Complete) := by
    refine (soundFor.ensures_exploreWithin precision version budget fuel _ start soundStart
      ?_).mono ?_
    · intro id node found isOpen
      have number := soundStart.linked.id_eq found
      simp only [waitlist, Waitlist.mem_contents_addAll, Waitlist.contents_new, List.map_map,
        List.not_mem_nil, or_false, List.mem_map, incompleteNodes, List.mem_filter, mem_live]
      exact ⟨node, ⟨⟨id, found⟩, isOpen⟩, number⟩
    · rintro _ after ⟨soundAfter, initialized_eq, noneLeft⟩
      refine ⟨soundAfter, ?_⟩
      intro exhausted
      have noTargets : after.graph.targetNodes = [] := by
        by_contra targets
        simp [statusOf, List.isEmpty_iff, targets] at exhausted
      refine ⟨initialized_eq.trans initialized, ?_, ?_⟩
      · intro id node found
        by_contra isOpen
        simpa using noneLeft noTargets found (by simpa using isOpen)
      · intro id node found
        by_contra isTarget
        have member : node ∈ after.graph.targetNodes := by
          simp only [targetNodes, List.mem_filter, mem_live]
          exact ⟨⟨id, found⟩, by simpa using isTarget⟩
        simp [noTargets] at member
  refine Explorer.ensures_check (fun status graph => graph.Sound system concretizes admissible bad ∧
    (status = .exhausted → graph.Complete)) (fun _ => ?_) fun initialized => ?_
  · refine (soundFor.ensures_createInitial precision version
      { exploration with status := .exploring } sound).mono ?_
    rintro _ start ⟨soundStart, initialized⟩
    exact explores start soundStart initialized
  · exact explores { exploration with status := .exploring } sound initialized

end Explorer

end AbstractionRefinement
