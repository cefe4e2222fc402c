import AbstractionRefinement.Proofs.GraphOperations

/-!
# What a reachability graph says about concrete runs

A concretization tells which concrete states an abstract state stands for.  A
graph follows the concrete runs of a system when every concrete state of an
expanded node steps into a child, every concrete state of a covered node is also
one of a covering node, and, once the graph is initialized, every concrete
initial state belongs to an initial node.  Coverage is ranked, so that chains of
covering nodes end.

All operations of the exploration keep this invariant: adding nodes, marking a
node as expanded, covering, and pruning.  When nothing is left to expand and no
node is a target, no concrete run visits a bad state.
-/

namespace AbstractionRefinement

/-- Concrete states with labelled steps. -/
structure ConcreteSystem (κ α : Type) where
  initial : κ → Prop
  step : κ → α → κ → Prop

namespace ConcreteSystem

variable {κ α : Type}

/-- The states visited by finite runs from the initial states. -/
inductive Reachable (system : ConcreteSystem κ α) : κ → Prop where
  | initial {state : κ} (starts : system.initial state) : system.Reachable state
  | step {state next : κ} {action : α} (reached : system.Reachable state)
      (steps : system.step state action next) : system.Reachable next

end ConcreteSystem

namespace ReachabilityGraph

variable {σ α κ : Type}

/-- The links between nodes have two ends: a node knows its number, children know
their parent, and a covering node knows what it covers. -/
structure Coupled (graph : ReachabilityGraph σ α) : Prop where
  id_eq {id : Nat} {node : GraphNode σ α} :
    graph.node? id = some node → node.id = id
  child_live {id child : Nat} {node : GraphNode σ α} :
    graph.node? id = some node → child ∈ node.children →
      ∃ other, graph.node? child = some other ∧ other.parent = some id
  coverer_live {id coverer : Nat} {node : GraphNode σ α} :
    graph.node? id = some node → coverer ∈ node.coveredBy →
      ∃ other, graph.node? coverer = some other ∧ id ∈ other.covers

/-- The links between nodes, where chains of covering nodes descend in rank. -/
structure Linked (graph : ReachabilityGraph σ α) : Prop extends graph.Coupled where
  ranked : ∃ rank : Nat → Nat, ∀ {id coverer : Nat} {node : GraphNode σ α},
    graph.node? id = some node → coverer ∈ node.coveredBy → rank coverer < rank id

/-- Every concrete run of a system can be followed through the graph.  The nodes
carry admissible states, and those without a bad state only are not marked as
targets. -/
structure Follows (system : ConcreteSystem κ α) (concretizes : σ → κ → Prop)
    (admissible : σ → Prop) (bad : κ → Prop) (graph : ReachabilityGraph σ α) : Prop where
  admissible {id : Nat} {node : GraphNode σ α} :
    graph.node? id = some node → admissible node.state
  unmarked {id : Nat} {node : GraphNode σ α} {state : κ} :
    graph.node? id = some node → node.target = false → concretizes node.state state →
      ¬ bad state
  covered {id : Nat} {node : GraphNode σ α} {state : κ} :
    graph.node? id = some node → node.coveredBy ≠ [] → concretizes node.state state →
      ∃ coverer ∈ node.coveredBy, ∃ other,
        graph.node? coverer = some other ∧ concretizes other.state state
  expanded {id : Nat} {node : GraphNode σ α} {state next : κ} {action : α} :
    graph.node? id = some node → node.expanded = true → concretizes node.state state →
      system.step state action next →
      ∃ child ∈ node.children, ∃ other,
        graph.node? child = some other ∧ concretizes other.state next
  initial {state : κ} :
    graph.initialized = true → system.initial state →
      ∃ id node, graph.node? id = some node ∧ node.parent = none ∧
        concretizes node.state state

/-- Nothing is left to expand, and there is no target. -/
structure Complete (graph : ReachabilityGraph σ α) : Prop where
  initialized : graph.initialized = true
  closed {id : Nat} {node : GraphNode σ α} :
    graph.node? id = some node → node.isIncomplete = false
  noTarget {id : Nat} {node : GraphNode σ α} :
    graph.node? id = some node → node.target = false

section Completeness

variable {system : ConcreteSystem κ α} {concretizes : σ → κ → Prop}
  {admissible : σ → Prop} {bad : κ → Prop} {graph : ReachabilityGraph σ α}

/-- In a complete graph, a concrete state of a node is one of an expanded node:
follow the covering nodes, whose ranks descend. -/
theorem Complete.exists_expanded (complete : graph.Complete) (linked : graph.Linked)
    (follows : graph.Follows system concretizes admissible bad) {state : κ} {id : Nat}
    {node : GraphNode σ α} (found : graph.node? id = some node)
    (stands : concretizes node.state state) :
    ∃ id node, graph.node? id = some node ∧ node.expanded = true ∧
      concretizes node.state state := by
  obtain ⟨rank, descends⟩ := linked.ranked
  induction height : rank id using Nat.strongRecOn generalizing id node with
  | _ height ih =>
      by_cases expanded : node.expanded = true
      · exact ⟨id, node, found, expanded, stands⟩
      · have covered : node.coveredBy ≠ [] := by
          have closed := complete.closed found
          have noTarget := complete.noTarget found
          simpa [GraphNode.isIncomplete, GraphNode.isCovered, expanded, noTarget] using closed
        obtain ⟨coverer, member, other, foundOther, standsOther⟩ :=
          follows.covered found covered stands
        exact ih (rank coverer) (height ▸ descends found member) foundOther standsOther rfl

/-- No concrete run of a system that a complete graph follows visits a bad
state. -/
theorem Complete.not_bad (complete : graph.Complete) (linked : graph.Linked)
    (follows : graph.Follows system concretizes admissible bad) {state : κ}
    (reachable : system.Reachable state) : ¬ bad state := by
  have standsFor : ∃ id node, graph.node? id = some node ∧ concretizes node.state state := by
    induction reachable with
    | initial starts =>
        obtain ⟨id, node, found, -, stands⟩ := follows.initial complete.initialized starts
        exact ⟨id, node, found, stands⟩
    | step _ steps ih =>
        obtain ⟨id, node, found, stands⟩ := ih
        obtain ⟨id, node, found, expanded, stands⟩ :=
          complete.exists_expanded linked follows found stands
        obtain ⟨child, -, other, foundChild, standsChild⟩ :=
          follows.expanded found expanded stands steps
        exact ⟨child, other, foundChild, standsChild⟩
  obtain ⟨id, node, found, stands⟩ := standsFor
  exact follows.unmarked found (complete.noTarget found) stands

end Completeness

/-- A graph with intact links that follows all concrete runs. -/
structure Sound (system : ConcreteSystem κ α) (concretizes : σ → κ → Prop)
    (admissible : σ → Prop) (bad : κ → Prop) (graph : ReachabilityGraph σ α) : Prop where
  linked : graph.Linked
  follows : graph.Follows system concretizes admissible bad

/-- The nodes of a graph with their states and places are nodes of another graph,
in which they may have more children and cover more. -/
def Grows (before after : ReachabilityGraph σ α) : Prop :=
  ∀ ⦃id : Nat⦄ ⦃node : GraphNode σ α⦄, before.node? id = some node →
    ∃ other, after.node? id = some other ∧ other.state = node.state ∧
      other.parent = node.parent ∧ node.children ⊆ other.children ∧
      node.covers ⊆ other.covers

section Growth

variable {system : ConcreteSystem κ α} {concretizes : σ → κ → Prop}
  {admissible : σ → Prop} {bad : κ → Prop} {graph : ReachabilityGraph σ α}

theorem grows_withSuccessor {parent : Nat} {node : GraphNode σ α}
    (found : graph.node? parent = some node) (action : α) (data : NodeData σ)
    (depth : Nat) : graph.Grows (graph.withSuccessor parent action data depth) := by
  intro id before foundBefore
  have inside := node?_eq_some_lt foundBefore
  by_cases isParent : id = parent
  · subst isParent
    obtain rfl : node = before := by simpa [found] using foundBefore
    rw [node?_withSuccessor found, if_pos rfl]
    exact ⟨_, rfl, rfl, rfl, by simp, by simp⟩
  · refine ⟨before, ?_, rfl, rfl, by simp, by simp⟩
    rw [node?_withSuccessor found, if_neg isParent, if_neg (Nat.ne_of_lt inside), foundBefore]

theorem grows_addInitial (graph : ReachabilityGraph σ α) (data : NodeData σ) :
    graph.Grows (graph.addInitial data) := by
  intro id before foundBefore
  have inside := node?_eq_some_lt foundBefore
  refine ⟨before, ?_, rfl, rfl, by simp, by simp⟩
  rw [node?_addInitial, if_neg (Nat.ne_of_lt inside), foundBefore]

theorem grows_withCover (graph : ReachabilityGraph σ α) (id : Nat) (coverers : List Nat) :
    graph.Grows (graph.withCover id coverers) := by
  intro other before foundBefore
  rw [node?_withCover, foundBefore]
  exact ⟨_, rfl, rfl, rfl, by simp, by simp⟩

theorem grows_markExpanded (graph : ReachabilityGraph σ α) (id : Nat) :
    graph.Grows (graph.modifyNode id fun node => { node with expanded := true }) := by
  intro other before foundBefore
  by_cases same : other = id
  · subst same
    rw [node?_modifyNode, if_pos rfl, foundBefore]
    exact ⟨_, rfl, rfl, rfl, by simp, by simp⟩
  · exact ⟨before, by rw [node?_modifyNode, if_neg same, foundBefore], rfl, rfl, by simp, by simp⟩

theorem linked_empty : (empty : ReachabilityGraph σ α).Linked where
  id_eq := by simp
  child_live := by simp
  coverer_live := by simp
  ranked := ⟨fun _ => 0, by simp⟩

theorem sound_empty : (empty : ReachabilityGraph σ α).Sound system concretizes admissible bad where
  linked := linked_empty
  follows :=
    { admissible := by simp
      unmarked := by simp
      covered := by simp
      expanded := by simp
      initial := by simp [empty] }

theorem Linked.withSuccessor (linked : graph.Linked) {parent : Nat} {node : GraphNode σ α}
    (found : graph.node? parent = some node) (action : α) (data : NodeData σ) (depth : Nat) :
    (graph.withSuccessor parent action data depth).Linked := by
  have view := node?_withSuccessor found action data depth
  have bound : ∀ id other, graph.node? id = some other → id < graph.nodes.size :=
    fun _ _ => node?_eq_some_lt
  obtain ⟨⟨idEq, childLive, covererLive⟩, rank, ranked⟩ := linked
  refine ⟨⟨?_, ?_, ?_⟩, rank, ?_⟩
  · grind [GraphNode.created]
  · intro id child other foundOther isChild
    rw [view] at foundOther ⊢
    grind [GraphNode.created, GraphNode.parent]
  · grind [GraphNode.created]
  · grind [GraphNode.created]

theorem Linked.addInitial (linked : graph.Linked) (data : NodeData σ) :
    (graph.addInitial data).Linked := by
  have view := node?_addInitial graph data
  have bound : ∀ id other, graph.node? id = some other → id < graph.nodes.size :=
    fun _ _ => node?_eq_some_lt
  obtain ⟨⟨idEq, childLive, covererLive⟩, rank, ranked⟩ := linked
  refine ⟨⟨?_, ?_, ?_⟩, rank, ?_⟩ <;> grind [GraphNode.created]

theorem Linked.initializedAs (linked : graph.Linked) (flag : Bool) :
    ReachabilityGraph.Linked { graph with initialized := flag } :=
  ⟨⟨linked.id_eq, linked.child_live, linked.coverer_live⟩, linked.ranked⟩

theorem Linked.markExpanded (linked : graph.Linked) {id : Nat} {node : GraphNode σ α}
    (found : graph.node? id = some node) :
    (graph.modifyNode id fun node => { node with expanded := true }).Linked := by
  have view := fun other => node?_modifyNode graph id other
    fun node => { node with expanded := true }
  obtain ⟨⟨idEq, childLive, covererLive⟩, rank, ranked⟩ := linked
  refine ⟨⟨?_, ?_, ?_⟩, rank, ?_⟩
  · grind
  · intro other child marked foundMarked isChild
    grind [GraphNode.parent]
  · grind
  · grind

/-- Coverage by nodes that are not covered themselves keeps the links: the
covering nodes get the lowest rank. -/
theorem Linked.withCover (linked : graph.Linked) {id : Nat} {coverers : List Nat}
    (sinks : ∀ coverer ∈ coverers, ∃ other, graph.node? coverer = some other ∧
      other.coveredBy = [])
    (irreflexive : id ∉ coverers) : (graph.withCover id coverers).Linked := by
  have view := node?_withCover graph id coverers
  have grows := grows_withCover graph id coverers
  obtain ⟨⟨idEq, childLive, covererLive⟩, rank, ranked⟩ := linked
  refine ⟨⟨?_, ?_, ?_⟩, fun other => if other ∈ coverers then 0 else rank other + 1, ?_⟩
  · intro other node foundNode
    rw [view, Option.map_eq_some_iff] at foundNode
    obtain ⟨before, foundBefore, rfl⟩ := foundNode
    show before.id = other
    exact idEq foundBefore
  · intro other child node foundNode isChild
    rw [view, Option.map_eq_some_iff] at foundNode
    obtain ⟨before, foundBefore, rfl⟩ := foundNode
    obtain ⟨known, foundKnown, parent_eq⟩ := childLive foundBefore isChild
    obtain ⟨last, foundLast, -, last_eq, -⟩ := grows foundKnown
    exact ⟨last, foundLast, last_eq.trans parent_eq⟩
  · intro other coverer node foundNode member
    rw [view, Option.map_eq_some_iff] at foundNode
    obtain ⟨before, foundBefore, rfl⟩ := foundNode
    by_cases isCovered : other = id
    · subst isCovered
      simp only [if_true] at member
      obtain ⟨known, foundKnown, -⟩ := sinks coverer member
      refine ⟨_, by rw [view, foundKnown]; rfl, ?_⟩
      simp [List.mem_replicate, List.count_eq_zero, member]
    · simp only [isCovered, if_false] at member
      obtain ⟨known, foundKnown, knows⟩ := covererLive foundBefore member
      obtain ⟨last, foundLast, -, -, -, covers⟩ := grows foundKnown
      exact ⟨last, foundLast, covers knows⟩
  · intro other coverer node foundNode member
    rw [view, Option.map_eq_some_iff] at foundNode
    obtain ⟨before, foundBefore, rfl⟩ := foundNode
    by_cases isCovered : other = id
    · subst isCovered
      simp only [if_true] at member
      simp [member, irreflexive]
    · simp only [isCovered, if_false] at member
      have lower := ranked foundBefore member
      have notSink : other ∉ coverers := by
        intro isSink
        obtain ⟨known, foundKnown, uncovered⟩ := sinks other isSink
        grind
      simp only [notSink, if_false]
      split <;> omega

/-- A node that was there before, with at most more children, or a new one that
is still open. -/
def IsOldOrOpen (before : ReachabilityGraph σ α) (admissible : σ → Prop)
    (concretizes : σ → κ → Prop) (bad : κ → Prop) (id : Nat) (other : GraphNode σ α) : Prop :=
  (∃ node, before.node? id = some node ∧ other.state = node.state ∧
    other.target = node.target ∧ other.coveredBy = node.coveredBy ∧
    other.expanded = node.expanded ∧ node.children ⊆ other.children) ∨
  (admissible other.state ∧
    (other.target = false → ∀ state, concretizes other.state state → ¬ bad state) ∧
    other.coveredBy = [] ∧ other.expanded = false)

/-- Adding open nodes keeps every run that could be followed. -/
theorem Follows.extend {after : ReachabilityGraph σ α}
    (follows : graph.Follows system concretizes admissible bad) (grows : graph.Grows after)
    (initialized : after.initialized = graph.initialized)
    (known : ∀ id other, after.node? id = some other →
      graph.IsOldOrOpen admissible concretizes bad id other) :
    after.Follows system concretizes admissible bad where
  admissible {id other} found := by
    rcases known id other found with ⟨node, foundNode, state_eq, -⟩ | isOpen
    · exact state_eq ▸ follows.admissible foundNode
    · exact isOpen.1
  unmarked {id other state} found isUnmarked stands := by
    rcases known id other found with ⟨node, foundNode, state_eq, target_eq, -⟩ | isOpen
    · exact follows.unmarked foundNode (target_eq ▸ isUnmarked) (state_eq ▸ stands)
    · exact isOpen.2.1 isUnmarked state stands
  covered {id other state} found isCovered stands := by
    rcases known id other found with ⟨node, foundNode, state_eq, -, covered_eq, -⟩ | isOpen
    · obtain ⟨coverer, member, known, foundKnown, standsKnown⟩ :=
        follows.covered foundNode (covered_eq ▸ isCovered) (state_eq ▸ stands)
      obtain ⟨last, foundLast, last_eq, -⟩ := grows foundKnown
      exact ⟨coverer, covered_eq ▸ member, last, foundLast, last_eq ▸ standsKnown⟩
    · exact absurd isOpen.2.2.1 isCovered
  expanded {id other state next action} found isExpanded stands steps := by
    rcases known id other found with
      ⟨node, foundNode, state_eq, -, -, expanded_eq, children⟩ | isOpen
    · obtain ⟨child, isChild, known, foundKnown, standsKnown⟩ :=
        follows.expanded foundNode (expanded_eq ▸ isExpanded) (state_eq ▸ stands) steps
      obtain ⟨last, foundLast, last_eq, -⟩ := grows foundKnown
      exact ⟨child, children isChild, last, foundLast, last_eq ▸ standsKnown⟩
    · simp [isOpen.2.2.2] at isExpanded
  initial {state} isInitialized starts := by
    obtain ⟨id, known, foundKnown, isRoot, standsKnown⟩ :=
      follows.initial (initialized ▸ isInitialized) starts
    obtain ⟨last, foundLast, last_eq, parent_eq, -⟩ := grows foundKnown
    exact ⟨id, last, foundLast, parent_eq ▸ isRoot, last_eq ▸ standsKnown⟩

/-- A new child of a node. -/
theorem Sound.withSuccessor (sound : graph.Sound system concretizes admissible bad)
    {parent : Nat} {node : GraphNode σ α} (found : graph.node? parent = some node)
    (action : α) (data : NodeData σ) (depth : Nat) (isAdmissible : admissible data.state)
    (unmarked : data.target = false → ∀ state, concretizes data.state state → ¬ bad state) :
    (graph.withSuccessor parent action data depth).Sound system concretizes admissible bad := by
  have view := node?_withSuccessor found action data depth
  constructor
  · exact sound.linked.withSuccessor found action data depth
  · apply sound.follows.extend (grows_withSuccessor found action data depth) rfl
    intro id other foundOther
    rw [view] at foundOther
    split at foundOther
    · obtain rfl := Option.some.inj foundOther
      exact .inl ⟨node, by simp_all, rfl, rfl, rfl, rfl, by simp⟩
    · split at foundOther
      · obtain rfl := Option.some.inj foundOther
        exact .inr ⟨isAdmissible, unmarked, rfl, rfl⟩
      · exact .inl ⟨other, foundOther, rfl, rfl, rfl, rfl, by simp⟩

theorem Sound.addInitial (sound : graph.Sound system concretizes admissible bad)
    (data : NodeData σ) (isAdmissible : admissible data.state)
    (unmarked : data.target = false → ∀ state, concretizes data.state state → ¬ bad state) :
    (graph.addInitial data).Sound system concretizes admissible bad := by
  have view := node?_addInitial graph data
  constructor
  · exact sound.linked.addInitial data
  · apply sound.follows.extend (grows_addInitial graph data) rfl
    intro id other foundOther
    rw [view] at foundOther
    split at foundOther
    · obtain rfl := Option.some.inj foundOther
      exact .inr ⟨isAdmissible, unmarked, rfl, rfl⟩
    · exact .inl ⟨other, foundOther, rfl, rfl, rfl, rfl, by simp⟩

theorem Sound.markInitialized (sound : graph.Sound system concretizes admissible bad)
    (roots : ∀ state, system.initial state → ∃ id node, graph.node? id = some node ∧
      node.parent = none ∧ concretizes node.state state) :
    ReachabilityGraph.Sound system concretizes admissible bad
      { graph with initialized := true } where
  linked := sound.linked.initializedAs true
  follows := ⟨sound.follows.admissible, sound.follows.unmarked, sound.follows.covered,
    sound.follows.expanded, fun _ starts => roots _ starts⟩

/-- A node may be marked as expanded when every step from its concrete states
leads into a child. -/
theorem Sound.markExpanded (sound : graph.Sound system concretizes admissible bad)
    {id : Nat} {node : GraphNode σ α} (found : graph.node? id = some node)
    (closed : ∀ state next action, concretizes node.state state →
      system.step state action next → ∃ child ∈ node.children, ∃ other,
        graph.node? child = some other ∧ concretizes other.state next) :
    (graph.modifyNode id fun node => { node with expanded := true }).Sound
      system concretizes admissible bad := by
  have view := fun other => node?_modifyNode graph id other
    fun node => { node with expanded := true }
  have grows := grows_markExpanded graph id
  obtain ⟨linked, follows⟩ := sound
  refine ⟨linked.markExpanded found, ?_, ?_, ?_, ?_, ?_⟩
  · have := @follows.admissible
    grind
  · have := @follows.unmarked
    grind
  · have := @follows.covered
    grind
  · intro other marked state next action foundMarked isExpanded stands steps
    have stepsInto : ∃ child ∈ marked.children, ∃ other,
        graph.node? child = some other ∧ concretizes other.state next := by
      rw [view] at foundMarked
      have := @follows.expanded
      grind
    obtain ⟨child, isChild, known, foundKnown, standsKnown⟩ := stepsInto
    obtain ⟨last, foundLast, last_eq, -⟩ := grows foundKnown
    exact ⟨child, isChild, last, foundLast, last_eq ▸ standsKnown⟩
  · intro state isInitialized starts
    obtain ⟨other, known, foundKnown, isRoot, standsKnown⟩ := follows.initial isInitialized starts
    obtain ⟨last, foundLast, last_eq, parent_eq, -⟩ := grows foundKnown
    exact ⟨other, last, foundLast, parent_eq ▸ isRoot, last_eq ▸ standsKnown⟩

/-- Coverage by nodes that together stand for all concrete states of a node. -/
theorem Follows.withCover (follows : graph.Follows system concretizes admissible bad)
    {id : Nat} {coverers : List Nat}
    (subsumes : ∀ node state, graph.node? id = some node → concretizes node.state state →
      ∃ coverer ∈ coverers, ∃ other, graph.node? coverer = some other ∧
        concretizes other.state state) :
    (graph.withCover id coverers).Follows system concretizes admissible bad := by
  have view := node?_withCover graph id coverers
  have grows := grows_withCover graph id coverers
  constructor
  · intro other node foundNode
    rw [view, Option.map_eq_some_iff] at foundNode
    obtain ⟨before, foundBefore, rfl⟩ := foundNode
    show admissible before.state
    exact follows.admissible foundBefore
  · intro other node state foundNode isUnmarked stands
    rw [view, Option.map_eq_some_iff] at foundNode
    obtain ⟨before, foundBefore, rfl⟩ := foundNode
    exact follows.unmarked foundBefore isUnmarked stands
  · intro other node state foundNode isCovered stands
    rw [view, Option.map_eq_some_iff] at foundNode
    obtain ⟨before, foundBefore, rfl⟩ := foundNode
    have followed : ∃ coverer ∈ (if other = id then coverers else before.coveredBy),
        ∃ known, graph.node? coverer = some known ∧ concretizes known.state state := by
      split
      case isTrue isId => exact subsumes before state (isId ▸ foundBefore) stands
      case isFalse notId =>
        simp only [notId, if_false] at isCovered
        exact follows.covered foundBefore isCovered stands
    obtain ⟨coverer, member, known, foundKnown, standsKnown⟩ := followed
    obtain ⟨last, foundLast, last_eq, -⟩ := grows foundKnown
    exact ⟨coverer, member, last, foundLast, last_eq ▸ standsKnown⟩
  · intro other node state next action foundNode isExpanded stands steps
    rw [view, Option.map_eq_some_iff] at foundNode
    obtain ⟨before, foundBefore, rfl⟩ := foundNode
    obtain ⟨child, isChild, known, foundKnown, standsKnown⟩ :=
      follows.expanded foundBefore isExpanded stands steps
    obtain ⟨last, foundLast, last_eq, -⟩ := grows foundKnown
    exact ⟨child, isChild, last, foundLast, last_eq ▸ standsKnown⟩
  · intro state isInitialized starts
    rw [initialized_withCover] at isInitialized
    obtain ⟨other, known, foundKnown, isRoot, standsKnown⟩ := follows.initial isInitialized starts
    obtain ⟨last, foundLast, last_eq, parent_eq, -⟩ := grows foundKnown
    exact ⟨other, last, foundLast, parent_eq ▸ isRoot, last_eq ▸ standsKnown⟩

end Growth

end ReachabilityGraph

end AbstractionRefinement
