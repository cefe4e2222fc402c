import AbstractionRefinement.Proofs.PrunedGraphs

/-!
# Settled graphs

A node whose successors could not all be created stays open although it has children.  A graph
without such nodes, and without nodes unless all initial ones were created, is settled.  Closing
and expanding nodes, initializing the graph and pruning it keep it settled, and all but pruning
keep the children that nodes have and the initial nodes.
-/

namespace AbstractionRefinement

namespace ReachabilityGraph

variable {σ α : Type} {graph after : ReachabilityGraph σ α} {parent id : Nat}

/-- The graph with new children of a node, each with the action that leads to it. -/
def withSuccessors (graph : ReachabilityGraph σ α) (parent depth : Nat)
    (made : List (α × NodeData σ)) : ReachabilityGraph σ α :=
  made.foldl (fun graph successor => graph.withSuccessor parent successor.1 successor.2 depth)
    graph

/-- The graph with new initial nodes. -/
def withInitials (graph : ReachabilityGraph σ α) (made : List (NodeData σ)) :
    ReachabilityGraph σ α :=
  made.foldl addInitial graph

theorem size_withSuccessor (graph : ReachabilityGraph σ α) (parent : Nat) (action : α)
    (data : NodeData σ) (depth : Nat) :
    (graph.withSuccessor parent action data depth).nodes.size = graph.nodes.size + 1 := by
  rw [withSuccessor, size_modifyNode, append, Array.size_push]

theorem size_addInitial (graph : ReachabilityGraph σ α) (data : NodeData σ) :
    (graph.addInitial data).nodes.size = graph.nodes.size + 1 :=
  Array.size_push ..

theorem size_withSuccessors (graph : ReachabilityGraph σ α) (parent depth : Nat)
    (made : List (α × NodeData σ)) :
    (graph.withSuccessors parent depth made).nodes.size = graph.nodes.size + made.length := by
  unfold withSuccessors
  induction made generalizing graph with
  | nil => rfl
  | cons successor made ih =>
      rw [List.foldl_cons, ih, size_withSuccessor, List.length_cons]
      omega

theorem size_withInitials (graph : ReachabilityGraph σ α) (made : List (NodeData σ)) :
    (graph.withInitials made).nodes.size = graph.nodes.size + made.length := by
  unfold withInitials
  induction made generalizing graph with
  | nil => rfl
  | cons data made ih =>
      rw [List.foldl_cons, ih, size_addInitial, List.length_cons]
      omega

theorem withSuccessors_eq_self_iff {depth : Nat} {made : List (α × NodeData σ)} :
    graph.withSuccessors parent depth made = graph ↔ made = [] := by
  refine ⟨fun same => List.eq_nil_of_length_eq_zero ?_, ?_⟩
  · have sizes := size_withSuccessors graph parent depth made
    rw [same] at sizes
    omega
  · rintro rfl
    rfl

theorem withInitials_eq_self_iff {made : List (NodeData σ)} :
    graph.withInitials made = graph ↔ made = [] := by
  refine ⟨fun same => List.eq_nil_of_length_eq_zero ?_, ?_⟩
  · have sizes := size_withInitials graph made
    rw [same] at sizes
    omega
  · rintro rfl
    rfl

theorem node?_withSuccessors {node : GraphNode σ α} (found : graph.node? parent = some node)
    (depth : Nat) (made : List (α × NodeData σ)) (id : Nat) :
    (graph.withSuccessors parent depth made).node? id =
      if id = parent then
        some { node with
          children := node.children ++ List.range' graph.nodes.size made.length }
      else if id < graph.nodes.size then graph.node? id
      else (made[id - graph.nodes.size]?).map fun successor =>
        .created id successor.2 (some (parent, successor.1)) depth := by
  unfold withSuccessors
  induction made generalizing graph node with
  | nil =>
      split
      case isTrue isParent => simp [isParent, found]
      case isFalse =>
        split
        case isTrue => rfl
        case isFalse outside =>
          cases found' : graph.node? id with
          | none => simp [found']
          | some other => exact absurd (node?_eq_some_lt found') outside
  | cons successor made ih =>
      have view := node?_withSuccessor found successor.1 successor.2 depth
      have foundParent := view parent
      rw [if_pos rfl] at foundParent
      rw [List.foldl_cons, ih foundParent, view, size_withSuccessor]
      have inside := node?_eq_some_lt found
      by_cases isParent : id = parent
      · simp [isParent, List.range'_succ]
      · by_cases isNew : id = graph.nodes.size
        · simp [isNew, Nat.ne_of_gt inside]
        · by_cases isOld : id < graph.nodes.size
          · simp [isParent, isNew, isOld, Nat.lt_succ_of_lt isOld]
          · have later : id - graph.nodes.size = id - (graph.nodes.size + 1) + 1 := by omega
            have outside : ¬ id < graph.nodes.size + 1 := by omega
            simp [isParent, isOld, outside, later]

theorem node?_withInitials (graph : ReachabilityGraph σ α) (made : List (NodeData σ)) (id : Nat) :
    (graph.withInitials made).node? id =
      if id < graph.nodes.size then graph.node? id
      else (made[id - graph.nodes.size]?).map fun data => .created id data none 0 := by
  unfold withInitials
  induction made generalizing graph with
  | nil =>
      split
      case isTrue => rfl
      case isFalse outside =>
        cases found : graph.node? id with
        | none => simp [found]
        | some other => exact absurd (node?_eq_some_lt found) outside
  | cons data made ih =>
      rw [List.foldl_cons, ih, node?_addInitial, size_addInitial]
      by_cases isNew : id = graph.nodes.size
      · simp [isNew]
      · by_cases isOld : id < graph.nodes.size
        · simp [isNew, isOld, Nat.lt_succ_of_lt isOld]
        · have later : id - graph.nodes.size = id - (graph.nodes.size + 1) + 1 := by omega
          have outside : ¬ id < graph.nodes.size + 1 := by omega
          simp [isOld, outside, later]

theorem Intact.withSuccessors (intact : graph.Intact) {node : GraphNode σ α}
    (found : graph.node? parent = some node) (uncovered : node.coveredBy = [])
    (unmarked : node.target = false) (made : List (α × NodeData σ)) :
    (graph.withSuccessors parent (node.depth + 1) made).Intact := by
  unfold ReachabilityGraph.withSuccessors
  induction made generalizing graph node with
  | nil => exact intact
  | cons successor made ih =>
      let next : GraphNode σ α := { node with children := node.children ++ [graph.nodes.size] }
      have foundNext : (graph.withSuccessor parent successor.1 successor.2
          (node.depth + 1)).node? parent = some next := by
        rw [node?_withSuccessor found, if_pos rfl]
      exact @ih _ (intact.withSuccessor found uncovered unmarked _ _) next foundNext uncovered
        unmarked

theorem Intact.withInitials (intact : graph.Intact) (made : List (NodeData σ)) :
    (graph.withInitials made).Intact := by
  unfold ReachabilityGraph.withInitials
  induction made generalizing graph with
  | nil => exact intact
  | cons data made ih => exact ih (intact.addInitial data)

/-- An intact graph without half-expanded nodes, and without nodes unless it is initialized. -/
structure Settled (graph : ReachabilityGraph σ α) : Prop extends graph.Intact where
  childless {id : Nat} {node : GraphNode σ α} : graph.node? id = some node →
    node.isIncomplete = true → node.children = []
  started {id : Nat} {node : GraphNode σ α} : graph.node? id = some node →
    graph.initialized = true

/-- Nodes with children keep exactly these, and initial nodes are not added again. -/
structure Grown (before after : ReachabilityGraph σ α) : Prop where
  children {id : Nat} {node : GraphNode σ α} : before.node? id = some node →
    node.children ≠ [] → ∃ other, after.node? id = some other ∧ other.children = node.children
  initialized : before.initialized = true → after.initialized = true ∧
    after.initial = before.initial

theorem Grown.refl (graph : ReachabilityGraph σ α) : Grown graph graph :=
  ⟨fun found _ => ⟨_, found, rfl⟩, fun initialized => ⟨initialized, rfl⟩⟩

theorem Grown.trans {last : ReachabilityGraph σ α} (earlier : Grown graph after)
    (later : Grown after last) : Grown graph last where
  children found inner := by
    obtain ⟨other, foundOther, same⟩ := earlier.children found inner
    obtain ⟨last, foundLast, same'⟩ := later.children foundOther (same ▸ inner)
    exact ⟨last, foundLast, same'.trans same⟩
  initialized isInitialized := by
    obtain ⟨isInitialized', same⟩ := earlier.initialized isInitialized
    obtain ⟨isInitialized'', same'⟩ := later.initialized isInitialized'
    exact ⟨isInitialized'', same'.trans same⟩

theorem settled_empty : (empty : ReachabilityGraph σ α).Settled :=
  ⟨intact_empty, by simp, by simp⟩

theorem Settled.withCover (settled : graph.Settled) {node : GraphNode σ α} {coverers : List Nat}
    (found : graph.node? id = some node) (childless : node.children = [])
    (uncovered : node.coveredBy = []) (nonempty : coverers ≠ [])
    (mayCover : ∀ coverer ∈ coverers, ∃ other, graph.node? coverer = some other ∧
      other.key = node.key) : (graph.withCover id coverers).Settled := by
  refine ⟨settled.toIntact.withCover found childless uncovered mayCover, ?_, ?_⟩
  · intro other last foundLast isOpen
    rw [node?_withCover, Option.map_eq_some_iff] at foundLast
    obtain ⟨before, foundBefore, rfl⟩ := foundLast
    by_cases isCovered : other = id
    · simp [GraphNode.isIncomplete, GraphNode.isCovered, isCovered, nonempty] at isOpen
    · have wasOpen : before.isIncomplete = true := by
        simpa [GraphNode.isIncomplete, GraphNode.isCovered, isCovered] using isOpen
      have childless' : before.children = [] := settled.childless foundBefore wasOpen
      exact childless'
  · intro other last foundLast
    rw [node?_withCover, Option.map_eq_some_iff] at foundLast
    obtain ⟨before, foundBefore, -⟩ := foundLast
    rw [initialized_withCover]
    exact settled.started foundBefore

theorem grown_withCover (graph : ReachabilityGraph σ α) (id : Nat) (coverers : List Nat) :
    Grown graph (graph.withCover id coverers) where
  children found _ := by
    rw [node?_withCover, found]
    exact ⟨_, rfl, rfl⟩
  initialized isInitialized := by
    have bare_eq := graph.bare_withCover id coverers
    have initial_eq : (graph.withCover id coverers).bare.initial = graph.bare.initial :=
      congrArg initial bare_eq
    exact ⟨by rw [initialized_withCover, isInitialized], initial_eq⟩

theorem initialized_withSuccessors (graph : ReachabilityGraph σ α) (parent depth : Nat)
    (made : List (α × NodeData σ)) :
    (graph.withSuccessors parent depth made).initialized = graph.initialized := by
  have keeps (graph : ReachabilityGraph σ α) (successor : α × NodeData σ) :
      (graph.withSuccessor parent successor.1 successor.2 depth).initialized =
        graph.initialized := rfl
  exact view_foldl ReachabilityGraph.initialized keeps made graph

theorem initial_withSuccessors (graph : ReachabilityGraph σ α) (parent depth : Nat)
    (made : List (α × NodeData σ)) :
    (graph.withSuccessors parent depth made).initial = graph.initial := by
  have keeps (graph : ReachabilityGraph σ α) (successor : α × NodeData σ) :
      (graph.withSuccessor parent successor.1 successor.2 depth).initial = graph.initial := rfl
  exact view_foldl ReachabilityGraph.initial keeps made graph

/-- New children of a childless node are no children of any other. -/
theorem grown_withSuccessors {node : GraphNode σ α} (found : graph.node? parent = some node)
    (childless : node.children = []) (depth : Nat) (made : List (α × NodeData σ)) :
    Grown graph (graph.withSuccessors parent depth made) where
  children {id other} foundOther inner := by
    rw [node?_withSuccessors found]
    split
    case isTrue isParent =>
      obtain rfl := Option.some.inj (found.symm.trans (isParent ▸ foundOther))
      exact absurd childless inner
    case isFalse =>
      rw [if_pos (node?_eq_some_lt foundOther)]
      exact ⟨other, foundOther, rfl⟩
  initialized isInitialized :=
    ⟨by rw [initialized_withSuccessors, isInitialized], initial_withSuccessors ..⟩

theorem grown_modifyNode (graph : ReachabilityGraph σ α) (id : Nat)
    {change : GraphNode σ α → GraphNode σ α}
    (keeps : ∀ node, (change node).children = node.children) :
    Grown graph (graph.modifyNode id change) where
  children found _ := by
    rw [node?_modifyNode, found]
    split
    · exact ⟨_, rfl, keeps _⟩
    · exact ⟨_, rfl, rfl⟩
  initialized isInitialized := ⟨isInitialized, rfl⟩

/-- The graph in which a node is fully expanded. -/
def withExpansion (graph : ReachabilityGraph σ α) (id depth : Nat)
    (made : List (α × NodeData σ)) : ReachabilityGraph σ α :=
  (graph.withSuccessors id depth made).modifyNode id fun node => { node with expanded := true }

theorem node?_withExpansion {node : GraphNode σ α} (found : graph.node? id = some node)
    (depth : Nat) (made : List (α × NodeData σ)) (other : Nat) :
    (graph.withExpansion id depth made).node? other =
      if other = id then
        some { node with
          children := node.children ++ List.range' graph.nodes.size made.length
          expanded := true }
      else if other < graph.nodes.size then graph.node? other
      else (made[other - graph.nodes.size]?).map fun successor =>
        .created other successor.2 (some (id, successor.1)) depth := by
  rw [withExpansion, node?_modifyNode, node?_withSuccessors found]
  by_cases isParent : other = id <;> simp [isParent]

theorem Settled.withExpansion (settled : graph.Settled) {node : GraphNode σ α}
    (found : graph.node? id = some node) (isOpen : node.isIncomplete = true)
    (made : List (α × NodeData σ)) :
    (graph.withExpansion id (node.depth + 1) made).Settled := by
  have view := node?_withExpansion found (node.depth + 1) made
  obtain ⟨-, unmarked, uncovered⟩ :
      node.expanded = false ∧ node.target = false ∧ node.coveredBy = [] := by
    simpa [GraphNode.isIncomplete, GraphNode.isCovered, and_assoc] using isOpen
  refine ⟨(settled.toIntact.withSuccessors found uncovered unmarked made).markExpanded id, ?_, ?_⟩
  · intro other last foundLast isOpen'
    rw [view] at foundLast
    split at foundLast
    · obtain rfl := Option.some.inj foundLast
      simp [GraphNode.isIncomplete] at isOpen'
    · split at foundLast
      · exact settled.childless foundLast isOpen'
      · obtain ⟨successor, -, rfl⟩ := Option.map_eq_some_iff.mp foundLast
        rfl
  · intro _ _ _
    exact (initialized_withSuccessors ..).trans (settled.started found)

theorem grown_withExpansion {node : GraphNode σ α} (found : graph.node? id = some node)
    (childless : node.children = []) (depth : Nat) (made : List (α × NodeData σ)) :
    Grown graph (graph.withExpansion id depth made) :=
  (grown_withSuccessors found childless depth made).trans (grown_modifyNode _ _ fun _ => rfl)

theorem Settled.withInitials (settled : graph.Settled) (made : List (NodeData σ)) :
    ReachabilityGraph.Settled { graph.withInitials made with initialized := true } := by
  refine ⟨(settled.toIntact.withInitials made).initializedAs true, ?_, fun _ => rfl⟩
  intro other last foundLast isOpen
  have foundLast : (graph.withInitials made).node? other = some last := foundLast
  rw [node?_withInitials] at foundLast
  split at foundLast
  · exact settled.childless foundLast isOpen
  · obtain ⟨data, -, rfl⟩ := Option.map_eq_some_iff.mp foundLast
    rfl

theorem Settled.node?_eq_none (settled : graph.Settled)
    (notInitialized : graph.initialized = false) (id : Nat) : graph.node? id = none := by
  by_contra isLive
  obtain ⟨node, found⟩ := Option.ne_none_iff_exists'.mp isLive
  rw [settled.started found] at notInitialized
  cases notInitialized

theorem Settled.grown_of_not_initialized (settled : graph.Settled)
    (notInitialized : graph.initialized = false) (after : ReachabilityGraph σ α) :
    Grown graph after where
  children found _ := by
    rw [settled.node?_eq_none notInitialized] at found
    cases found
  initialized isInitialized := by
    rw [isInitialized] at notInitialized
    cases notInitialized

theorem settled_pruneAll (graph : ReachabilityGraph σ α) : graph.pruneAll.Settled := by
  refine ⟨graph.intact_pruneAll, ?_, ?_⟩ <;>
  · intro id node found
    rw [node?_pruneAll] at found
    cases found

/-- A node that pruning opens again, since it loses its children or its coverage, is childless. -/
theorem Settled.pruneBelow (settled : graph.Settled) {node : GraphNode σ α}
    (found : graph.node? parent = some node) :
    (graph.pruneBelow parent node.children).Settled := by
  have loses := settled.losesBelow found
  have wasLive {id : Nat} {last : GraphNode σ α}
      (foundLast : (graph.pruneBelow parent node.children).node? id = some last) :
      ∃ before, graph.node? id = some before := by
    have isLive : (graph.pruneBelow parent node.children).contains id = true := by
      rw [contains, foundLast, Option.isSome_some]
    exact Option.isSome_iff_exists.mp ((loses.contains_iff id).mp isLive).1
  refine ⟨settled.toIntact.pruneBelow found, ?_, ?_⟩
  · intro id last foundLast isOpen
    obtain ⟨before, foundBefore⟩ := wasLive foundLast
    rw [loses.stays foundBefore foundLast] at isOpen ⊢
    by_cases isParent : id = parent
    · simp [isParent]
    · dsimp only
      rw [if_neg isParent]
      by_cases uncovered : before.coveredBy = []
      · refine settled.childless foundBefore ?_
        simpa [GraphNode.isIncomplete, GraphNode.isCovered, isParent, uncovered] using isOpen
      · exact settled.leaf foundBefore (.inl uncovered)
  · intro id last foundLast
    obtain ⟨before, foundBefore⟩ := wasLive foundLast
    rw [loses.initialized_eq]
    exact settled.started foundBefore

theorem Settled.prune (settled : graph.Settled) (id : Nat) :
    (ReachabilityGraph.prune id graph).2.Settled := by
  cases found : graph.node? id with
  | none =>
      rw [prune_missing found]
      exact settled
  | some node =>
      obtain ⟨after, run, rfl | ⟨parent, parentNode, foundParent, -, rfl⟩⟩ :=
        settled.prune_run found <;> rw [run]
      · exact graph.settled_pruneAll
      · exact settled.pruneBelow foundParent

end ReachabilityGraph

end AbstractionRefinement
