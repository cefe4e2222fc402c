import AbstractionRefinement.Proofs.ComputationLaws

/-!
# Operations on reachability graphs

A reachability graph is seen through the function that looks a live node up by
its number.  This file states what every operation does to that view: which
nodes it changes, in which fields, and which nodes it adds or removes.  The
operations that fail are described by what they return when they succeed.
-/

namespace AbstractionRefinement

/-- A node as it is created. -/
def GraphNode.created {σ α : Type} (id : Nat) (data : NodeData σ)
    (origin : Option (Nat × α)) (depth : Nat) : GraphNode σ α where
  id := id
  state := data.state
  origin := origin
  children := []
  coveredBy := []
  covers := []
  expanded := false
  target := data.target
  depth := depth
  key := data.key
  version := data.version

namespace ReachabilityGraph

variable {σ α : Type}

open AbstractionRefinement.Computation

theorem node?_eq_some_lt {graph : ReachabilityGraph σ α} {id : Nat}
    {node : GraphNode σ α} (found : graph.node? id = some node) :
    id < graph.nodes.size := by
  by_contra outside
  simp [node?, Array.getElem?_eq_none (Nat.le_of_not_lt outside)] at found

theorem mem_live {graph : ReachabilityGraph σ α} {node : GraphNode σ α} :
    node ∈ graph.live ↔ ∃ id, graph.node? id = some node := by
  simp only [live, List.mem_filterMap, id, node?, Option.join_eq_some_iff]
  constructor
  · rintro ⟨_, listed, rfl⟩
    obtain ⟨position, found⟩ := List.getElem?_of_mem listed
    exact ⟨position, by simpa using found⟩
  · rintro ⟨position, found⟩
    exact ⟨some node, List.mem_of_getElem? (by simpa using found), rfl⟩

theorem mem_withKey {graph : ReachabilityGraph σ α} {key : Nat} {node : GraphNode σ α} :
    node ∈ graph.withKey key ↔ ∃ id ∈ graph.numbersWithKey key, graph.node? id = some node :=
  List.mem_filterMap

@[simp]
theorem node?_empty (id : Nat) : (empty : ReachabilityGraph σ α).node? id = none := by
  simp [node?, empty]

@[simp]
theorem node?_pruneAll (graph : ReachabilityGraph σ α) (id : Nat) :
    graph.pruneAll.node? id = none := by
  simp only [node?, pruneAll, Array.getElem?_map]
  cases graph.nodes[id]? <;> rfl

@[simp]
theorem node?_modifyNode (graph : ReachabilityGraph σ α) (id other : Nat)
    (change : GraphNode σ α → GraphNode σ α) :
    (graph.modifyNode id change).node? other =
      if other = id then (graph.node? other).map change else graph.node? other := by
  simp only [node?, modifyNode, Array.getElem?_modify]
  by_cases same : id = other
  · subst same
    rcases graph.nodes[id]? with _ | _ | node <;> simp
  · simp [same, Ne.symm same]

@[simp]
theorem node?_append (graph : ReachabilityGraph σ α) (data : NodeData σ)
    (origin : Option (Nat × α)) (depth other : Nat) :
    (graph.append data origin depth).node? other =
      if other = graph.nodes.size then
        some (.created graph.nodes.size data origin depth)
      else graph.node? other := by
  simp only [node?, append, Array.getElem?_push]
  split <;> simp [GraphNode.created]

@[simp]
theorem node?_addInitial (graph : ReachabilityGraph σ α) (data : NodeData σ)
    (other : Nat) :
    (graph.addInitial data).node? other =
      if other = graph.nodes.size then some (.created graph.nodes.size data none 0)
      else graph.node? other :=
  node?_append graph data none 0 other

@[simp]
theorem initialized_modifyNode (graph : ReachabilityGraph σ α) (id : Nat)
    (change : GraphNode σ α → GraphNode σ α) :
    (graph.modifyNode id change).initialized = graph.initialized :=
  rfl

@[simp]
theorem size_modifyNode (graph : ReachabilityGraph σ α) (id : Nat)
    (change : GraphNode σ α → GraphNode σ α) :
    (graph.modifyNode id change).nodes.size = graph.nodes.size := by
  simp [modifyNode]

theorem view_foldl {β γ : Type} (view : ReachabilityGraph σ α → γ)
    {step : ReachabilityGraph σ α → β → ReachabilityGraph σ α}
    (keeps : ∀ graph item, view (step graph item) = view graph) (items : List β)
    (graph : ReachabilityGraph σ α) : view (items.foldl step graph) = view graph := by
  induction items generalizing graph with
  | nil => rfl
  | cons item items ih => rw [List.foldl_cons, ih, keeps]

/-- Changing nodes one after the other, where changing one twice makes no
difference, changes each of them. -/
theorem node?_foldl_modifyNode (ids : List Nat) (graph : ReachabilityGraph σ α)
    (change : GraphNode σ α → GraphNode σ α)
    (idempotent : ∀ node, change (change node) = change node) (other : Nat) :
    (ids.foldl (fun graph id => graph.modifyNode id change) graph).node? other =
      if other ∈ ids then (graph.node? other).map change else graph.node? other := by
  induction ids generalizing graph with
  | nil => simp
  | cons id ids ih =>
      rw [List.foldl_cons, ih, node?_modifyNode]
      have twice : change ∘ change = change := funext idempotent
      by_cases same : other = id
      · subst same
        by_cases again : other ∈ ids <;> simp [again, twice]
      · simp [same]

theorem initialized_foldl_modifyNode (ids : List Nat) (graph : ReachabilityGraph σ α)
    (change : GraphNode σ α → GraphNode σ α) :
    (ids.foldl (fun graph id => graph.modifyNode id change) graph).initialized =
      graph.initialized :=
  view_foldl initialized (fun _ _ => initialized_modifyNode ..) ids graph

/-- Stop covering a node: it loses its coverers, and they forget it. -/
theorem node?_dropCover (graph : ReachabilityGraph σ α) (node : GraphNode σ α)
    (other : Nat) :
    (graph.dropCover node).node? other =
      (graph.node? other).map fun found =>
        { found with
          coveredBy := if other = node.id then [] else found.coveredBy
          covers :=
            if other ∈ node.coveredBy then found.covers.filter (· ≠ node.id)
            else found.covers } := by
  rw [dropCover, node?_foldl_modifyNode _ _ _ (by simp), node?_modifyNode]
  by_cases dropped : other = node.id
  · subst dropped
    by_cases coverer : node.id ∈ node.coveredBy <;>
      cases graph.node? node.id <;> simp [coverer]
  · by_cases coverer : other ∈ node.coveredBy <;>
      cases graph.node? other <;> simp [dropped, coverer]

theorem initialized_dropCover (graph : ReachabilityGraph σ α) (node : GraphNode σ α) :
    (graph.dropCover node).initialized = graph.initialized := by
  rw [dropCover, initialized_foldl_modifyNode, initialized_modifyNode]

theorem size_dropCover (graph : ReachabilityGraph σ α) (node : GraphNode σ α) :
    (graph.dropCover node).nodes.size = graph.nodes.size := by
  rw [dropCover, view_foldl (·.nodes.size) (fun _ _ => size_modifyNode ..), size_modifyNode]

variable {graph : ReachabilityGraph σ α}

theorem lookup_eq_ok_iff {id : Nat} {node : GraphNode σ α} :
    graph.lookup id = .ok node ↔ graph.node? id = some node := by
  unfold lookup
  cases graph.node? id <;> simp

theorem lookup_ne_error {id : Nat} {node : GraphNode σ α} {error : EngineError}
    (found : graph.node? id = some node) : graph.lookup id ≠ .error error := by
  simp [lookup_eq_ok_iff.mpr found]

/-- The error of a node that does not exist. -/
def missingNode (id : Nat) : EngineError :=
  .inconsistentGraph ("node " ++ displayNode id ++ " does not exist")

theorem getNode_run {id : Nat} {node : GraphNode σ α} (found : graph.node? id = some node) :
    getNode id graph = (.ok node, graph) := by
  show (graph.lookup id, graph) = _
  rw [lookup_eq_ok_iff.mpr found]

theorem getNode_missing {id : Nat} (missing : graph.node? id = none) :
    getNode id graph = (.error (missingNode id), graph) := by
  show (graph.lookup id, graph) = _
  rw [lookup, missing]
  rfl

theorem updateNode_run {id : Nat} {node : GraphNode σ α} (found : graph.node? id = some node)
    (change : GraphNode σ α → GraphNode σ α) :
    updateNode id change graph = (.ok (), graph.modifyNode id change) := by
  rw [updateNode, bind_run, discard_run, getNode_run found]
  rfl

theorem updateNode_missing {id : Nat} (missing : graph.node? id = none)
    (change : GraphNode σ α → GraphNode σ α) :
    updateNode id change graph = (.error (missingNode id), graph) := by
  rw [updateNode, bind_run, discard_run, getNode_missing missing]

/-- The path to a node is the walk up from it, the other way round. -/
theorem exists_of_pathTo {id : Nat} {path : List Nat} (walks : graph.pathTo id = .ok path) :
    ∃ up, graph.pathUpWithin (graph.nodes.size + 1) id = .ok up ∧ up.reverse = path := by
  unfold pathTo at walks
  cases walksUp : graph.pathUpWithin (graph.nodes.size + 1) id with
  | error error =>
      rw [walksUp] at walks
      cases walks
  | ok up =>
      rw [walksUp] at walks
      cases walks
      exact ⟨up, rfl, rfl⟩

theorem outcome_getNode {id : Nat} {returns : GraphNode σ α → ReachabilityGraph σ α → Prop}
    {fails : EngineError → ReachabilityGraph σ α → Prop} :
    (getNode id).Outcome graph returns fails ↔
      (∀ node, graph.node? id = some node → returns node graph) ∧
        ∀ error, graph.lookup id = .error error → fails error graph := by
  simp only [getNode, outcome_bind, outcome_get, outcome_lift, lookup_eq_ok_iff]

theorem outcome_updateNode {id : Nat} {change : GraphNode σ α → GraphNode σ α}
    {returns : Unit → ReachabilityGraph σ α → Prop}
    {fails : EngineError → ReachabilityGraph σ α → Prop} :
    (updateNode id change).Outcome graph returns fails ↔
      (∀ node, graph.node? id = some node → returns () (graph.modifyNode id change)) ∧
        ∀ error, graph.lookup id = .error error → fails error graph := by
  simp only [updateNode, outcome_bind, outcome_discard, outcome_getNode, outcome_modify]

@[simp]
theorem ensures_getNode {id : Nat}
    {returns : GraphNode σ α → ReachabilityGraph σ α → Prop} :
    (getNode id).Ensures graph returns ↔
      ∀ node, graph.node? id = some node → returns node graph := by
  simp only [getNode, ensures_bind, ensures_get, ensures_lift, lookup_eq_ok_iff]

@[simp]
theorem ensures_updateNode {id : Nat} {change : GraphNode σ α → GraphNode σ α}
    {returns : Unit → ReachabilityGraph σ α → Prop} :
    (updateNode id change).Ensures graph returns ↔
      ∀ node, graph.node? id = some node → returns () (graph.modifyNode id change) := by
  simp only [updateNode, ensures_bind, ensures_discard, ensures_getNode, ensures_modify]

theorem uncover_run {id : Nat} {node : GraphNode σ α} (found : graph.node? id = some node) :
    uncover id graph = (.ok (), graph.dropCover node) := by
  rw [uncover, bind_run, getNode_run found]
  rfl

theorem uncover_missing {id : Nat} (missing : graph.node? id = none) :
    uncover id graph = (.error (missingNode id), graph) := by
  rw [uncover, bind_run, getNode_missing missing]

/-- The graph with a new child of a node. -/
def withSuccessor (graph : ReachabilityGraph σ α) (parent : Nat) (action : α)
    (data : NodeData σ) (depth : Nat) : ReachabilityGraph σ α :=
  (graph.append data (some (parent, action)) depth).modifyNode parent
    fun other => { other with children := other.children ++ [graph.nodes.size] }

theorem node?_withSuccessor {parent : Nat} {node : GraphNode σ α}
    (found : graph.node? parent = some node) (action : α) (data : NodeData σ)
    (depth other : Nat) :
    (graph.withSuccessor parent action data depth).node? other =
      if other = parent then
        some { node with children := node.children ++ [graph.nodes.size] }
      else if other = graph.nodes.size then
        some (.created graph.nodes.size data (some (parent, action)) depth)
      else graph.node? other := by
  simp only [withSuccessor, node?_modifyNode, node?_append]
  by_cases same : other = parent
  · subst same
    simp [found, Nat.ne_of_lt (node?_eq_some_lt found)]
  · simp [same]

theorem addSuccessor_run {parent : Nat} {node : GraphNode σ α}
    (found : graph.node? parent = some node) (action : α) (data : NodeData σ) :
    addSuccessor parent action data graph =
      (.ok graph.nodes.size, graph.withSuccessor parent action data (node.depth + 1)) := by
  rw [addSuccessor, bind_run, getNode_run found]
  rfl

theorem addSuccessor_missing {parent : Nat} (missing : graph.node? parent = none) (action : α)
    (data : NodeData σ) :
    addSuccessor parent action data graph = (.error (missingNode parent), graph) := by
  rw [addSuccessor, bind_run, getNode_missing missing]

theorem outcome_addSuccessor {parent : Nat} {action : α} {data : NodeData σ}
    {returns : Nat → ReachabilityGraph σ α → Prop}
    {fails : EngineError → ReachabilityGraph σ α → Prop} :
    (addSuccessor parent action data).Outcome graph returns fails ↔
      (∀ node, graph.node? parent = some node → returns graph.nodes.size
        (graph.withSuccessor parent action data (node.depth + 1))) ∧
        ∀ error, graph.lookup parent = .error error → fails error graph := by
  simp only [addSuccessor, outcome_bind, outcome_getNode, outcome_get, outcome_modify,
    outcome_pure, withSuccessor]

theorem ensures_addSuccessor {parent : Nat} {action : α} {data : NodeData σ}
    {returns : Nat → ReachabilityGraph σ α → Prop} :
    (addSuccessor parent action data).Ensures graph returns ↔
      ∀ node, graph.node? parent = some node →
        returns graph.nodes.size
          (graph.withSuccessor parent action data (node.depth + 1)) := by
  simp only [addSuccessor, ensures_bind, ensures_getNode, ensures_get, ensures_modify,
    ensures_pure, withSuccessor]

theorem exists_node?_foldl_modifyNode (ids : List Nat) {change : GraphNode σ α → GraphNode σ α}
    {other : Nat} (live : ∃ node, graph.node? other = some node) :
    ∃ node, (ids.foldl (fun graph id => graph.modifyNode id change) graph).node? other =
      some node := by
  induction ids generalizing graph with
  | nil => exact live
  | cons id ids ih =>
      obtain ⟨node, found⟩ := live
      refine ih ?_
      rw [node?_modifyNode, found]
      split <;> exact ⟨_, rfl⟩

/-- Live nodes can be updated one after the other. -/
theorem outcome_forM_updateNode {ids : List Nat} {change : GraphNode σ α → GraphNode σ α}
    {returns : Unit → ReachabilityGraph σ α → Prop}
    {fails : EngineError → ReachabilityGraph σ α → Prop}
    (live : ∀ id ∈ ids, ∃ node, graph.node? id = some node)
    (holds : returns () (ids.foldl (fun graph id => graph.modifyNode id change) graph)) :
    (ids.forM fun id => updateNode id change).Outcome graph returns fails := by
  induction ids generalizing graph with
  | nil => exact holds
  | cons id ids ih =>
      obtain ⟨⟨node, found⟩, live'⟩ := List.forall_mem_cons.mp live
      show ((updateNode id change >>= fun _ => ids.forM fun id => updateNode id change) :
        Operation σ α Unit).Outcome graph returns fails
      rw [outcome_bind, outcome_updateNode]
      refine ⟨fun _ _ => ih (fun other member => ?_) holds, fun error missing => ?_⟩
      · exact exists_node?_foldl_modifyNode [id] (live' other member)
      · exact absurd missing (lookup_ne_error found)

theorem ensures_forM_updateNode {ids : List Nat} {change : GraphNode σ α → GraphNode σ α}
    {returns : Unit → ReachabilityGraph σ α → Prop}
    (holds : returns () (ids.foldl (fun graph id => graph.modifyNode id change) graph)) :
    (ids.forM fun id => updateNode id change).Ensures graph returns := by
  induction ids generalizing graph with
  | nil => exact holds
  | cons id ids ih =>
      show ((updateNode id change >>= fun _ => ids.forM fun id => updateNode id change) :
        Operation σ α Unit).Ensures graph returns
      simp only [ensures_bind, ensures_updateNode]
      intro node found
      exact ih holds

/-- The graph in which a node is covered by others. -/
def withCover (graph : ReachabilityGraph σ α) (id : Nat) (coverers : List Nat) :
    ReachabilityGraph σ α :=
  (coverers.foldl
    (fun graph coverer => graph.modifyNode coverer fun other =>
      { other with covers := other.covers ++ [id] })
    graph).modifyNode id fun other => { other with coveredBy := coverers }

/-- The graph in which some nodes list another one as covered by them. -/
def noting (graph : ReachabilityGraph σ α) (id : Nat) (coverers : List Nat) :
    ReachabilityGraph σ α :=
  coverers.foldl
    (fun graph coverer => graph.modifyNode coverer fun other =>
      { other with covers := other.covers ++ [id] })
    graph

theorem node?_noting (graph : ReachabilityGraph σ α) (id : Nat) (coverers : List Nat)
    (other : Nat) :
    (graph.noting id coverers).node? other =
      (graph.node? other).map fun found =>
        { found with covers := found.covers ++ List.replicate (coverers.count other) id } := by
  unfold noting
  induction coverers generalizing graph with
  | nil => simp
  | cons coverer coverers ih =>
      rw [List.foldl_cons, ih, node?_modifyNode]
      by_cases same : other = coverer
      · subst same
        cases graph.node? other <;> simp [List.replicate_succ]
      · simp [same, List.count_cons_of_ne (Ne.symm same)]

theorem node?_withCover (graph : ReachabilityGraph σ α) (id : Nat) (coverers : List Nat)
    (other : Nat) :
    (graph.withCover id coverers).node? other =
      (graph.node? other).map fun found =>
        { found with
          covers := found.covers ++ List.replicate (coverers.count other) id
          coveredBy := if other = id then coverers else found.coveredBy } := by
  show ((graph.noting id coverers).modifyNode id fun other =>
    { other with coveredBy := coverers }).node? other = _
  rw [node?_modifyNode, node?_noting]
  by_cases same : other = id
  · subst same
    cases graph.node? other <;> simp
  · simp [same]

theorem initialized_withCover (graph : ReachabilityGraph σ α) (id : Nat)
    (coverers : List Nat) :
    (graph.withCover id coverers).initialized = graph.initialized := by
  rw [withCover, initialized_modifyNode, initialized_foldl_modifyNode]

theorem contains_modifyNode (graph : ReachabilityGraph σ α) (id : Nat)
    (change : GraphNode σ α → GraphNode σ α) :
    (graph.modifyNode id change).contains = graph.contains := by
  funext other
  rw [contains, contains, node?_modifyNode]
  split <;> cases graph.node? other <;> rfl

/-- Nodes are updated one after the other, up to the first one that does not exist. -/
theorem forM_updateNode_run (ids : List Nat) (change : GraphNode σ α → GraphNode σ α)
    (graph : ReachabilityGraph σ α) :
    (ids.forM fun id => updateNode id change) graph =
      match ids.find? fun id => !graph.contains id with
      | none => (.ok (), ids.foldl (fun graph id => graph.modifyNode id change) graph)
      | some missing => (.error (missingNode missing),
          (ids.takeWhile graph.contains).foldl (fun graph id => graph.modifyNode id change)
            graph) := by
  induction ids generalizing graph with
  | nil => rfl
  | cons id ids ih =>
      show ((updateNode id change >>= fun _ => ids.forM fun id => updateNode id change) :
        Operation σ α Unit) graph = _
      cases found : graph.node? id with
      | none =>
          have missing : graph.contains id = false := by rw [contains, found, Option.isSome_none]
          rw [bind_run, updateNode_missing found, List.find?_cons, missing,
            List.takeWhile_cons_of_neg (by rw [missing]; exact Bool.false_ne_true)]
          rfl
      | some node =>
          have live : graph.contains id = true := by rw [contains, found, Option.isSome_some]
          rw [bind_run, updateNode_run found, List.find?_cons, live, List.takeWhile_cons_of_pos live]
          dsimp only
          rw [ih, contains_modifyNode]
          rfl

/-- What covering a node does: it is refused, or the covering nodes note it up to the first one
that does not exist, or the node is covered. -/
theorem cover_run (id : Nat) (coverers : List Nat) (graph : ReachabilityGraph σ α) :
    cover id coverers graph =
      if coverers.isEmpty || coverers.contains id then
        (.error (.inconsistentGraph (displayNode id ++ " cannot cover itself")), graph)
      else
        match graph.node? id with
        | none => (.error (missingNode id), graph)
        | some node =>
            if node.isCovered || !node.children.isEmpty then
              (.error (.inconsistentGraph (displayNode id ++ " is already covered or expanded")),
                graph)
            else
              match coverers.find? fun coverer => !graph.contains coverer with
              | none => (.ok (), graph.withCover id coverers)
              | some missing => (.error (missingNode missing),
                  graph.noting id (coverers.takeWhile graph.contains)) := by
  unfold cover
  split
  case isTrue => rfl
  case isFalse =>
    dsimp only
    cases found : graph.node? id with
    | none => rw [bind_run, getNode_missing found]
    | some node =>
        rw [bind_run, getNode_run found]
        dsimp only
        split
        case isTrue => rfl
        case isFalse =>
          rw [bind_run, forM_updateNode_run]
          cases coverers.find? fun coverer => !graph.contains coverer with
          | some missing => rfl
          | none =>
              dsimp only
              obtain ⟨last, foundLast⟩ := exists_node?_foldl_modifyNode coverers ⟨node, found⟩
              exact updateNode_run foundLast _

/-- An open node is covered by other live ones. -/
theorem cover_run_of_live {id : Nat} {node : GraphNode σ α} {coverers : List Nat}
    (found : graph.node? id = some node) (uncovered : node.coveredBy = [])
    (childless : node.children = []) (nonempty : coverers ≠ []) (irreflexive : id ∉ coverers)
    (live : ∀ coverer ∈ coverers, ∃ other, graph.node? coverer = some other) :
    cover id coverers graph = (.ok (), graph.withCover id coverers) := by
  have noneMissing : coverers.find? (fun coverer => !graph.contains coverer) = none := by
    refine List.find?_eq_none.mpr fun coverer member => ?_
    obtain ⟨other, foundOther⟩ := live coverer member
    simp [contains, foundOther]
  have allowed : ¬(coverers.isEmpty || coverers.contains id) = true := by
    simp [nonempty, irreflexive]
  have isOpen : ¬(node.isCovered || !node.children.isEmpty) = true := by
    simp [GraphNode.isCovered, uncovered, childless]
  rw [cover_run, if_neg allowed, found]
  dsimp only
  rw [if_neg isOpen, noneMissing]

/-- Covering a node by live ones either is refused, and changes nothing, or succeeds, at an
uncovered node without children. -/
theorem outcome_cover {id : Nat} {node : GraphNode σ α} {coverers : List Nat}
    {returns : Unit → ReachabilityGraph σ α → Prop}
    {fails : EngineError → ReachabilityGraph σ α → Prop} (found : graph.node? id = some node)
    (live : ∀ coverer ∈ coverers, ∃ other, graph.node? coverer = some other)
    (holds : node.coveredBy = [] → node.children = [] → coverers ≠ [] → id ∉ coverers →
      returns () (graph.withCover id coverers))
    (refused : ∀ error, fails error graph) :
    (cover id coverers).Outcome graph returns fails := by
  unfold cover
  split
  case isTrue => exact refused _
  case isFalse allowed =>
    rw [outcome_bind, outcome_getNode]
    refine ⟨fun other foundOther => ?_, fun error _ => refused error⟩
    obtain rfl : node = other := Option.some.inj (found.symm.trans foundOther)
    split
    case isTrue => exact refused _
    case isFalse isOpen =>
      simp only [GraphNode.isCovered, Bool.or_eq_true, Bool.not_eq_true', not_or,
        Bool.not_eq_false, List.isEmpty_iff] at isOpen
      simp only [Bool.or_eq_true, List.isEmpty_iff, List.contains_iff_mem, not_or] at allowed
      rw [outcome_bind]
      apply outcome_forM_updateNode live
      rw [outcome_updateNode]
      refine ⟨fun _ _ => holds isOpen.1 isOpen.2 allowed.1 allowed.2, fun error missing => ?_⟩
      obtain ⟨other, foundOther⟩ := exists_node?_foldl_modifyNode coverers ⟨node, found⟩
      exact absurd missing (lookup_ne_error foundOther)

/-- Covering a node succeeds only at an uncovered node without children. -/
theorem ensures_cover {id : Nat} {coverers : List Nat}
    {returns : Unit → ReachabilityGraph σ α → Prop}
    (holds : ∀ node, graph.node? id = some node → node.coveredBy = [] →
      node.children = [] → coverers ≠ [] → id ∉ coverers →
      returns () (graph.withCover id coverers)) :
    (cover id coverers).Ensures graph returns := by
  unfold cover
  split
  case isTrue refused => trivial
  case isFalse allowed =>
    simp only [ensures_bind, ensures_getNode]
    intro node found
    split
    case isTrue closed => trivial
    case isFalse isOpen =>
      simp only [ensures_bind]
      apply ensures_forM_updateNode
      simp only [ensures_updateNode]
      intro _ _
      simp only [GraphNode.isCovered, Bool.or_eq_true, Bool.not_eq_true', not_or,
        Bool.not_eq_false, List.isEmpty_iff] at isOpen
      simp only [Bool.or_eq_true, List.isEmpty_iff, List.contains_iff_mem, not_or] at allowed
      exact holds node found isOpen.1 isOpen.2 allowed.1 allowed.2

end ReachabilityGraph

end AbstractionRefinement
