import AbstractionRefinement.Proofs.CoverageLinks
import AbstractionRefinement.Proofs.OrderedCollectionLaws

/-!
# The forest of a reachability graph

The nodes of a graph form a forest: parents are older than their children, and the lists of
the initial nodes, of the children of a node and of the nodes with a key hold the numbers of
exactly the live nodes that belong there, in the order of their creation.  Coverage and the
marks of expansion are no part of the forest, so it changes only where nodes are added or
removed.
-/

namespace AbstractionRefinement

namespace GraphNode

variable {σ α : Type}

def bare (node : GraphNode σ α) : GraphNode σ α :=
  { node with expanded := false, coveredBy := [], covers := [] }

/-- The nodes agree apart from their coverage and their marks of expansion. -/
structure Resembles (first second : GraphNode σ α) : Prop where
  id_eq : first.id = second.id
  state_eq : first.state = second.state
  origin_eq : first.origin = second.origin
  children_eq : first.children = second.children
  target_eq : first.target = second.target
  depth_eq : first.depth = second.depth
  key_eq : first.key = second.key
  version_eq : first.version = second.version

theorem resembles_of_bare_eq {first second : GraphNode σ α} (same : first.bare = second.bare) :
    first.Resembles second := by
  obtain ⟨id, state, origin, children, target, depth, key, version⟩ :
      first.id = second.id ∧ first.state = second.state ∧ first.origin = second.origin ∧
        first.children = second.children ∧ first.target = second.target ∧
        first.depth = second.depth ∧ first.key = second.key ∧ first.version = second.version := by
    simpa [bare] using same
  exact ⟨id, state, origin, children, target, depth, key, version⟩

theorem Resembles.parent_eq {first second : GraphNode σ α} (resembles : first.Resembles second) :
    first.parent = second.parent :=
  congrArg (Option.map Prod.fst) resembles.origin_eq

end GraphNode

namespace ReachabilityGraph

variable {σ α : Type} {graph after : ReachabilityGraph σ α}

def bare (graph : ReachabilityGraph σ α) : ReachabilityGraph σ α :=
  { graph with nodes := graph.nodes.map (Option.map GraphNode.bare), initialized := false }

theorem node?_bare (graph : ReachabilityGraph σ α) (id : Nat) :
    graph.bare.node? id = (graph.node? id).map GraphNode.bare := by
  simp only [node?, bare, Array.getElem?_map]
  rcases graph.nodes[id]? with _ | _ | node <;> rfl

theorem bare_modifyNode (graph : ReachabilityGraph σ α) (id : Nat)
    {change : GraphNode σ α → GraphNode σ α} (keeps : ∀ node, (change node).bare = node.bare) :
    (graph.modifyNode id change).bare = graph.bare := by
  have nodes_eq : (graph.nodes.modify id (Option.map change)).map (Option.map GraphNode.bare) =
      graph.nodes.map (Option.map GraphNode.bare) := by
    refine Array.ext_getElem? fun position => ?_
    rw [Array.getElem?_map, Array.getElem?_map, Array.getElem?_modify]
    split
    · rcases graph.nodes[position]? with _ | _ | node <;> simp [keeps]
    · rfl
  unfold bare modifyNode
  rw [nodes_eq]

theorem bare_foldl_modifyNode (ids : List Nat) (graph : ReachabilityGraph σ α)
    {change : GraphNode σ α → GraphNode σ α} (keeps : ∀ node, (change node).bare = node.bare) :
    (ids.foldl (fun graph id => graph.modifyNode id change) graph).bare = graph.bare :=
  view_foldl bare (fun graph id => bare_modifyNode graph id keeps) ids graph

theorem bare_dropCover (graph : ReachabilityGraph σ α) (node : GraphNode σ α) :
    (graph.dropCover node).bare = graph.bare := by
  rw [dropCover, bare_foldl_modifyNode, bare_modifyNode] <;> exact fun _ => rfl

theorem bare_detach (removed : List Nat) (graph : ReachabilityGraph σ α) (id : Nat) :
    (graph.detach removed id).bare = graph.bare := by
  rw [detach_eq]
  cases graph.node? id with
  | none => rfl
  | some node =>
      dsimp only
      rw [forgetAt, bare_foldl_modifyNode]
      · refine view_foldl bare (fun graph covered => ?_) _ _
        split
        · rfl
        · split
          · exact bare_dropCover ..
          · rfl
      · exact fun _ => rfl

theorem bare_withCover (graph : ReachabilityGraph σ α) (id : Nat) (coverers : List Nat) :
    (graph.withCover id coverers).bare = graph.bare := by
  rw [withCover, bare_modifyNode, bare_foldl_modifyNode] <;> exact fun _ => rfl

theorem exists_of_bare_eq (same : after.bare = graph.bare) {id : Nat} {node : GraphNode σ α}
    (found : graph.node? id = some node) :
    ∃ other, after.node? id = some other ∧ other.Resembles node := by
  have view : (after.node? id).map GraphNode.bare = some node.bare := by
    rw [← node?_bare, same, node?_bare, found, Option.map_some]
  obtain ⟨other, foundOther, other_eq⟩ := Option.map_eq_some_iff.mp view
  exact ⟨other, foundOther, GraphNode.resembles_of_bare_eq other_eq⟩

theorem live_eq (graph : ReachabilityGraph σ α) :
    graph.live = (List.range graph.nodes.size).filterMap graph.node? := by
  have slots : graph.nodes.toList =
      (List.range graph.nodes.size).filterMap fun id => graph.nodes[id]? := by
    rw [← Array.length_toList]
    simp only [← Array.getElem?_toList]
    induction graph.nodes.toList using List.reverseRecOn with
    | nil => rfl
    | append_singleton slots last ih =>
        rw [List.length_append, List.length_singleton, List.range_succ, List.filterMap_append]
        refine congrArg₂ _ (ih.trans (List.filterMap_congr fun id inside => ?_)) (by simp)
        rw [List.getElem?_append_left (List.mem_range.mp inside)]
  rw [live, slots, List.filterMap_filterMap]
  rfl

/-- The numbers are those of the live nodes with a property, in creation order. -/
structure Lists (graph : ReachabilityGraph σ α) (ids : List Nat)
    (holds : GraphNode σ α → Prop) : Prop where
  sorted : ids.Pairwise (· < ·)
  mem_iff {id : Nat} : id ∈ ids ↔ ∃ node, graph.node? id = some node ∧ holds node

namespace Lists

variable {ids : List Nat} {holds : GraphNode σ α → Prop}

theorem nil (none : ∀ id node, graph.node? id = some node → ¬ holds node) :
    graph.Lists [] holds where
  sorted := .nil
  mem_iff := by
    refine ⟨fun listed => absurd listed List.not_mem_nil, ?_⟩
    rintro ⟨node, found, has⟩
    exact absurd has (none _ node found)

theorem congr (lists : graph.Lists ids holds)
    (same : ∀ id, (∃ node, after.node? id = some node ∧ holds node) ↔
      ∃ node, graph.node? id = some node ∧ holds node) : after.Lists ids holds :=
  ⟨lists.sorted, lists.mem_iff.trans (same _).symm⟩

/-- A new node comes last if it has the property. -/
theorem concat (lists : graph.Lists ids holds) {new : GraphNode σ α} (has : holds new)
    (view : ∀ id, after.node? id = if id = graph.nodes.size then some new else graph.node? id) :
    after.Lists (ids ++ [graph.nodes.size]) holds where
  sorted := by
    refine List.pairwise_append.mpr ⟨lists.sorted, List.pairwise_singleton .., ?_⟩
    intro id member last isLast
    obtain ⟨node, found, -⟩ := lists.mem_iff.mp member
    rw [List.mem_singleton.mp isLast]
    exact node?_eq_some_lt found
  mem_iff {id} := by
    rw [List.mem_append, List.mem_singleton, lists.mem_iff, view]
    split
    case isTrue isNew => exact ⟨fun _ => ⟨new, rfl, has⟩, fun _ => .inr isNew⟩
    case isFalse old => simp only [old, or_false]

theorem skip (lists : graph.Lists ids holds) {new : GraphNode σ α} (lacks : ¬ holds new)
    (view : ∀ id, after.node? id = if id = graph.nodes.size then some new else graph.node? id) :
    after.Lists ids holds := by
  refine lists.congr fun id => ?_
  rw [view]
  split
  case isFalse => rfl
  case isTrue isNew =>
    constructor
    · rintro ⟨node, isNode, has⟩
      exact absurd (Option.some.inj isNode ▸ has) lacks
    · rintro ⟨node, found, -⟩
      exact absurd isNew (Nat.ne_of_lt (node?_eq_some_lt found))

theorem modifyNode (lists : graph.Lists ids holds) (id : Nat)
    {change : GraphNode σ α → GraphNode σ α} (keeps : ∀ node, holds (change node) ↔ holds node) :
    (graph.modifyNode id change).Lists ids holds := by
  refine lists.congr fun other => ?_
  rw [node?_modifyNode]
  split
  · cases graph.node? other <;> simp [keeps]
  · rfl

theorem filter (lists : graph.Lists ids holds) {removed : List Nat}
    (view : ∀ id, (∃ node, after.node? id = some node ∧ holds node) ↔
      id ∉ removed ∧ ∃ node, graph.node? id = some node ∧ holds node) :
    after.Lists (ids.filter fun id => !removed.contains id) holds where
  sorted := lists.sorted.sublist List.filter_sublist
  mem_iff {id} := by
    rw [List.mem_filter, lists.mem_iff, view, and_comm]
    simp

theorem of_bare (lists : graph.Lists ids holds) (same : after.bare = graph.bare)
    (keeps : ∀ ⦃first second : GraphNode σ α⦄, first.Resembles second → holds second →
      holds first) : after.Lists ids holds := by
  refine lists.congr fun id => ⟨?_, ?_⟩
  · rintro ⟨node, found, has⟩
    obtain ⟨other, foundOther, resembles⟩ := exists_of_bare_eq same.symm found
    exact ⟨other, foundOther, keeps resembles has⟩
  · rintro ⟨node, found, has⟩
    obtain ⟨other, foundOther, resembles⟩ := exists_of_bare_eq same found
    exact ⟨other, foundOther, keeps resembles has⟩

/-- The listed nodes are the live ones with the property, in creation order. -/
theorem filterMap_eq [DecidablePred holds] (lists : graph.Lists ids holds) :
    ids.filterMap graph.node? = graph.live.filter fun node => holds node := by
  have ids_eq : ids = (List.range graph.nodes.size).filter
      fun id => (graph.node? id).any fun node => holds node := by
    refine lists.sorted.eq_of_mem_iff (List.pairwise_lt_range.filter _) fun id => ?_
    rw [lists.mem_iff, List.mem_filter, List.mem_range]
    simp only [Option.any_eq_true, decide_eq_true_eq, iff_and_self]
    rintro ⟨node, found, -⟩
    exact node?_eq_some_lt found
  rw [ids_eq, live_eq, List.filterMap_filter, List.filter_filterMap]
  refine List.filterMap_congr fun id _ => ?_
  cases graph.node? id with
  | none => rfl
  | some node => by_cases has : holds node <;> simp [Option.filter, has]

theorem eq_map_filter [DecidablePred holds] (lists : graph.Lists ids holds)
    (numbered : graph.Numbered) :
    ids = (graph.live.filter fun node => holds node).map GraphNode.id := by
  have same : (ids.filterMap graph.node?).map GraphNode.id = ids.map fun id => id := by
    rw [List.map_filterMap]
    refine List.filterMap_eq_map_iff_forall_eq_some.mpr fun id member => ?_
    obtain ⟨node, found, -⟩ := lists.mem_iff.mp member
    rw [found, Option.map_some, numbered found]
  rw [← lists.filterMap_eq, same, List.map_id']

end Lists

/-- The nodes form a forest, and the lists of the graph are those of its live nodes. -/
structure Forest (graph : ReachabilityGraph σ α) : Prop where
  id_eq {id : Nat} {node : GraphNode σ α} : graph.node? id = some node → node.id = id
  roots : graph.Lists graph.initial fun node => node.parent = none
  keyed (key : Nat) : graph.Lists (graph.numbersWithKey key) fun node => node.key = key
  children {id : Nat} {node : GraphNode σ α} : graph.node? id = some node →
    graph.Lists node.children fun child => child.parent = some id
  root_depth {id : Nat} {node : GraphNode σ α} : graph.node? id = some node →
    node.parent = none → node.depth = 0
  parent_live {id parent : Nat} {node : GraphNode σ α} : graph.node? id = some node →
    node.parent = some parent → parent < id ∧ ∃ other,
      graph.node? parent = some other ∧ other.depth + 1 = node.depth

theorem numbersWithKey_append (graph : ReachabilityGraph σ α) (data : NodeData σ)
    (origin : Option (Nat × α)) (depth key : Nat) :
    (graph.append data origin depth).numbersWithKey key =
      if key = data.key then graph.numbersWithKey key ++ [graph.nodes.size]
      else graph.numbersWithKey key := by
  simp only [numbersWithKey, append, OrderedMap.find?_insert]
  split
  case isTrue same => rw [same, Option.getD_some]
  case isFalse => rfl

theorem bare_initializedAs (graph : ReachabilityGraph σ α) (flag : Bool) :
    ReachabilityGraph.bare { graph with initialized := flag } = graph.bare :=
  rfl

theorem forest_of_no_nodes (noNodes : ∀ id, graph.node? id = none) (noRoots : graph.initial = [])
    (noKeys : graph.byKey = []) : graph.Forest where
  id_eq := by simp [noNodes]
  roots := noRoots ▸ .nil (by simp [noNodes])
  keyed key := by
    rw [show graph.numbersWithKey key = [] by simp [numbersWithKey, noKeys, OrderedMap.find?]]
    exact .nil (by simp [noNodes])
  children := by simp [noNodes]
  root_depth := by simp [noNodes]
  parent_live := by simp [noNodes]

theorem forest_empty : (empty : ReachabilityGraph σ α).Forest :=
  forest_of_no_nodes (by simp) rfl rfl

theorem forest_pruneAll (graph : ReachabilityGraph σ α) : graph.pruneAll.Forest :=
  forest_of_no_nodes (by simp) rfl rfl

namespace Forest

/-- Coverage and marks do not matter. -/
theorem of_bare (forest : graph.Forest) (same : after.bare = graph.bare) : after.Forest where
  id_eq found := by
    obtain ⟨before, foundBefore, resembles⟩ := exists_of_bare_eq same.symm found
    exact resembles.id_eq.symm.trans (forest.id_eq foundBefore)
  roots := by
    have initial_eq : after.bare.initial = graph.bare.initial := congrArg initial same
    rw [show after.initial = graph.initial from initial_eq]
    exact forest.roots.of_bare same fun _ _ resembles => resembles.parent_eq.trans
  keyed key := by
    have numbers_eq : after.bare.numbersWithKey key = graph.bare.numbersWithKey key :=
      congrArg (numbersWithKey · key) same
    rw [show after.numbersWithKey key = graph.numbersWithKey key from numbers_eq]
    exact (forest.keyed key).of_bare same fun _ _ resembles => resembles.key_eq.trans
  children found := by
    obtain ⟨before, foundBefore, resembles⟩ := exists_of_bare_eq same.symm found
    rw [← resembles.children_eq]
    exact (forest.children foundBefore).of_bare same fun _ _ resembles => resembles.parent_eq.trans
  root_depth found isRoot := by
    obtain ⟨before, foundBefore, resembles⟩ := exists_of_bare_eq same.symm found
    rw [← resembles.depth_eq]
    exact forest.root_depth foundBefore (resembles.parent_eq.trans isRoot)
  parent_live found parent_eq := by
    obtain ⟨before, foundBefore, resembles⟩ := exists_of_bare_eq same.symm found
    obtain ⟨older, parent, foundParent, depth⟩ :=
      forest.parent_live foundBefore (resembles.parent_eq.trans parent_eq)
    obtain ⟨last, foundLast, resemblesLast⟩ := exists_of_bare_eq same foundParent
    exact ⟨older, last, foundLast, by rw [resemblesLast.depth_eq, depth, resembles.depth_eq]⟩

theorem root (forest : graph.Forest) {id : Nat} {node : GraphNode σ α}
    (found : graph.node? id = some node) (isRoot : node.origin = none) : id ∈ graph.initial :=
  forest.roots.mem_iff.mpr ⟨node, found, Option.map_eq_none_iff.mpr isRoot⟩

theorem above (forest : graph.Forest) {id source : Nat} {node : GraphNode σ α} {action : α}
    (found : graph.node? id = some node) (origin : node.origin = some (source, action)) :
    source < id ∧ ∃ parent, graph.node? source = some parent ∧ id ∈ parent.children ∧
      parent.depth + 1 = node.depth := by
  have parent_eq : node.parent = some source := by rw [GraphNode.parent, origin, Option.map_some]
  obtain ⟨older, parent, foundParent, depth⟩ := forest.parent_live found parent_eq
  exact ⟨older, parent, foundParent,
    (forest.children foundParent).mem_iff.mpr ⟨node, found, parent_eq⟩, depth⟩

theorem child_live (forest : graph.Forest) {id child : Nat} {node : GraphNode σ α}
    (found : graph.node? id = some node) (isChild : child ∈ node.children) :
    ∃ other, graph.node? child = some other ∧ other.parent = some id :=
  (forest.children found).mem_iff.mp isChild

theorem lt_of_mem_children (forest : graph.Forest) {id child : Nat} {node : GraphNode σ α}
    (found : graph.node? id = some node) (isChild : child ∈ node.children) : id < child := by
  obtain ⟨other, foundChild, parent_eq⟩ := forest.child_live found isChild
  exact (forest.parent_live foundChild parent_eq).1

theorem parent_created (id : Nat) (data : NodeData σ) (origin : Option (Nat × α)) (depth : Nat) :
    (GraphNode.created id data origin depth).parent = origin.map Prod.fst :=
  rfl

theorem keyed_append (forest : graph.Forest) (data : NodeData σ) (origin : Option (Nat × α))
    (depth key : Nat) : (graph.append data origin depth).Lists
      ((graph.append data origin depth).numbersWithKey key) fun node => node.key = key := by
  have view := node?_append graph data origin depth
  rw [numbersWithKey_append]
  split
  case isTrue same => exact (forest.keyed key).concat same.symm view
  case isFalse differs => exact (forest.keyed key).skip (Ne.symm differs) view

theorem parent_ne_size (forest : graph.Forest) {id : Nat} {node : GraphNode σ α}
    (found : graph.node? id = some node) : node.parent ≠ some graph.nodes.size := by
  intro parent_eq
  obtain ⟨-, parent, foundParent, -⟩ := forest.parent_live found parent_eq
  exact Nat.lt_irrefl _ (node?_eq_some_lt foundParent)

theorem addInitial (forest : graph.Forest) (data : NodeData σ) :
    (graph.addInitial data).Forest := by
  have view := node?_addInitial graph data
  refine ⟨?_, forest.roots.concat rfl view, fun key => ?_, ?_, ?_, ?_⟩
  · have := @forest.id_eq
    grind [GraphNode.created]
  · exact (forest.keyed_append data none 0 key).congr fun _ => Iff.rfl
  · intro id node found
    rw [view] at found
    split at found
    case isTrue isNew =>
      cases found
      refine .nil fun other child foundChild => ?_
      rw [view] at foundChild
      split at foundChild
      · cases foundChild
        simp [parent_created]
      · exact isNew ▸ forest.parent_ne_size foundChild
    case isFalse => exact (forest.children found).skip (by simp [parent_created]) view
  · have := @forest.root_depth
    grind [GraphNode.created]
  · intro id parent node found parent_eq
    rw [view] at found
    split at found
    case isTrue =>
      cases found
      cases parent_eq
    case isFalse =>
      obtain ⟨older, other, foundParent, depth⟩ := forest.parent_live found parent_eq
      refine ⟨older, other, ?_, depth⟩
      rw [view, if_neg (Nat.ne_of_lt (node?_eq_some_lt foundParent)), foundParent]

theorem withSuccessor (forest : graph.Forest) {parent : Nat} {node : GraphNode σ α}
    (found : graph.node? parent = some node) (action : α) (data : NodeData σ) :
    (graph.withSuccessor parent action data (node.depth + 1)).Forest := by
  have view := node?_withSuccessor found action data (node.depth + 1)
  have appended := node?_append graph data (some (parent, action)) (node.depth + 1)
  have inside := node?_eq_some_lt found
  refine ⟨?_, ?_, fun key => ?_, ?_, ?_, ?_⟩
  · have := @forest.id_eq
    grind [GraphNode.created]
  · exact (forest.roots.skip (by simp [parent_created]) appended).modifyNode parent
      fun _ => Iff.rfl
  · exact (forest.keyed_append data _ _ key).modifyNode parent fun _ => Iff.rfl
  · intro id other foundOther
    have lacks (differs : id ≠ parent) : ¬ (GraphNode.created graph.nodes.size data
        (some (parent, action)) (node.depth + 1)).parent = some id := by
      rw [parent_created, Option.map_some, Option.some.injEq]
      exact differs.symm
    refine Lists.modifyNode ?_ parent fun _ => Iff.rfl
    rw [view] at foundOther
    split at foundOther
    case isTrue isParent =>
      cases foundOther
      exact (forest.children (isParent ▸ found)).concat (by rw [isParent]; rfl) appended
    case isFalse notParent =>
      split at foundOther
      case isTrue isNew =>
        cases foundOther
        refine .nil fun last child foundChild => ?_
        rw [appended] at foundChild
        split at foundChild
        · cases foundChild
          exact lacks notParent
        · exact isNew ▸ forest.parent_ne_size foundChild
      case isFalse =>
        exact (forest.children foundOther).skip (lacks notParent) appended
  · have := @forest.root_depth
    grind [GraphNode.created, GraphNode.parent]
  · intro id source other foundOther parent_eq
    have := @forest.parent_live id source
    have bound : ∀ id other, graph.node? id = some other → id < graph.nodes.size :=
      fun _ _ => node?_eq_some_lt
    rw [view] at foundOther
    grind [GraphNode.created, GraphNode.parent]

end Forest

end ReachabilityGraph

end AbstractionRefinement
