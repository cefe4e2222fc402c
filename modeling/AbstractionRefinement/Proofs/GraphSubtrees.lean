import AbstractionRefinement.Proofs.GraphForests

/-!
# Subtrees of a reachability graph

A node is below a root if the walk up from it meets the root.  The descendants of unrelated
roots are the nodes below them, each listed once.  Pruning cuts off what is below the children
of a node: what is left is a forest again, and the lists of the graph lose exactly the nodes
that are cut off.
-/

namespace AbstractionRefinement

namespace ReachabilityGraph

open AbstractionRefinement.Computation

variable {σ α : Type} {graph after : ReachabilityGraph σ α} {root parent id : Nat}

/-- The node is live, and the root is it or one of its ancestors. -/
inductive Below (graph : ReachabilityGraph σ α) (root : Nat) : Nat → Prop where
  | root {node : GraphNode σ α} (found : graph.node? root = some node) : graph.Below root root
  | child {parent id : Nat} {node : GraphNode σ α} (above : graph.Below root parent)
      (found : graph.node? id = some node) (parent_eq : node.parent = some parent) :
      graph.Below root id

namespace Below

theorem root_live (below : graph.Below root id) : ∃ node, graph.node? root = some node := by
  induction below with
  | root found => exact ⟨_, found⟩
  | child _ _ _ ih => exact ih

theorem trans {other : Nat} (upper : graph.Below root id) (lower : graph.Below id other) :
    graph.Below root other := by
  induction lower with
  | root _ => exact upper
  | child _ found parent_eq ih => exact ih.child found parent_eq

theorem total {other : Nat} (below : graph.Below root id) (below' : graph.Below other id) :
    graph.Below root other ∨ graph.Below other root := by
  induction below with
  | root _ => exact .inr below'
  | child above found parent_eq ih =>
      cases below' with
      | root _ => exact .inl (above.child found parent_eq)
      | child above' found' parent_eq' =>
          obtain rfl := Option.some.inj (found.symm.trans found')
          obtain rfl := Option.some.inj (parent_eq.symm.trans parent_eq')
          exact ih above'

end Below

namespace Forest

theorem le_of_below (forest : graph.Forest) (below : graph.Below root id) : root ≤ id := by
  induction below with
  | root _ => exact Nat.le_refl _
  | child _ found parent_eq ih =>
      exact Nat.le_of_lt (Nat.lt_of_le_of_lt ih (forest.parent_live found parent_eq).1)

/-- What is below a node is the node or below one of its children. -/
theorem below_iff (forest : graph.Forest) {node : GraphNode σ α}
    (found : graph.node? root = some node) :
    graph.Below root id ↔ id = root ∨ ∃ child ∈ node.children, graph.Below child id := by
  constructor
  · intro below
    induction below with
    | root _ => exact .inl rfl
    | child _ foundChild parent_eq ih =>
        right
        rcases ih with rfl | ⟨child, isChild, above⟩
        · exact ⟨_, (forest.children found).mem_iff.mpr ⟨_, foundChild, parent_eq⟩,
            .root foundChild⟩
        · exact ⟨child, isChild, above.child foundChild parent_eq⟩
  · rintro (rfl | ⟨child, isChild, below⟩)
    · exact .root found
    · obtain ⟨other, foundChild, parent_eq⟩ := forest.child_live found isChild
      exact ((Below.root found).child foundChild parent_eq).trans below

theorem mem_subtreeWithin_iff (forest : graph.Forest) {fuel : Nat}
    (enough : graph.nodes.size ≤ fuel + root) :
    id ∈ graph.subtreeWithin fuel root ↔ graph.Below root id := by
  induction fuel generalizing root with
  | zero =>
      refine ⟨fun listed => absurd listed List.not_mem_nil, fun below => ?_⟩
      obtain ⟨node, found⟩ := below.root_live
      have inside := node?_eq_some_lt found
      omega
  | succ fuel ih =>
      cases found : graph.node? root with
      | none =>
          rw [subtreeWithin, found]
          refine ⟨fun listed => absurd listed List.not_mem_nil, fun below => ?_⟩
          obtain ⟨node, found'⟩ := below.root_live
          cases found.symm.trans found'
      | some node =>
          rw [subtreeWithin, found, List.mem_cons, List.mem_flatMap, forest.below_iff found]
          refine or_congr_right (exists_congr fun child => ?_)
          rw [List.mem_reverse]
          refine and_congr_right fun isChild => ih ?_
          have older := forest.lt_of_mem_children found isChild
          omega

theorem mem_descendants_iff (forest : graph.Forest) {roots : List Nat} :
    id ∈ graph.descendants roots ↔ ∃ root ∈ roots, graph.Below root id := by
  simp only [descendants, List.mem_flatMap, List.mem_reverse,
    forest.mem_subtreeWithin_iff (Nat.le_add_right _ _)]

theorem disjoint_subtrees (forest : graph.Forest) {first second : Nat}
    (unrelated : ¬ graph.Below first second ∧ ¬ graph.Below second first) {fuel : Nat}
    (enough : graph.nodes.size ≤ fuel + first) (enough' : graph.nodes.size ≤ fuel + second) :
    List.Disjoint (graph.subtreeWithin fuel first) (graph.subtreeWithin fuel second) := by
  intro id below below'
  rcases ((forest.mem_subtreeWithin_iff enough).mp below).total
    ((forest.mem_subtreeWithin_iff enough').mp below') with related | related
  · exact unrelated.1 related
  · exact unrelated.2 related

theorem not_below_sibling (forest : graph.Forest) {node : GraphNode σ α}
    (found : graph.node? parent = some node) {first second : Nat} (isChild : first ∈ node.children)
    (isChild' : second ∈ node.children) (differ : first ≠ second) :
    ¬ graph.Below first second := by
  intro below
  cases below with
  | root _ => exact differ rfl
  | child above found' parent_eq' =>
      obtain ⟨other, foundOther, parent_eq⟩ := forest.child_live found isChild'
      obtain rfl := Option.some.inj (found'.symm.trans foundOther)
      obtain rfl := Option.some.inj (parent_eq'.symm.trans parent_eq)
      exact Nat.lt_irrefl _ (Nat.lt_of_lt_of_le (forest.lt_of_mem_children found isChild)
        (forest.le_of_below above))

theorem nodup_subtreeWithin (forest : graph.Forest) {fuel : Nat}
    (enough : graph.nodes.size ≤ fuel + root) : (graph.subtreeWithin fuel root).Nodup := by
  induction fuel generalizing root with
  | zero => exact .nil
  | succ fuel ih =>
      cases found : graph.node? root with
      | none =>
          rw [subtreeWithin, found]
          exact .nil
      | some node =>
          have enoughChild (child : Nat) (isChild : child ∈ node.children) :
              graph.nodes.size ≤ fuel + child := by
            have older := forest.lt_of_mem_children found isChild
            omega
          rw [subtreeWithin, found]
          refine List.nodup_cons.mpr ⟨fun member => ?_, List.nodup_flatMap.mpr ⟨?_, ?_⟩⟩
          · -- The root is older than everything below its children.
            obtain ⟨child, isChild, below⟩ := List.mem_flatMap.mp member
            rw [List.mem_reverse] at isChild
            have older := forest.lt_of_mem_children found isChild
            have older' := forest.le_of_below
              ((forest.mem_subtreeWithin_iff (enoughChild child isChild)).mp below)
            omega
          · exact fun child isChild => ih (enoughChild child (List.mem_reverse.mp isChild))
          · refine List.pairwise_reverse.mpr ((forest.children found).sorted.imp_of_mem ?_)
            intro first second isChild isChild' older
            refine forest.disjoint_subtrees ⟨?_, ?_⟩ (enoughChild _ isChild')
              (enoughChild _ isChild)
            · exact forest.not_below_sibling found isChild' isChild (Nat.ne_of_gt older)
            · exact forest.not_below_sibling found isChild isChild' (Nat.ne_of_lt older)

theorem nodup_descendants (forest : graph.Forest) {roots : List Nat}
    (unrelated : roots.Pairwise fun first second =>
      ¬ graph.Below first second ∧ ¬ graph.Below second first) :
    (graph.descendants roots).Nodup := by
  refine List.nodup_flatMap.mpr ⟨fun _ _ => forest.nodup_subtreeWithin (Nat.le_add_right _ _), ?_⟩
  refine List.pairwise_reverse.mpr (unrelated.imp fun unrelated => ?_)
  exact forest.disjoint_subtrees unrelated.symm (Nat.le_add_right _ _) (Nat.le_add_right _ _)

end Forest

/-- The graph without some nodes, where coverage is left alone. -/
def without (graph : ReachabilityGraph σ α) (removed : List Nat) : ReachabilityGraph σ α :=
  { graph with
    nodes := removed.foldl (fun nodes id => nodes.modify id fun _ => none) graph.nodes
    initial := graph.initial.filter fun id => !removed.contains id
    byKey := removed.foldl graph.unlist graph.byKey }

theorem node?_without (graph : ReachabilityGraph σ α) (removed : List Nat) (id : Nat) :
    (graph.without removed).node? id = if id ∈ removed then none else graph.node? id :=
  node?_clear removed graph id

theorem unlist_bare (graph : ReachabilityGraph σ α) : graph.bare.unlist = graph.unlist := by
  funext byKey id
  simp only [unlist, node?_bare]
  cases graph.node? id <;> rfl

theorem bare_without (graph : ReachabilityGraph σ α) (removed : List Nat) :
    (graph.without removed).bare = (graph.bare.without removed) := by
  have nodes_eq (nodes : Array (Option (GraphNode σ α))) :
      (removed.foldl (fun nodes id => nodes.modify id fun _ => none) nodes).map
          (Option.map GraphNode.bare) =
        removed.foldl (fun nodes id => nodes.modify id fun _ => none)
          (nodes.map (Option.map GraphNode.bare)) := by
    induction removed generalizing nodes with
    | nil => rfl
    | cons id removed ih =>
        rw [List.foldl_cons, List.foldl_cons, ih]
        congr 1
        refine Array.ext_getElem? fun position => ?_
        rw [Array.getElem?_map, Array.getElem?_modify, Array.getElem?_modify, Array.getElem?_map]
        split <;> cases nodes[position]? <;> rfl
  unfold without bare
  dsimp only
  rw [nodes_eq, ← unlist_bare]
  rfl

theorem bare_remove (graph : ReachabilityGraph σ α) (removed : List Nat) :
    (graph.remove removed).bare = (graph.without removed).bare := by
  show ((removed.foldl (detach removed) graph).without removed).bare = _
  rw [bare_without, bare_without, view_foldl bare (bare_detach removed)]

/-- A node is struck off the numbers under its key. -/
theorem numbers_unlist {byKey : List (Nat × List Nat)} {key : Nat}
    (keyed : ∀ other ∈ (OrderedMap.find? key byKey).getD [],
      ∃ node, graph.node? other = some node ∧ node.key = key) (id : Nat) :
    (OrderedMap.find? key (graph.unlist byKey id)).getD [] =
      ((OrderedMap.find? key byKey).getD []).filter (· ≠ id) := by
  have unlisted (differs : ∀ node, graph.node? id = some node → node.key ≠ key) :
      ((OrderedMap.find? key byKey).getD []).filter (· ≠ id) =
        (OrderedMap.find? key byKey).getD [] := by
    refine List.filter_eq_self.mpr fun other member => decide_eq_true ?_
    rintro rfl
    obtain ⟨node, found, same⟩ := keyed other member
    exact differs node found same
  unfold unlist
  cases found : graph.node? id with
  | none => exact (unlisted (by simp [found])).symm
  | some node =>
      by_cases same : node.key = key
      · subst same
        cases listed : OrderedMap.find? node.key byKey with
        | none => simp [listed]
        | some numbers => simp [listed, OrderedMap.find?_insert]
      · rw [unlisted (by simpa [found] using same)]
        cases listed : OrderedMap.find? node.key byKey with
        | none => simp [listed]
        | some numbers => simp [listed, OrderedMap.find?_insert, Ne.symm same]

theorem numbersWithKey_without {key : Nat}
    (keyed : ∀ id ∈ graph.numbersWithKey key, ∃ node, graph.node? id = some node ∧ node.key = key)
    (removed : List Nat) : (graph.without removed).numbersWithKey key =
      (graph.numbersWithKey key).filter fun id => !removed.contains id := by
  suffices struck : ∀ byKey : List (Nat × List Nat), (∀ id ∈ (OrderedMap.find? key byKey).getD [],
      ∃ node, graph.node? id = some node ∧ node.key = key) →
      (OrderedMap.find? key (removed.foldl graph.unlist byKey)).getD [] =
        ((OrderedMap.find? key byKey).getD []).filter fun id => !removed.contains id from
    struck graph.byKey keyed
  induction removed with
  | nil => exact fun _ _ => (List.filter_eq_self.mpr fun _ _ => rfl).symm
  | cons id removed ih =>
      intro byKey keyed
      rw [List.foldl_cons, ih, numbers_unlist keyed, List.filter_filter]
      · refine List.filter_congr fun other _ => ?_
        by_cases same : other = id <;> simp [same]
      · rw [numbers_unlist keyed]
        exact fun other member => keyed other (List.mem_of_mem_filter member)

/-- The graph without what is below the children of a node, where coverage and marks are left
alone. -/
def cutBelow (graph : ReachabilityGraph σ α) (parent : Nat) (children : List Nat) :
    ReachabilityGraph σ α :=
  (graph.modifyNode parent fun node => { node with children := [] }).without
    (graph.descendants children)

theorem node?_cutBelow (graph : ReachabilityGraph σ α) (parent : Nat) (children : List Nat)
    (id : Nat) : (graph.cutBelow parent children).node? id =
      if id ∈ graph.descendants children then none
      else if id = parent then (graph.node? id).map fun node => { node with children := [] }
      else graph.node? id := by
  rw [cutBelow, node?_without, node?_modifyNode]

theorem size_cutBelow (graph : ReachabilityGraph σ α) (parent : Nat) (children : List Nat) :
    (graph.cutBelow parent children).nodes.size = graph.nodes.size := by
  rw [cutBelow, without, size_clear, size_modifyNode]

namespace Forest

variable {node : GraphNode σ α}

section Cutting

variable (forest : graph.Forest) (found : graph.node? parent = some node)
include forest found

/-- With the children of a node, exactly the children of what is cut off are cut off. -/
theorem mem_cut_iff {source : Nat} {other : GraphNode σ α}
    (foundOther : graph.node? id = some other) (parent_eq : other.parent = some source) :
    id ∈ graph.descendants node.children ↔
      source = parent ∨ source ∈ graph.descendants node.children := by
  rw [forest.mem_descendants_iff, forest.mem_descendants_iff]
  constructor
  · rintro ⟨child, isChild, below⟩
    cases below with
    | root _ =>
        obtain ⟨other', foundChild, parent_eq'⟩ := forest.child_live found isChild
        obtain rfl := Option.some.inj (foundOther.symm.trans foundChild)
        exact .inl (Option.some.inj (parent_eq.symm.trans parent_eq'))
    | child above found' parent_eq' =>
        obtain rfl := Option.some.inj (foundOther.symm.trans found')
        obtain rfl := Option.some.inj (parent_eq.symm.trans parent_eq')
        exact .inr ⟨child, isChild, above⟩
  · rintro (rfl | ⟨child, isChild, above⟩)
    · exact ⟨id, (forest.children found).mem_iff.mpr ⟨other, foundOther, parent_eq⟩,
        .root foundOther⟩
    · exact ⟨child, isChild, above.child foundOther parent_eq⟩

theorem root_not_mem_cut {other : GraphNode σ α} (foundOther : graph.node? id = some other)
    (isRoot : other.parent = none) : id ∉ graph.descendants node.children := by
  rw [forest.mem_descendants_iff]
  rintro ⟨child, isChild, below⟩
  cases below with
  | root _ =>
      obtain ⟨other', foundChild, parent_eq⟩ := forest.child_live found isChild
      obtain rfl := Option.some.inj (foundOther.symm.trans foundChild)
      cases isRoot.symm.trans parent_eq
  | child _ found' parent_eq =>
      obtain rfl := Option.some.inj (foundOther.symm.trans found')
      cases isRoot.symm.trans parent_eq

theorem lt_of_mem_cut (isCut : id ∈ graph.descendants node.children) : parent < id := by
  obtain ⟨child, isChild, below⟩ := forest.mem_descendants_iff.mp isCut
  exact Nat.lt_of_lt_of_le (forest.lt_of_mem_children found isChild) (forest.le_of_below below)

theorem cutBelow : (graph.cutBelow parent node.children).Forest := by
  have view := node?_cutBelow graph parent node.children
  have kept {id : Nat} {last : GraphNode σ α}
      (foundLast : (graph.cutBelow parent node.children).node? id = some last) :
      id ∉ graph.descendants node.children ∧ ∃ other, graph.node? id = some other ∧
        last = { other with children := if id = parent then [] else other.children } := by
    rw [view] at foundLast
    split at foundLast
    case isTrue => cases foundLast
    case isFalse outside =>
      refine ⟨outside, ?_⟩
      split at foundLast
      case isTrue isParent =>
        obtain ⟨other, foundOther, rfl⟩ := Option.map_eq_some_iff.mp foundLast
        exact ⟨other, foundOther, by rw [if_pos isParent]⟩
      case isFalse notParent => exact ⟨last, foundLast, by rw [if_neg notParent]⟩
  have stays {id : Nat} {other : GraphNode σ α} (foundOther : graph.node? id = some other)
      (outside : id ∉ graph.descendants node.children) :
      (graph.cutBelow parent node.children).node? id =
        some { other with children := if id = parent then [] else other.children } := by
    rw [view, if_neg outside, foundOther]
    split <;> rfl
  -- Properties that do not mention the children hold of the nodes that stay.
  have lists {holds : GraphNode σ α → Prop} (keeps : ∀ other : GraphNode σ α,
      ∀ children, holds { other with children } ↔ holds other) (id : Nat) :
      (∃ last, (graph.cutBelow parent node.children).node? id = some last ∧ holds last) ↔
        id ∉ graph.descendants node.children ∧ ∃ other, graph.node? id = some other ∧ holds other := by
    constructor
    · rintro ⟨last, foundLast, has⟩
      obtain ⟨outside, other, foundOther, rfl⟩ := kept foundLast
      exact ⟨outside, other, foundOther, (keeps other _).mp has⟩
    · rintro ⟨outside, other, foundOther, has⟩
      exact ⟨_, stays foundOther outside, (keeps other _).mpr has⟩
  refine ⟨?_, ?_, fun key => ?_, ?_, ?_, ?_⟩
  · intro id last foundLast
    obtain ⟨-, other, foundOther, rfl⟩ := kept foundLast
    have number : other.id = id := forest.id_eq foundOther
    exact number
  · exact forest.roots.filter (lists fun _ _ => Iff.rfl)
  · have emptied : (graph.modifyNode parent fun node => { node with children := [] }).Lists
        (graph.numbersWithKey key) fun node => node.key = key :=
      (forest.keyed key).modifyNode parent fun _ => Iff.rfl
    rw [ReachabilityGraph.cutBelow, numbersWithKey_without fun _ => emptied.mem_iff.mp]
    exact (forest.keyed key).filter (lists fun _ _ => Iff.rfl)
  · intro id last foundLast
    obtain ⟨outside, other, foundOther, rfl⟩ := kept foundLast
    have parents (child : Nat) : (∃ last, (graph.cutBelow parent node.children).node? child =
        some last ∧ last.parent = some id) ↔ child ∉ graph.descendants node.children ∧
          ∃ other, graph.node? child = some other ∧ other.parent = some id :=
      lists (fun _ _ => Iff.rfl) child
    dsimp only
    split
    case isTrue isParent =>
      refine .nil fun child childNode foundChild parent_eq => ?_
      obtain ⟨stays, before, foundBefore, same⟩ := (parents child).mp ⟨_, foundChild, parent_eq⟩
      exact stays ((forest.mem_cut_iff found foundBefore same).mpr (.inl isParent))
    case isFalse notParent =>
      refine (forest.children foundOther).congr fun child => (parents child).trans ?_
      refine and_iff_right_of_imp ?_
      rintro ⟨before, foundBefore, same⟩ isCut
      rcases (forest.mem_cut_iff found foundBefore same).mp isCut with isParent | isCut
      · exact notParent isParent
      · exact outside isCut
  · intro id last foundLast isRoot
    obtain ⟨-, other, foundOther, rfl⟩ := kept foundLast
    have depth : other.depth = 0 := forest.root_depth foundOther isRoot
    exact depth
  · intro id source last foundLast parent_eq
    obtain ⟨outside, other, foundOther, rfl⟩ := kept foundLast
    obtain ⟨older, sourceNode, foundSource, depth⟩ := forest.parent_live foundOther parent_eq
    have sourceStays : source ∉ graph.descendants node.children := fun isCut =>
      outside ((forest.mem_cut_iff found foundOther parent_eq).mpr (.inr isCut))
    exact ⟨older, _, stays foundSource sourceStays, depth⟩

/-- Pruning finds what is below the children, although it forgets them first. -/
theorem below_eq : graph.below parent node.children = graph.descendants node.children := by
  have same (fuel root : Nat) (younger : parent < root) :
      (graph.modifyNode parent fun node => { node with children := [] }).subtreeWithin fuel root =
        graph.subtreeWithin fuel root := by
    induction fuel generalizing root with
    | zero => rfl
    | succ fuel ih =>
        rw [subtreeWithin, subtreeWithin, node?_modifyNode, if_neg (Nat.ne_of_gt younger)]
        cases foundRoot : graph.node? root with
        | none => rfl
        | some rootNode =>
            dsimp only
            refine congrArg (root :: ·) (List.flatMap_congr fun child isChild => ih child ?_)
            have older := forest.lt_of_mem_children foundRoot (List.mem_reverse.mp isChild)
            exact Nat.lt_trans younger older
  unfold below descendants
  rw [size_modifyNode]
  refine List.flatMap_congr fun child isChild => same _ child ?_
  exact forest.lt_of_mem_children found (List.mem_reverse.mp isChild)

theorem bare_removeBelow :
    ((graph.modifyNode parent fun node => { node with children := [] }).remove
      (graph.below parent node.children)).bare = (graph.cutBelow parent node.children).bare := by
  rw [bare_remove, forest.below_eq found, ReachabilityGraph.cutBelow]

theorem bare_pruneBelow :
    (graph.pruneBelow parent node.children).bare = (graph.cutBelow parent node.children).bare := by
  rw [← forest.bare_removeBelow found, ReachabilityGraph.pruneBelow]
  exact bare_modifyNode _ _ fun _ => rfl

theorem pruneBelow : (graph.pruneBelow parent node.children).Forest :=
  (forest.cutBelow found).of_bare (forest.bare_pruneBelow found)

end Cutting

end Forest

theorem prune_missing (missing : graph.node? id = none) :
    prune id graph = (.error (missingNode id), graph) := by
  rw [prune, bind_run, getNode_missing missing]

theorem prune_root {node : GraphNode σ α} (found : graph.node? id = some node)
    (isRoot : node.parent = none) : prune id graph = (.ok (), graph.pruneAll) := by
  unfold prune
  rw [bind_run, getNode_run found]
  dsimp only
  rw [isRoot]
  rfl

/-- Pruning at another node removes everything below its parent. -/
theorem Forest.prune_child (forest : graph.Forest) {node parentNode : GraphNode σ α}
    (found : graph.node? id = some node) (parent_eq : node.parent = some parent)
    (foundParent : graph.node? parent = some parentNode) :
    prune id graph = (.ok (), graph.pruneBelow parent parentNode.children) := by
  let emptied := graph.modifyNode parent fun node => { node with children := [] }
  obtain ⟨last, foundLast⟩ : ∃ last,
      (emptied.remove (emptied.descendants parentNode.children)).node? parent = some last := by
    -- The parent is not removed, because it is older than what is.
    have stays : parent ∉ graph.descendants parentNode.children := fun isCut =>
      Nat.lt_irrefl _ (forest.lt_of_mem_cut foundParent isCut)
    have foundCut : (graph.cutBelow parent parentNode.children).node? parent =
        some { parentNode with children := [] } := by
      rw [node?_cutBelow, if_neg stays, if_pos rfl, foundParent, Option.map_some]
    obtain ⟨last, foundLast, -⟩ := exists_of_bare_eq (forest.bare_removeBelow foundParent) foundCut
    exact ⟨last, foundLast⟩
  unfold prune
  rw [bind_run, getNode_run found]
  dsimp only
  rw [parent_eq]
  dsimp only
  rw [bind_run, getNode_run foundParent]
  dsimp only
  rw [bind_run, updateNode_run foundParent]
  exact updateNode_run foundLast _

/-- Pruning at a live node succeeds: it removes everything, or the subtrees below the parent. -/
theorem Forest.prune_run (forest : graph.Forest) {node : GraphNode σ α}
    (found : graph.node? id = some node) :
    ∃ after, prune id graph = (.ok (), after) ∧ (after = graph.pruneAll ∨
      ∃ parent parentNode, graph.node? parent = some parentNode ∧ id ∈ parentNode.children ∧
        after = graph.pruneBelow parent parentNode.children) := by
  cases parent_eq : node.parent with
  | none => exact ⟨_, prune_root found parent_eq, .inl rfl⟩
  | some parent =>
      obtain ⟨-, parentNode, foundParent, -⟩ := forest.parent_live found parent_eq
      exact ⟨_, forest.prune_child found parent_eq foundParent, .inr ⟨parent, parentNode,
        foundParent, (forest.children foundParent).mem_iff.mpr ⟨node, found, parent_eq⟩, rfl⟩⟩

end ReachabilityGraph

end AbstractionRefinement
