import AbstractionRefinement.Proofs.ExplorationInvariants
import AbstractionRefinement.Proofs.GraphSubtrees

/-!
# Well-formed graphs

A graph is intact if its nodes form a forest, coverage is known at both ends and joins nodes of
one key, and covered nodes and targets are leaves: these are the graphs without the defects that
can be found in a graph.  A graph is well-formed if, moreover, chains of coverage end and
coverage leads away from targets.  Nothing of this is lost when a graph is explored or pruned.
-/

namespace AbstractionRefinement

open AbstractionRefinement.Computation

namespace ReachabilityGraph

variable {σ α : Type} {graph : ReachabilityGraph σ α}

/-- The forest and the coverage are intact. -/
structure Intact (graph : ReachabilityGraph σ α) : Prop extends graph.Forest where
  leaf {id : Nat} {node : GraphNode σ α} : graph.node? id = some node →
    node.coveredBy ≠ [] ∨ node.target = true → node.children = []
  coverer {id coverer : Nat} {node : GraphNode σ α} : graph.node? id = some node →
    coverer ∈ node.coveredBy → ∃ other, graph.node? coverer = some other ∧ id ∈ other.covers ∧
      other.key = node.key
  coveredKnow : graph.CoveredKnow

theorem Forest.coupled (forest : graph.Forest) (covererLive : ∀ {id coverer : Nat}
    {node : GraphNode σ α}, graph.node? id = some node → coverer ∈ node.coveredBy →
      ∃ other, graph.node? coverer = some other ∧ id ∈ other.covers) : graph.Coupled :=
  ⟨forest.id_eq, forest.child_live, covererLive⟩

theorem intact_of_no_nodes (forest : graph.Forest) (noNodes : ∀ id, graph.node? id = none) :
    graph.Intact where
  toForest := forest
  leaf := by simp [noNodes]
  coverer := by simp [noNodes]
  coveredKnow := fun _ _ _ found => by simp [noNodes] at found

theorem intact_empty : (empty : ReachabilityGraph σ α).Intact :=
  intact_of_no_nodes forest_empty node?_empty

theorem intact_pruneAll (graph : ReachabilityGraph σ α) : graph.pruneAll.Intact :=
  intact_of_no_nodes graph.forest_pruneAll graph.node?_pruneAll

namespace Intact

theorem coupled (intact : graph.Intact) : graph.Coupled := by
  refine intact.toForest.coupled fun found member => ?_
  obtain ⟨other, foundOther, knows, -⟩ := intact.coverer found member
  exact ⟨other, foundOther, knows⟩

theorem addInitial (intact : graph.Intact) (data : NodeData σ) :
    (graph.addInitial data).Intact := by
  have view := node?_addInitial graph data
  have bound : ∀ id other, graph.node? id = some other → id < graph.nodes.size :=
    fun _ _ => node?_eq_some_lt
  obtain ⟨forest, leaf, coverer, know⟩ := intact
  unfold CoveredKnow at know
  refine ⟨forest.addInitial data, ?_, ?_, ?_⟩
  · grind [GraphNode.created]
  · grind [GraphNode.created]
  · intro id covered node found member
    grind [GraphNode.created]

theorem initializedAs (intact : graph.Intact) (flag : Bool) :
    ReachabilityGraph.Intact { graph with initialized := flag } :=
  ⟨intact.toForest.of_bare (graph.bare_initializedAs flag), intact.leaf, intact.coverer,
    intact.coveredKnow⟩

/-- A node that is neither covered nor a target may have children. -/
theorem withSuccessor (intact : graph.Intact) {parent : Nat} {node : GraphNode σ α}
    (found : graph.node? parent = some node) (uncovered : node.coveredBy = [])
    (unmarked : node.target = false) (action : α) (data : NodeData σ) :
    (graph.withSuccessor parent action data (node.depth + 1)).Intact := by
  have view := node?_withSuccessor found action data (node.depth + 1)
  have bound : ∀ id other, graph.node? id = some other → id < graph.nodes.size :=
    fun _ _ => node?_eq_some_lt
  obtain ⟨forest, leaf, coverer, know⟩ := intact
  unfold CoveredKnow at know
  refine ⟨forest.withSuccessor found action data, ?_, ?_, ?_⟩
  · grind [GraphNode.created]
  · grind [GraphNode.created]
  · intro id covered other foundOther member
    grind [GraphNode.created]

theorem markExpanded (intact : graph.Intact) (id : Nat) :
    (graph.modifyNode id fun node => { node with expanded := true }).Intact := by
  have view (other : Nat) : (graph.modifyNode id fun node => { node with expanded := true }).node?
      other = (graph.node? other).map fun node =>
        { node with expanded := other = id || node.expanded } := by
    rw [node?_modifyNode]
    by_cases same : other = id <;> simp [same]
  obtain ⟨forest, leaf, coverer, know⟩ := intact
  refine ⟨forest.of_bare (bare_modifyNode _ _ fun _ => rfl), ?_, ?_,
    know.modifyNode id fun _ => ⟨rfl, rfl⟩⟩
  · intro other last foundLast isLeaf
    rw [view, Option.map_eq_some_iff] at foundLast
    obtain ⟨before, foundBefore, rfl⟩ := foundLast
    have childless : before.children = [] := leaf foundBefore isLeaf
    exact childless
  · intro other covererId last foundLast member
    rw [view, Option.map_eq_some_iff] at foundLast
    obtain ⟨before, foundBefore, rfl⟩ := foundLast
    have covered : covererId ∈ before.coveredBy := member
    obtain ⟨known, foundKnown, knows, same⟩ := coverer foundBefore covered
    rw [view, foundKnown]
    exact ⟨_, rfl, knows, same⟩

/-- A childless uncovered node may be covered by nodes of its key. -/
theorem withCover (intact : graph.Intact) {id : Nat} {node : GraphNode σ α}
    {coverers : List Nat} (found : graph.node? id = some node) (childless : node.children = [])
    (uncovered : node.coveredBy = [])
    (mayCover : ∀ coverer ∈ coverers, ∃ other, graph.node? coverer = some other ∧
      other.key = node.key) : (graph.withCover id coverers).Intact := by
  have view := node?_withCover graph id coverers
  obtain ⟨forest, leaf, coverer, know⟩ := intact
  refine ⟨forest.of_bare (graph.bare_withCover id coverers), ?_, ?_, ?_⟩
  · intro other last foundLast isLeaf
    rw [view, Option.map_eq_some_iff] at foundLast
    obtain ⟨before, foundBefore, rfl⟩ := foundLast
    have := leaf foundBefore
    grind
  · intro other covererId last foundLast member
    rw [view, Option.map_eq_some_iff] at foundLast
    obtain ⟨before, foundBefore, rfl⟩ := foundLast
    by_cases isCovered : other = id
    · subst isCovered
      obtain rfl := Option.some.inj (found.symm.trans foundBefore)
      simp only [if_true] at member
      obtain ⟨known, foundKnown, same⟩ := mayCover covererId member
      rw [view, foundKnown]
      refine ⟨_, rfl, ?_, same⟩
      simp [List.mem_replicate, List.count_eq_zero, member]
    · simp only [isCovered, if_false] at member
      obtain ⟨known, foundKnown, knows, same⟩ := coverer foundBefore member
      rw [view, foundKnown]
      exact ⟨_, rfl, List.mem_append_left _ knows, same⟩
  · intro other covered last foundLast member
    rw [view, Option.map_eq_some_iff] at foundLast
    obtain ⟨before, foundBefore, rfl⟩ := foundLast
    rcases List.mem_append.mp member with old | new
    · obtain ⟨known, foundKnown, knows⟩ := know foundBefore old
      rw [view, foundKnown]
      refine ⟨_, rfl, ?_⟩
      dsimp only
      grind
    · obtain ⟨positive, rfl⟩ := List.mem_replicate.mp new
      rw [view, found]
      refine ⟨_, rfl, ?_⟩
      dsimp only
      rw [if_pos rfl]
      exact List.count_pos_iff.mp (Nat.pos_of_ne_zero positive)

theorem dropCover (intact : graph.Intact) {node : GraphNode σ α}
    (found : graph.node? node.id = some node) : (graph.dropCover node).Intact := by
  have view := node?_dropCover graph node
  obtain ⟨forest, leaf, coverer, know⟩ := intact
  refine ⟨forest.of_bare (graph.bare_dropCover node), ?_, ?_, know.dropCover found⟩
  · intro id last foundLast isLeaf
    rw [view, Option.map_eq_some_iff] at foundLast
    obtain ⟨before, foundBefore, rfl⟩ := foundLast
    have := leaf foundBefore
    grind
  · intro id covererId last foundLast member
    rw [view, Option.map_eq_some_iff] at foundLast
    obtain ⟨before, foundBefore, rfl⟩ := foundLast
    by_cases dropped : id = node.id
    · simp [dropped] at member
    · simp only [dropped, if_false] at member
      obtain ⟨other, foundOther, knows, same⟩ := coverer foundBefore member
      rw [view, foundOther]
      refine ⟨_, rfl, ?_, same⟩
      dsimp only
      split
      · simpa using ⟨knows, dropped⟩
      · exact knows

theorem coveredKnow_pruneBelow (intact : graph.Intact) (parent : Nat) (children : List Nat) :
    (graph.pruneBelow parent children).CoveredKnow := by
  obtain ⟨numbered, live⟩ := intact.coupled.emptied parent (graph.below parent children)
  have know : (graph.modifyNode parent fun node => { node with children := [] }).CoveredKnow :=
    intact.coveredKnow.modifyNode parent fun _ => ⟨rfl, rfl⟩
  exact (know.remove numbered live).modifyNode parent fun _ => ⟨rfl, rfl⟩

theorem pruneBelow (intact : graph.Intact) {parent : Nat} {node : GraphNode σ α}
    (found : graph.node? parent = some node) :
    (graph.pruneBelow parent node.children).Intact := by
  have pruned := intact.coupled.pruned found
  refine ⟨intact.toForest.pruneBelow found, ?_, ?_,
    intact.coveredKnow_pruneBelow parent node.children⟩
  · intro id other foundOther isLeaf
    obtain ⟨-, before, foundBefore, stays⟩ := pruned.backward foundOther
    have dropped := stays.dropped
    have target_eq := stays.kept.2.2.2
    have childless : before.children = [] := by
      apply intact.leaf foundBefore
      grind
    rw [stays.same, childless]
    exact ite_self _
  · intro id coverer other foundOther member
    obtain ⟨last, foundLast, knows⟩ := pruned.coverersLive (by simp) foundOther member
    obtain ⟨-, before, foundBefore, stays⟩ := pruned.backward foundOther
    obtain ⟨-, before', foundBefore', stays'⟩ := pruned.backward foundLast
    have cover_eq : other.coveredBy = before.coveredBy :=
      stays.dropped.resolve_left (List.ne_nil_of_mem member)
    obtain ⟨known, foundKnown, -, same⟩ := intact.coverer foundBefore (cover_eq ▸ member)
    obtain rfl := Option.some.inj (foundBefore'.symm.trans foundKnown)
    exact ⟨last, foundLast, knows, by rw [stays'.same, stays.same, same]⟩

end Intact

/-- A node at which nothing is violated. -/
theorem nodeDefect?_eq_none_iff {node : GraphNode σ α} :
    graph.nodeDefect? node = none ↔
      (node.origin = none → node.id ∈ graph.initial) ∧
      (∀ source action, node.origin = some (source, action) → ∃ parent,
        graph.node? source = some parent ∧ node.id ∈ parent.children ∧
          parent.depth + 1 = node.depth) ∧
      (node.coveredBy ≠ [] ∨ node.target = true → node.children = []) ∧
      (∀ coverer ∈ node.coveredBy, ∃ other, graph.node? coverer = some other ∧
        node.id ∈ other.covers ∧ other.key = node.key) ∧
      ∀ covered ∈ node.covers, ∃ other, graph.node? covered = some other ∧
        node.id ∈ other.coveredBy := by
  unfold nodeDefect?
  simp only [Option.orElse_eq_orElse, Option.orElse_eq_or, Option.or_eq_none_iff,
    List.findSome?_eq_none_iff]
  refine Iff.trans (and_congr ?origin (and_congr ?shape (and_congr ?coverers ?covered)))
    and_assoc
  case origin =>
    cases node.origin with
    | none => simp
    | some edge =>
        obtain ⟨source, action⟩ := edge
        cases found : graph.node? source with
        | none => simp [found]
        | some parent => by_cases isChild : node.id ∈ parent.children <;> simp [found, isChild]
  case shape =>
    simp only [GraphNode.isCovered]
    by_cases uncovered : node.coveredBy = [] <;> by_cases childless : node.children = [] <;>
      simp [uncovered, childless]
  case coverers =>
    refine forall₂_congr fun coverer _ => ?_
    rcases graph.node? coverer with _ | other <;> simp
  case covered =>
    refine forall₂_congr fun covered _ => ?_
    rcases graph.node? covered with _ | other <;> simp

/-- The graphs without defects are the intact ones. -/
theorem Forest.defect?_eq_none_iff (forest : graph.Forest) :
    graph.defect? = none ↔ graph.Intact := by
  have checks : graph.defect? = none ↔
      ∀ id node, graph.node? id = some node → graph.nodeDefect? node = none := by
    rw [defect?, List.findSome?_eq_none_iff]
    refine ⟨fun none id node found => none node (mem_live.mpr ⟨id, found⟩), fun none node live => ?_⟩
    obtain ⟨id, found⟩ := mem_live.mp live
    exact none id node found
  rw [checks]
  constructor
  · intro none
    have clean {id : Nat} {node : GraphNode σ α} (found : graph.node? id = some node) :=
      nodeDefect?_eq_none_iff.mp (none id node found)
    refine ⟨forest, fun found => (clean found).2.2.1, fun {id coverer node} found member => ?_,
      fun id covered node found member => ?_⟩
    · obtain rfl := forest.id_eq found
      exact (clean found).2.2.2.1 coverer member
    · obtain rfl := forest.id_eq found
      exact (clean found).2.2.2.2 covered member
  · intro intact id node found
    obtain rfl := forest.id_eq found
    rw [nodeDefect?_eq_none_iff]
    refine ⟨forest.root found, fun source action origin => ?_, intact.leaf found,
      fun coverer => intact.coverer found, fun covered => @intact.coveredKnow node.id covered node found⟩
    exact (forest.above found origin).2

theorem Intact.defect?_eq_none (intact : graph.Intact) : graph.defect? = none :=
  intact.defect?_eq_none_iff.mpr intact

/-- An intact graph in which chains of coverage end and lead away from targets. -/
structure WellFormed (graph : ReachabilityGraph σ α) : Prop extends graph.Intact where
  ranked : ∃ rank : Nat → Nat, ∀ {id coverer : Nat} {node : GraphNode σ α},
    graph.node? id = some node → coverer ∈ node.coveredBy → rank coverer < rank id
  unmarked {id coverer : Nat} {node other : GraphNode σ α} : graph.node? id = some node →
    coverer ∈ node.coveredBy → graph.node? coverer = some other → other.target = false

theorem wellFormed_empty : (empty : ReachabilityGraph σ α).WellFormed :=
  ⟨intact_empty, linked_empty.ranked, by simp⟩

theorem wellFormed_pruneAll (graph : ReachabilityGraph σ α) : graph.pruneAll.WellFormed :=
  ⟨graph.intact_pruneAll, graph.linked_pruneAll.ranked, by simp⟩

namespace WellFormed

theorem linked (wellFormed : graph.WellFormed) : graph.Linked :=
  ⟨wellFormed.coupled, wellFormed.ranked⟩

theorem addInitial (wellFormed : graph.WellFormed) (data : NodeData σ) :
    (graph.addInitial data).WellFormed := by
  refine ⟨wellFormed.toIntact.addInitial data, (wellFormed.linked.addInitial data).ranked, ?_⟩
  have view := node?_addInitial graph data
  have bound : ∀ id other, graph.node? id = some other → id < graph.nodes.size :=
    fun _ _ => node?_eq_some_lt
  have covererLive := @wellFormed.linked.coverer_live
  have unmarked := @wellFormed.unmarked
  grind [GraphNode.created]

theorem initializedAs (wellFormed : graph.WellFormed) (flag : Bool) :
    ReachabilityGraph.WellFormed { graph with initialized := flag } :=
  ⟨wellFormed.toIntact.initializedAs flag, wellFormed.ranked, wellFormed.unmarked⟩

theorem withSuccessor (wellFormed : graph.WellFormed) {parent : Nat} {node : GraphNode σ α}
    (found : graph.node? parent = some node) (isOpen : node.isIncomplete = true) (action : α)
    (data : NodeData σ) :
    (graph.withSuccessor parent action data (node.depth + 1)).WellFormed := by
  obtain ⟨-, target_eq, uncovered⟩ :
      node.expanded = false ∧ node.target = false ∧ node.coveredBy = [] := by
    simpa [GraphNode.isIncomplete, GraphNode.isCovered, and_assoc] using isOpen
  refine ⟨wellFormed.toIntact.withSuccessor found uncovered target_eq action data,
    (wellFormed.linked.withSuccessor found action data _).ranked, ?_⟩
  have view := node?_withSuccessor found action data (node.depth + 1)
  have bound : ∀ id other, graph.node? id = some other → id < graph.nodes.size :=
    fun _ _ => node?_eq_some_lt
  have covererLive := @wellFormed.linked.coverer_live
  have unmarked := @wellFormed.unmarked
  grind [GraphNode.created]

theorem markExpanded (wellFormed : graph.WellFormed) {id : Nat} {node : GraphNode σ α}
    (found : graph.node? id = some node) :
    (graph.modifyNode id fun node => { node with expanded := true }).WellFormed := by
  refine ⟨wellFormed.toIntact.markExpanded id, (wellFormed.linked.markExpanded found).ranked, ?_⟩
  have view := fun other => node?_modifyNode graph id other
    fun node => { node with expanded := true }
  have unmarked := @wellFormed.unmarked
  grind

/-- A childless node may be covered by nodes of its key that are not covered themselves. -/
theorem withCover (wellFormed : graph.WellFormed) {id : Nat} {node : GraphNode σ α}
    {coverers : List Nat} (found : graph.node? id = some node) (childless : node.children = [])
    (uncovered : node.coveredBy = [])
    (linked : (graph.withCover id coverers).Linked)
    (mayCover : ∀ coverer ∈ coverers, ∃ other, graph.node? coverer = some other ∧
      other.key = node.key ∧ other.target = false) :
    (graph.withCover id coverers).WellFormed := by
  refine ⟨wellFormed.toIntact.withCover found childless uncovered fun coverer member => ?_,
    linked.ranked, fun {other coverer last covererNode} foundLast member foundCoverer => ?_⟩
  · obtain ⟨other, foundOther, same, -⟩ := mayCover coverer member
    exact ⟨other, foundOther, same⟩
  · have unmarked := @wellFormed.unmarked
    rw [node?_withCover, Option.map_eq_some_iff] at foundLast foundCoverer
    grind

theorem pruneBelow (wellFormed : graph.WellFormed) {parent : Nat} {node : GraphNode σ α}
    (found : graph.node? parent = some node) :
    (graph.pruneBelow parent node.children).WellFormed := by
  have pruned := wellFormed.coupled.pruned found
  refine ⟨wellFormed.toIntact.pruneBelow found, (wellFormed.linked.of_pruned pruned).ranked, ?_⟩
  intro id coverer other covererNode foundOther member foundCoverer
  obtain ⟨-, before, foundBefore, stays⟩ := pruned.backward foundOther
  obtain ⟨-, before', foundBefore', stays'⟩ := pruned.backward foundCoverer
  have cover_eq : other.coveredBy = before.coveredBy :=
    stays.dropped.resolve_left (List.ne_nil_of_mem member)
  rw [stays'.kept.2.2.2]
  exact wellFormed.unmarked foundBefore (cover_eq ▸ member) foundBefore'

end WellFormed

end ReachabilityGraph

end AbstractionRefinement
