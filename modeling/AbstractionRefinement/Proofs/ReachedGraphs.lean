import AbstractionRefinement.Proofs.GraphWellFormedness
import AbstractionRefinement.Proofs.SearchOrder
import Mathlib.Logic.Relation

/-!
# Graphs reached by checks and pruning

A graph is reached from the empty one by checks and by pruning, in any order.  The search
strategy, the stop criterion, the coverage, the projection and the precision may change from
check to check, and checks may fail.  All reached graphs are well-formed, coverage does not
run in circles and is justified by the analysis, and what a further check finds is what the
graph shows.
-/

namespace AbstractionRefinement

open AbstractionRefinement.Computation

namespace ReachabilityGraph

variable {σ α : Type} {graph after : ReachabilityGraph σ α}

/-- The first node is covered by the second one, alone or with others. -/
def CoveredBy (graph : ReachabilityGraph σ α) (id coverer : Nat) : Prop :=
  ∃ node, graph.node? id = some node ∧ coverer ∈ node.coveredBy

theorem WellFormed.not_coveredBy_self (wellFormed : graph.WellFormed) (id : Nat) :
    ¬ Relation.TransGen graph.CoveredBy id id := by
  obtain ⟨rank, ranked⟩ := wellFormed.ranked
  have descends {id coverer : Nat} (covered : Relation.TransGen graph.CoveredBy id coverer) :
      rank coverer < rank id := by
    induction covered with
    | single first =>
        obtain ⟨node, found, member⟩ := first
        exact ranked found member
    | tail _ last ih =>
        obtain ⟨node, found, member⟩ := last
        exact Nat.lt_trans (ranked found member) ih
  exact fun circular => Nat.lt_irrefl _ (descends circular)

theorem WellFormed.exists_of_coveredBy (wellFormed : graph.WellFormed) {id coverer : Nat}
    (covered : Relation.TransGen graph.CoveredBy id coverer) :
    ∃ node, graph.node? coverer = some node ∧ node.target = false := by
  obtain ⟨last, node, found, member⟩ : ∃ last, graph.CoveredBy last coverer := by
    cases covered with
    | single first => exact ⟨_, first⟩
    | tail _ last => exact ⟨_, last⟩
  obtain ⟨other, foundOther, -⟩ := wellFormed.coverer found member
  exact ⟨other, foundOther, wellFormed.unmarked found member foundOther⟩

/-- The nodes with the numbers have the states. -/
def HasStates (graph : ReachabilityGraph σ α) (ids : List Nat) (states : List σ) : Prop :=
  List.Forall₂ (fun id state => ∃ node, graph.node? id = some node ∧ node.state = state) ids states

theorem HasStates.of_kept {ids : List Nat} {states : List σ} (known : graph.HasStates ids states)
    (kept : ∀ id ∈ ids, ∀ node, graph.node? id = some node →
      ∃ other, after.node? id = some other ∧ other.state = node.state) :
    after.HasStates ids states := by
  induction known with
  | nil => exact .nil
  | cons first _ ih =>
      obtain ⟨node, found, rfl⟩ := first
      obtain ⟨keptFirst, kept⟩ := List.forall_mem_cons.mp kept
      exact .cons (keptFirst node found) (ih kept)

end ReachabilityGraph

namespace Explorer

open ReachabilityGraph

variable {ω σ α π : Type} {explorer : Explorer ω σ α π} {mayUse : π → Prop}
  {graph after : ReachabilityGraph σ α}

section Justification

/-- Under some precision that may be used, the state of every covered node is subsumed by the
join of exactly the states of the nodes that cover it. -/
def Justified (explorer : Explorer ω σ α π) (mayUse : π → Prop)
    (graph : ReachabilityGraph σ α) : Prop :=
  ∀ ⦃id : Nat⦄ ⦃node : GraphNode σ α⦄, graph.node? id = some node → node.coveredBy ≠ [] →
    ∃ precision states joined, mayUse precision ∧ graph.HasStates node.coveredBy states ∧
      explorer.joinAll? precision states = some joined ∧
      explorer.analysis.leq precision node.state joined = true

/-- Coverage stays justified where the states of the covered and the covering nodes stay. -/
theorem Justified.of_kept (justified : explorer.Justified mayUse graph)
    (kept : ∀ id other, after.node? id = some other → other.coveredBy ≠ [] →
      ∃ node, graph.node? id = some node ∧ other.state = node.state ∧
        other.coveredBy = node.coveredBy)
    (stays : ∀ id other, after.node? id = some other → ∀ coverer ∈ other.coveredBy,
      ∀ node, graph.node? coverer = some node →
        ∃ last, after.node? coverer = some last ∧ last.state = node.state) :
    explorer.Justified mayUse after := by
  intro id other found covered
  obtain ⟨node, foundNode, state_eq, covered_eq⟩ := kept id other found covered
  obtain ⟨precision, states, joined, allowed, known, joins, subsumed⟩ :=
    justified foundNode (covered_eq ▸ covered)
  refine ⟨precision, states, joined, allowed, ?_, joins, state_eq ▸ subsumed⟩
  rw [covered_eq]
  exact known.of_kept fun coverer member => stays id other found coverer (covered_eq ▸ member)

theorem justified_empty : explorer.Justified mayUse (empty : ReachabilityGraph σ α) :=
  fun _ _ found => by simp at found

theorem justified_pruneAll (graph : ReachabilityGraph σ α) :
    explorer.Justified mayUse graph.pruneAll :=
  fun _ _ found => by simp at found

theorem Justified.grow (justified : explorer.Justified mayUse graph) (grows : graph.Grows after)
    (kept : ∀ id other, after.node? id = some other → other.coveredBy ≠ [] →
      ∃ node, graph.node? id = some node ∧ other.state = node.state ∧
        other.coveredBy = node.coveredBy) : explorer.Justified mayUse after :=
  justified.of_kept kept fun _ _ _ _ _ _ foundCoverer => by
    obtain ⟨last, foundLast, state_eq, -⟩ := grows foundCoverer
    exact ⟨last, foundLast, state_eq⟩

theorem Justified.addInitial (justified : explorer.Justified mayUse graph) (data : NodeData σ) :
    explorer.Justified mayUse (graph.addInitial data) := by
  refine justified.grow (grows_addInitial graph data) fun id other found covered => ?_
  rw [node?_addInitial] at found
  split at found
  case isTrue =>
    obtain rfl := Option.some.inj found
    exact absurd rfl covered
  case isFalse => exact ⟨other, found, rfl, rfl⟩

theorem Justified.withSuccessor (justified : explorer.Justified mayUse graph) {parent : Nat}
    {node : GraphNode σ α} (found : graph.node? parent = some node) (action : α)
    (data : NodeData σ) (depth : Nat) :
    explorer.Justified mayUse (graph.withSuccessor parent action data depth) := by
  refine justified.grow (grows_withSuccessor found action data depth)
    fun id other foundOther covered => ?_
  rw [node?_withSuccessor found] at foundOther
  split at foundOther
  case isTrue isParent =>
    obtain rfl := Option.some.inj foundOther
    exact ⟨node, isParent ▸ found, rfl, rfl⟩
  case isFalse =>
    split at foundOther
    case isTrue =>
      obtain rfl := Option.some.inj foundOther
      exact absurd rfl covered
    case isFalse => exact ⟨other, foundOther, rfl, rfl⟩

theorem Justified.markExpanded (justified : explorer.Justified mayUse graph) (id : Nat) :
    explorer.Justified mayUse
      (graph.modifyNode id fun node => { node with expanded := true }) := by
  refine justified.grow (grows_markExpanded graph id) fun other last found _ => ?_
  rw [node?_modifyNode] at found
  split at found
  case isTrue =>
    obtain ⟨node, foundNode, rfl⟩ := Option.map_eq_some_iff.mp found
    exact ⟨node, foundNode, rfl, rfl⟩
  case isFalse => exact ⟨last, found, rfl, rfl⟩

/-- The nodes that are chosen to cover a node justify it. -/
theorem Justified.withCover (justified : explorer.Justified mayUse graph) {id : Nat}
    {node : GraphNode σ α} {coverers : List Nat} {precision : π} (linked : graph.Linked)
    (allowed : mayUse precision) (found : graph.node? id = some node)
    (chosen : explorer.coverers? precision graph node = some coverers) :
    explorer.Justified mayUse (graph.withCover id coverers) := by
  have view := node?_withCover graph id coverers
  have grows := grows_withCover graph id coverers
  have keeps {ids : List Nat} {states : List σ} (known : graph.HasStates ids states) :
      (graph.withCover id coverers).HasStates ids states := by
    refine known.of_kept fun _ _ _ foundCoverer => ?_
    obtain ⟨last, foundLast, state_eq, -⟩ := grows foundCoverer
    exact ⟨last, foundLast, state_eq⟩
  intro other last foundLast covered
  rw [view, Option.map_eq_some_iff] at foundLast
  obtain ⟨before, foundBefore, rfl⟩ := foundLast
  dsimp only at covered ⊢
  split at covered
  case isTrue isCovered =>
    subst isCovered
    obtain rfl : node = before := Option.some.inj (found.symm.trans foundBefore)
    obtain ⟨others, mayCover, rfl, joined, joins, subsumed⟩ := coverers?_eq_some chosen
    refine ⟨precision, _, joined, allowed, ?_, joins, subsumed⟩
    rw [if_pos rfl]
    refine keeps (List.forall₂_map_left_iff.mpr (List.forall₂_map_right_iff.mpr ?_))
    refine List.forall₂_same.mpr fun coverer member => ?_
    obtain ⟨position, foundCoverer⟩ := mem_live.mp (mayCover coverer member).live
    rw [linked.id_eq foundCoverer]
    exact ⟨coverer, foundCoverer, rfl⟩
  case isFalse other_ne =>
    obtain ⟨precision, states, joined, allowed, known, joins, subsumed⟩ :=
      justified foundBefore covered
    rw [if_neg other_ne]
    exact ⟨precision, states, joined, allowed, keeps known, joins, subsumed⟩

theorem Justified.of_pruned (justified : explorer.Justified mayUse graph) {parent : Nat}
    {removed : List Nat} (pruned : Pruned parent removed graph after) :
    explorer.Justified mayUse after := by
  refine justified.of_kept (fun id other found covered => ?_)
    fun id other found coverer member node foundNode => ?_
  · obtain ⟨-, node, foundNode, stays⟩ := pruned.backward found
    exact ⟨node, foundNode, stays.kept.2.1, stays.dropped.resolve_left covered⟩
  · obtain ⟨last, foundLast, -⟩ := pruned.coverersLive (by simp) found member
    obtain ⟨-, before, foundBefore, stays⟩ := pruned.backward foundLast
    obtain rfl : node = before := Option.some.inj (foundNode.symm.trans foundBefore)
    exact ⟨last, foundLast, stays.kept.2.1⟩

end Justification

/-- The graphs that checks and pruning make of the empty one.  Checks use certain precisions
and may succeed or fail; a node has to be live to be pruned at. -/
inductive Reaches (explorer : Explorer ω σ α π) (mayUse : π → Prop) :
    ReachabilityGraph σ α → Prop where
  | empty : Reaches explorer mayUse .empty
  | check (projection : σ → Nat) (strategy : SearchStrategy) (stop : StopCriterion)
      (coverage : CoverageMode) (fuel : Nat) {precision : π} (version : Nat)
      (budget : Budget ω) (exploration : ExplorationState ω σ α)
      (reached : Reaches explorer mayUse exploration.graph) (allowed : mayUse precision) :
      Reaches explorer mayUse ({ explorer with projection, strategy, stop, coverage }.check
        fuel precision version budget exploration).2.graph
  | prune {graph : ReachabilityGraph σ α} {id : Nat} {node : GraphNode σ α}
      (reached : Reaches explorer mayUse graph) (found : graph.node? id = some node) :
      Reaches explorer mayUse (ReachabilityGraph.prune id graph).2
  | pruneAll {graph : ReachabilityGraph σ α} (reached : Reaches explorer mayUse graph) :
      Reaches explorer mayUse graph.pruneAll

theorem Reaches.check_self {precision : π} {exploration : ExplorationState ω σ α}
    (reached : explorer.Reaches mayUse exploration.graph) (allowed : mayUse precision)
    (fuel version : Nat) (budget : Budget ω) :
    explorer.Reaches mayUse (explorer.check fuel precision version budget exploration).2.graph :=
  .check explorer.projection explorer.strategy explorer.stop explorer.coverage fuel version budget
    exploration reached allowed

/-- What holds initially and survives every change that a check or pruning makes of a
well-formed graph holds of all reached graphs, which are well-formed. -/
theorem Reaches.holds {holds : ReachabilityGraph σ α → Prop}
    (reached : explorer.Reaches mayUse graph) (empty : holds .empty)
    (keeps : ∀ (projection : σ → Nat) (strategy : SearchStrategy) (stop : StopCriterion)
      (coverage : CoverageMode) (precision : π) (version : Nat), mayUse precision →
      { explorer with projection, strategy, stop, coverage }.Keeps precision version
        fun graph => graph.WellFormed ∧ holds graph)
    (pruned : ∀ {before after : ReachabilityGraph σ α} {parent : Nat} {removed : List Nat},
      before.WellFormed → holds before → Pruned parent removed before after → holds after)
    (pruneAll : ∀ graph : ReachabilityGraph σ α, holds graph.pruneAll) :
    graph.WellFormed ∧ holds graph := by
  induction reached with
  | empty => exact ⟨wellFormed_empty, empty⟩
  | check projection strategy stop coverage fuel version budget exploration _ allowed ih =>
      have outcome := (keeps projection strategy stop coverage _ version allowed).outcome_check
        fuel budget exploration ih
      unfold Outcome at outcome
      revert outcome
      split <;> rename_i run <;> rw [run] <;> exact id
  | prune _ found ih =>
      obtain ⟨wellFormed, valid⟩ := ih
      obtain ⟨after, run, rfl | ⟨parent, parentNode, foundParent, -, rfl⟩⟩ :=
        wellFormed.prune_run found <;> rw [run]
      · exact ⟨wellFormed_pruneAll _, pruneAll _⟩
      · exact ⟨wellFormed.pruneBelow foundParent,
          pruned wellFormed valid (wellFormed.coupled.pruned foundParent)⟩
  | pruneAll _ _ => exact ⟨wellFormed_pruneAll _, pruneAll _⟩

/-- The choice of coverers does not break the graph. -/
theorem wellFormed_withCover {precision : π} {id : Nat} {node : GraphNode σ α}
    {coverers : List Nat} (wellFormed : graph.WellFormed) (found : graph.node? id = some node)
    (uncovered : node.coveredBy = []) (childless : node.children = [])
    (chosen : explorer.coverers? precision graph node = some coverers)
    (irreflexive : id ∉ coverers) : (graph.withCover id coverers).WellFormed := by
  refine wellFormed.withCover found childless uncovered
    (linked_withCover wellFormed.linked chosen irreflexive) ?_
  obtain ⟨others, mayCover, rfl, -⟩ := coverers?_eq_some chosen
  refine List.forall_mem_map.mpr fun other member => ?_
  obtain ⟨position, listed, foundOther⟩ := mem_withKey.mp (mayCover other member).listed
  obtain ⟨other', foundOther', key_eq⟩ := (wellFormed.keyed node.key).mem_iff.mp listed
  obtain rfl := Option.some.inj (foundOther.symm.trans foundOther')
  rw [wellFormed.id_eq foundOther]
  exact ⟨other, foundOther, key_eq, (mayCover other member).unmarked⟩

theorem justified_keeps {precision : π} (version : Nat) (allowed : mayUse precision) :
    explorer.Keeps precision version fun graph : ReachabilityGraph σ α =>
      graph.WellFormed ∧ explorer.Justified mayUse graph where
  numbered valid := fun _ _ => valid.1.id_eq
  addInitial valid _ _ := ⟨valid.1.addInitial _, valid.2.addInitial _⟩
  initialized valid := ⟨valid.1.initializedAs true, valid.2⟩
  withSuccessor valid found isOpen _ _ :=
    ⟨valid.1.withSuccessor found isOpen _ _, valid.2.withSuccessor found _ _ _⟩
  markExpanded valid found _ := ⟨valid.1.markExpanded found, valid.2.markExpanded _⟩
  withCover valid found uncovered childless chosen _ irreflexive :=
    ⟨wellFormed_withCover valid.1 found uncovered childless chosen irreflexive,
      valid.2.withCover valid.1.linked allowed found chosen⟩

theorem Reaches.wellFormed (reached : explorer.Reaches mayUse graph) :
    graph.WellFormed ∧ explorer.Justified mayUse graph :=
  reached.holds justified_empty
    (fun _ _ _ _ _ version allowed => justified_keeps version allowed)
    (fun _ justified pruned => justified.of_pruned pruned) justified_pruneAll

/-- The states of the nodes are not known to be unsatisfiable and were listed by the analysis,
as initial states or as successors of the states of the parents, under precisions that may be
used.  Those of marked nodes are targets. -/
structure Derived (explorer : Explorer ω σ α π) (mayUse : π → Prop)
    (graph : ReachabilityGraph σ α) : Prop where
  satisfiable {id : Nat} {node : GraphNode σ α} : graph.node? id = some node →
    explorer.analysis.isBottom node.state = false
  root {id : Nat} {node : GraphNode σ α} : graph.node? id = some node → node.origin = none →
    ∃ precision, mayUse precision ∧ explorer.Starts precision node.state
  child {id parent : Nat} {node parentNode : GraphNode σ α} {action : α} :
    graph.node? id = some node → node.origin = some (parent, action) →
      graph.node? parent = some parentNode →
        ∃ precision, mayUse precision ∧ explorer.Steps precision parentNode.state action node.state
  target {id : Nat} {node : GraphNode σ α} : graph.node? id = some node → node.target = true →
    explorer.Hits node.state

section Derivation

/-- The node was there before, with its state, origin and mark. -/
def WasThere (graph : ReachabilityGraph σ α) (id : Nat) (other : GraphNode σ α) : Prop :=
  ∃ node, graph.node? id = some node ∧ other.state = node.state ∧ other.origin = node.origin ∧
    other.target = node.target

/-- The node is new, and its state was listed. -/
structure IsListed (explorer : Explorer ω σ α π) (mayUse : π → Prop)
    (graph : ReachabilityGraph σ α) (id : Nat) (other : GraphNode σ α) : Prop where
  fresh : graph.node? id = none
  satisfiable : explorer.analysis.isBottom other.state = false
  root : other.origin = none →
    ∃ precision, mayUse precision ∧ explorer.Starts precision other.state
  child {parent : Nat} {action : α} : other.origin = some (parent, action) →
    ∃ parentNode precision, graph.node? parent = some parentNode ∧ mayUse precision ∧
      explorer.Steps precision parentNode.state action other.state
  target : other.target = true → explorer.Hits other.state

theorem derived_empty : explorer.Derived mayUse (empty : ReachabilityGraph σ α) where
  satisfiable := by simp
  root := by simp
  child := by simp
  target := by simp

theorem derived_pruneAll (graph : ReachabilityGraph σ α) :
    explorer.Derived mayUse graph.pruneAll where
  satisfiable := by simp
  root := by simp
  child := by simp
  target := by simp

/-- Nodes may vanish or change in other respects, and nodes with listed states may be added. -/
theorem Derived.extend (derived : explorer.Derived mayUse graph) (wellFormed : graph.WellFormed)
    (known : ∀ id other, after.node? id = some other →
      WasThere graph id other ∨ explorer.IsListed mayUse graph id other) :
    explorer.Derived mayUse after where
  satisfiable found := by
    rcases known _ _ found with ⟨node, foundNode, state_eq, -⟩ | listed
    · rw [state_eq]
      exact derived.satisfiable foundNode
    · exact listed.satisfiable
  root found isRoot := by
    rcases known _ _ found with ⟨node, foundNode, state_eq, origin_eq, -⟩ | listed
    · rw [state_eq]
      exact derived.root foundNode (origin_eq ▸ isRoot)
    · exact listed.root isRoot
  child {id parent node parentNode action} found origin foundParent := by
    have steps : ∃ before precision, graph.node? parent = some before ∧ mayUse precision ∧
        explorer.Steps precision before.state action node.state := by
      rcases known _ _ found with ⟨old, foundOld, state_eq, origin_eq, -⟩ | listed
      · have origin' := origin_eq ▸ origin
        obtain ⟨-, before, foundBefore, -⟩ := wellFormed.above foundOld origin'
        obtain ⟨precision, allowed, steps⟩ := derived.child foundOld origin' foundBefore
        exact ⟨before, precision, foundBefore, allowed, state_eq ▸ steps⟩
      · exact listed.child origin
    obtain ⟨before, precision, foundBefore, allowed, steps⟩ := steps
    rcases known _ _ foundParent with ⟨old, foundOld, state_eq, -⟩ | listed
    · obtain rfl : before = old := Option.some.inj (foundBefore.symm.trans foundOld)
      exact ⟨precision, allowed, state_eq ▸ steps⟩
    · rw [listed.fresh] at foundBefore
      cases foundBefore
  target found isTarget := by
    rcases known _ _ found with ⟨node, foundNode, state_eq, -, target_eq⟩ | listed
    · rw [state_eq]
      exact derived.target foundNode (target_eq ▸ isTarget)
    · exact listed.target isTarget

theorem node?_size (graph : ReachabilityGraph σ α) : graph.node? graph.nodes.size = none := by
  cases found : graph.node? graph.nodes.size with
  | none => rfl
  | some node => exact absurd (node?_eq_some_lt found) (Nat.lt_irrefl _)

theorem derived_keeps (projection : σ → Nat) (strategy : SearchStrategy) (stop : StopCriterion)
    (coverage : CoverageMode) {precision : π} (version : Nat) (allowed : mayUse precision) :
    { explorer with projection, strategy, stop, coverage }.Keeps precision version
      fun graph : ReachabilityGraph σ α =>
        graph.WellFormed ∧ explorer.Derived mayUse graph where
  numbered valid := fun _ _ => valid.1.id_eq
  addInitial valid makes starts := by
    refine ⟨valid.1.addInitial _, valid.2.extend valid.1 fun id other found => ?_⟩
    rw [node?_addInitial] at found
    split at found
    case isTrue isNew =>
      obtain rfl := Option.some.inj found
      exact .inr ⟨isNew ▸ node?_size _, makes.satisfiable, fun _ => ⟨_, allowed, starts⟩, nofun,
        makes.target⟩
    case isFalse => exact .inl ⟨other, found, rfl, rfl, rfl⟩
  initialized valid := by
    refine ⟨valid.1.initializedAs true, valid.2.extend valid.1 fun id other found => ?_⟩
    exact .inl ⟨other, found, rfl, rfl, rfl⟩
  withSuccessor {graph parent node action data} valid found isOpen makes steps := by
    refine ⟨valid.1.withSuccessor found isOpen _ _,
      valid.2.extend valid.1 fun id other foundOther => ?_⟩
    rw [node?_withSuccessor found] at foundOther
    split at foundOther
    case isTrue isParent =>
      obtain rfl := Option.some.inj foundOther
      exact .inl ⟨node, isParent ▸ found, rfl, rfl, rfl⟩
    case isFalse =>
      split at foundOther
      case isTrue isNew =>
        obtain rfl := Option.some.inj foundOther
        refine .inr ⟨isNew ▸ node?_size _, makes.satisfiable, nofun, fun origin => ?_, makes.target⟩
        cases origin
        exact ⟨node, _, found, allowed, steps⟩
      case isFalse => exact .inl ⟨other, foundOther, rfl, rfl, rfl⟩
  markExpanded valid found _ := by
    refine ⟨valid.1.markExpanded found, valid.2.extend valid.1 fun id other foundOther => ?_⟩
    rw [node?_modifyNode] at foundOther
    split at foundOther
    case isTrue =>
      obtain ⟨node, foundNode, rfl⟩ := Option.map_eq_some_iff.mp foundOther
      exact .inl ⟨node, foundNode, rfl, rfl, rfl⟩
    case isFalse => exact .inl ⟨other, foundOther, rfl, rfl, rfl⟩
  withCover valid found uncovered childless chosen _ irreflexive := by
    refine ⟨wellFormed_withCover valid.1 found uncovered childless chosen irreflexive,
      valid.2.extend valid.1 fun id other foundOther => ?_⟩
    rw [node?_withCover, Option.map_eq_some_iff] at foundOther
    obtain ⟨node, foundNode, rfl⟩ := foundOther
    exact .inl ⟨node, foundNode, rfl, rfl, rfl⟩

end Derivation

theorem Reaches.derived (reached : explorer.Reaches mayUse graph) :
    graph.WellFormed ∧ explorer.Derived mayUse graph := by
  refine reached.holds derived_empty
    (fun projection strategy stop coverage _ version allowed =>
      derived_keeps projection strategy stop coverage version allowed)
    (fun wellFormed derived pruned => derived.extend wellFormed fun id other found => ?_)
    derived_pruneAll
  obtain ⟨-, node, foundNode, stays⟩ := pruned.backward found
  refine .inl ⟨node, foundNode, stays.kept.2.1, ?_⟩
  rw [stays.same]
  exact ⟨rfl, rfl⟩

/-- What a check finds is shown by the graph. -/
inductive Finds (graph : ReachabilityGraph σ α) : ExplorationStatus → Prop where
  | exhausted (safe : graph.isSafe = true) : Finds graph .exhausted
  | targetFound {id : Nat} {node : GraphNode σ α} (found : graph.node? id = some node)
      (isTarget : node.target = true) : Finds graph .targetFound

theorem isSafe_of_complete (complete : graph.Complete) : graph.isSafe = true := by
  rw [isSafe, complete.initialized, Bool.true_and, List.all_eq_true]
  intro node live
  obtain ⟨id, found⟩ := mem_live.mp live
  simp [complete.closed found, complete.noTarget found]

theorem finds_of_check {fuel version : Nat} {precision : π} {budget : Budget ω}
    {exploration after : ExplorationState ω σ α} {status : ExplorationStatus}
    (linked : exploration.graph.Linked)
    (run : explorer.check fuel precision version budget exploration = (.ok status, after)) :
    Finds after.graph status := by
  -- Completeness does not depend on what the nodes stand for, so they may stand for nothing.
  have sound : exploration.graph.Sound (κ := Empty) ⟨fun _ => False, fun _ _ _ => False⟩
      (fun _ _ => False) (fun _ => True) (fun _ => False) :=
    ⟨linked, fun _ => trivial, fun _ _ stands => stands.elim, fun _ _ stands => stands.elim,
      fun _ _ stands => stands.elim, fun _ starts => starts.elim⟩
  obtain ⟨-, complete⟩ :=
    ((Verifier.soundFor_nothing explorer).ensures_check fuel precision version budget _ sound).of_run run
  have status_eq := (ensures_check_status fuel version budget exploration).of_run run
  split at status_eq
  case isTrue =>
    subst status_eq
    exact .exhausted (isSafe_of_complete (complete rfl))
  case isFalse targets =>
    subst status_eq
    obtain ⟨node, member⟩ := List.exists_mem_of_ne_nil _ (by simpa using targets)
    obtain ⟨live, isTarget⟩ := List.mem_filter.mp member
    obtain ⟨id, found⟩ := mem_live.mp live
    exact .targetFound found isTarget

/-- A reached graph has no defect, coverage in it neither runs in circles nor leads to a
target and is justified, and every check that returns from it tells what it has found. -/
theorem Reaches.intact (reached : explorer.Reaches mayUse graph) :
    graph.defect? = none ∧ (∀ id, ¬ Relation.TransGen graph.CoveredBy id id) ∧
      (∀ id coverer, Relation.TransGen graph.CoveredBy id coverer →
        ∃ node, graph.node? coverer = some node ∧ node.target = false) ∧
      explorer.Justified mayUse graph ∧
      ∀ (projection : σ → Nat) (strategy : SearchStrategy) (stop : StopCriterion)
        (coverage : CoverageMode) (fuel : Nat) (precision : π) (version : Nat)
        (budget : Budget ω) (exploration after : ExplorationState ω σ α)
        (status : ExplorationStatus), exploration.graph = graph →
        { explorer with projection, strategy, stop, coverage }.check fuel precision version
          budget exploration = (.ok status, after) → Finds after.graph status := by
  obtain ⟨wellFormed, justified⟩ := reached.wellFormed
  refine ⟨wellFormed.defect?_eq_none, wellFormed.not_coveredBy_self,
    fun _ _ covered => wellFormed.exists_of_coveredBy covered, justified, ?_⟩
  intro _ _ _ _ _ _ _ _ _ _ _ same run
  exact finds_of_check (same ▸ wellFormed.linked) run

def exploreCounter (strategy : SearchStrategy) (stop : StopCriterion) (version : Nat)
    (graph : ReachabilityGraph Nat Bool) : ReachabilityGraph Nat Bool :=
  ({ boundedCounter with projection := fun _ => 0, strategy, stop, coverage := .single }.check 99
    () version (.start {} (fun _ => 0) ()) ⟨(), graph, .idle⟩).2.graph

def exploredAgain : ReachabilityGraph Nat Bool :=
  exploreCounter (.random 7) .never 1
    (ReachabilityGraph.prune 3 (exploreCounter .breadthFirst .firstTarget 0 .empty)).2

/-- After the second exploration of the counter there is a covered node, and nothing is
broken. -/
theorem exploredAgain_intact :
    boundedCounter.Reaches (fun _ => True) exploredAgain ∧ exploredAgain.CoveredBy 8 6 ∧
      exploredAgain.defect? = none ∧
      (∀ id, ¬ Relation.TransGen exploredAgain.CoveredBy id id) ∧
      boundedCounter.Justified (fun _ => True) exploredAgain := by
  have explored (strategy : SearchStrategy) (stop : StopCriterion) (version : Nat)
      {graph : ReachabilityGraph Nat Bool}
      (reached : boundedCounter.Reaches (fun _ => True) graph) :
      boundedCounter.Reaches (fun _ => True) (exploreCounter strategy stop version graph) :=
    .check (fun _ => 0) strategy stop .single 99 version (.start {} (fun _ => 0) ())
      ⟨(), graph, .idle⟩ reached trivial
  obtain ⟨node, found⟩ : ∃ node,
      (exploreCounter .breadthFirst .firstTarget 0 .empty).node? 3 = some node :=
    Option.isSome_iff_exists.mp (by decide +kernel)
  have reached : boundedCounter.Reaches (fun _ => True) exploredAgain :=
    explored (.random 7) .never 1 ((explored .breadthFirst .firstTarget 0 .empty).prune found)
  have covered : (exploredAgain.node? 8).any (fun node => node.coveredBy.contains 6) = true := by
    decide +kernel
  obtain ⟨other, foundOther, member⟩ := (Option.any_eq_true ..).mp covered
  obtain ⟨intact, acyclic, -, justified, -⟩ := reached.intact
  exact ⟨reached, ⟨other, foundOther, by simpa using member⟩, intact, acyclic, justified⟩

end Explorer

end AbstractionRefinement
