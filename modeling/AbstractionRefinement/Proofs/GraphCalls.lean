import AbstractionRefinement.Proofs.GraphPaths
import AbstractionRefinement.Proofs.GraphWellFormedness

/-!
# Graphs in use

A graph is changed by calls of its operations, some of which may fail.  Whatever is called, the
nodes form a forest, and what was removed never comes back.  While nodes are only given
successors if they are neither covered nor targets, and are only covered by live nodes of their
key, the graph stays intact, and whoever asks it for nodes, paths or counterexamples gets them.
-/

namespace AbstractionRefinement

open AbstractionRefinement.Computation

/-- A call that may change a graph. -/
inductive GraphCall (σ α : Type) where
  | addInitial (data : NodeData σ)
  | addSuccessor (parent : Nat) (action : α) (data : NodeData σ)
  | markInitialized
  | setExpanded (id : Nat)
  | cover (id : Nat) (coverers : List Nat)
  | uncover (id : Nat)
  | prune (id : Nat)
  | pruneAll

namespace GraphCall

variable {σ α : Type} {graph after : ReachabilityGraph σ α} {call : GraphCall σ α}

/-- The graph after the call, whatever the call answers. -/
def perform : GraphCall σ α → ReachabilityGraph σ α → ReachabilityGraph σ α
  | addInitial data, graph => graph.addInitial data
  | addSuccessor parent action data, graph =>
      (ReachabilityGraph.addSuccessor parent action data graph).2
  | markInitialized, graph => { graph with initialized := true }
  | setExpanded id, graph => (ReachabilityGraph.setExpanded id graph).2
  | cover id coverers, graph => (ReachabilityGraph.cover id coverers graph).2
  | uncover id, graph => (ReachabilityGraph.uncover id graph).2
  | prune id, graph => (ReachabilityGraph.prune id graph).2
  | pruneAll, graph => graph.pruneAll

/-- Successors are added to live nodes that are neither covered nor targets, and live nodes are
covered by live nodes of their key. -/
def Proper (graph : ReachabilityGraph σ α) : GraphCall σ α → Prop
  | addSuccessor parent _ _ => ∃ node, graph.node? parent = some node ∧
      node.isCovered = false ∧ node.target = false
  | cover id coverers => ∃ node, graph.node? id = some node ∧ ∀ coverer ∈ coverers,
      ∃ other, graph.node? coverer = some other ∧ other.key = node.key
  | _ => True

/-- What a call may do to a graph. -/
inductive Effect (graph : ReachabilityGraph σ α) : GraphCall σ α → ReachabilityGraph σ α → Prop
  | unchanged {call : GraphCall σ α} : Effect graph call graph
  | addInitial (data : NodeData σ) : Effect graph (.addInitial data) (graph.addInitial data)
  | addSuccessor {parent : Nat} {node : GraphNode σ α} (found : graph.node? parent = some node)
      (action : α) (data : NodeData σ) : Effect graph (.addSuccessor parent action data)
        (graph.withSuccessor parent action data (node.depth + 1))
  | markInitialized : Effect graph .markInitialized { graph with initialized := true }
  | setExpanded (id : Nat) : Effect graph (.setExpanded id)
      (graph.modifyNode id fun node => { node with expanded := true })
  | cover {id : Nat} {node : GraphNode σ α} (found : graph.node? id = some node)
      (uncovered : node.coveredBy = []) (childless : node.children = []) (coverers : List Nat) :
      Effect graph (.cover id coverers) (graph.withCover id coverers)
  | note (id : Nat) {coverers : List Nat} {missing : Nat} (isMissing : missing ∈ coverers)
      (dead : graph.node? missing = none) (noted : List Nat) :
      Effect graph (.cover id coverers) (graph.noting id noted)
  | uncover {id : Nat} {node : GraphNode σ α} (found : graph.node? id = some node) :
      Effect graph (.uncover id) (graph.dropCover node)
  | clear {call : GraphCall σ α} : Effect graph call graph.pruneAll
  | prune (id : Nat) {parent : Nat} {node : GraphNode σ α}
      (found : graph.node? parent = some node) :
      Effect graph (.prune id) (graph.pruneBelow parent node.children)

theorem effect_cover (graph : ReachabilityGraph σ α) (id : Nat) (coverers : List Nat) :
    Effect graph (.cover id coverers) (ReachabilityGraph.cover id coverers graph).2 := by
  rw [ReachabilityGraph.cover_run]
  split
  case isTrue => exact .unchanged
  case isFalse =>
    cases found : graph.node? id with
    | none => exact .unchanged
    | some node =>
        dsimp only
        split
        case isTrue => exact .unchanged
        case isFalse isOpen =>
          cases missing : coverers.find? fun coverer => !graph.contains coverer with
          | none =>
              simp only [GraphNode.isCovered, Bool.or_eq_true, Bool.not_eq_true', not_or,
                Bool.not_eq_false, List.isEmpty_iff] at isOpen
              exact .cover found isOpen.1 isOpen.2 coverers
          | some first =>
              refine .note id (List.mem_of_find?_eq_some missing) ?_ _
              simpa [ReachabilityGraph.contains] using List.find?_some missing

/-- A call on a forest has one of these effects. -/
theorem effect_perform (forest : graph.Forest) (call : GraphCall σ α) :
    Effect graph call (call.perform graph) := by
  cases call with
  | addInitial data => exact .addInitial data
  | addSuccessor parent action data =>
      rw [perform]
      cases found : graph.node? parent with
      | none => rw [ReachabilityGraph.addSuccessor_missing found]; exact .unchanged
      | some node => rw [ReachabilityGraph.addSuccessor_run found]; exact .addSuccessor found ..
  | markInitialized => exact .markInitialized
  | setExpanded id =>
      rw [perform, ReachabilityGraph.setExpanded]
      cases found : graph.node? id with
      | none => rw [ReachabilityGraph.updateNode_missing found]; exact .unchanged
      | some node => rw [ReachabilityGraph.updateNode_run found]; exact .setExpanded id
  | cover id coverers => exact effect_cover graph id coverers
  | uncover id =>
      rw [perform]
      cases found : graph.node? id with
      | none => rw [ReachabilityGraph.uncover_missing found]; exact .unchanged
      | some node => rw [ReachabilityGraph.uncover_run found]; exact .uncover found
  | prune id =>
      rw [perform]
      cases found : graph.node? id with
      | none => rw [ReachabilityGraph.prune_missing found]; exact .unchanged
      | some node =>
          obtain ⟨after, run, rfl | ⟨parent, parentNode, foundParent, -, rfl⟩⟩ :=
            forest.prune_run found <;> rw [run]
          · exact .clear
          · exact .prune id foundParent
  | pruneAll => exact .clear

theorem Effect.forest (effect : Effect graph call after) (forest : graph.Forest) :
    after.Forest := by
  cases effect with
  | unchanged => exact forest
  | addInitial data => exact forest.addInitial data
  | addSuccessor found action data => exact forest.withSuccessor found action data
  | markInitialized => exact forest.of_bare (graph.bare_initializedAs true)
  | setExpanded id => exact forest.of_bare (graph.bare_modifyNode id fun _ => rfl)
  | cover _ _ _ coverers => exact forest.of_bare (graph.bare_withCover _ coverers)
  | note id _ _ noted =>
      exact forest.of_bare (graph.bare_foldl_modifyNode noted fun _ => rfl)
  | uncover _ => exact forest.of_bare (graph.bare_dropCover _)
  | clear => exact graph.forest_pruneAll
  | prune id found => exact forest.pruneBelow found

/-- Proper calls leave an intact graph. -/
theorem Effect.keeps_intact (effect : Effect graph call after) (intact : graph.Intact)
    (proper : call.Proper graph) : after.Intact := by
  cases effect with
  | unchanged => exact intact
  | addInitial data => exact intact.addInitial data
  | addSuccessor found action data =>
      obtain ⟨node, found', uncovered, unmarked⟩ := proper
      obtain rfl := Option.some.inj (found.symm.trans found')
      exact intact.withSuccessor found (by simpa [GraphNode.isCovered] using uncovered) unmarked
        action data
  | markInitialized => exact intact.initializedAs true
  | setExpanded id => exact intact.markExpanded id
  | cover found uncovered childless coverers =>
      obtain ⟨node, found', mayCover⟩ := proper
      obtain rfl := Option.some.inj (found.symm.trans found')
      exact intact.withCover found childless uncovered mayCover
  | note id isMissing dead noted =>
      obtain ⟨node, -, mayCover⟩ := proper
      obtain ⟨other, foundOther, -⟩ := mayCover _ isMissing
      cases dead.symm.trans foundOther
  | uncover found =>
      have number := intact.id_eq found
      exact intact.dropCover (by rw [number, found])
  | clear => exact graph.intact_pruneAll
  | prune id found => exact intact.pruneBelow found

/-- The second graph has the numbers of the first one, and none of those that are not in use
comes back. -/
structure Forgets (before after : ReachabilityGraph σ α) : Prop where
  size_le : before.nodes.size ≤ after.nodes.size
  dead {id : Nat} : id < before.nodes.size → before.node? id = none → after.node? id = none

theorem Forgets.trans {last : ReachabilityGraph σ α} (earlier : Forgets graph after)
    (later : Forgets after last) : Forgets graph last where
  size_le := Nat.le_trans earlier.size_le later.size_le
  dead inside missing :=
    later.dead (Nat.lt_of_lt_of_le inside earlier.size_le) (earlier.dead inside missing)

theorem forgets_of_bare (same : after.bare = graph.bare) : Forgets graph after := by
  have size_eq : after.nodes.size = graph.nodes.size := by
    have size_eq := congrArg (fun graph => graph.nodes.size) same
    simpa only [ReachabilityGraph.bare, Array.size_map] using size_eq
  refine ⟨Nat.le_of_eq size_eq.symm, fun {id} _ missing => ?_⟩
  cases found : after.node? id with
  | none => rfl
  | some node =>
      obtain ⟨other, foundOther, -⟩ := ReachabilityGraph.exists_of_bare_eq same.symm found
      cases missing.symm.trans foundOther

theorem forgets_append (graph : ReachabilityGraph σ α) (data : NodeData σ)
    (origin : Option (Nat × α)) (depth : Nat) :
    Forgets graph (graph.append data origin depth) := by
  refine ⟨by simp [ReachabilityGraph.append], fun inside missing => ?_⟩
  rw [ReachabilityGraph.node?_append, if_neg (Nat.ne_of_lt inside), missing]

theorem forgets_modifyNode (graph : ReachabilityGraph σ α) (id : Nat)
    (change : GraphNode σ α → GraphNode σ α) : Forgets graph (graph.modifyNode id change) := by
  refine ⟨by simp, fun _ missing => ?_⟩
  rw [ReachabilityGraph.node?_modifyNode, missing]
  split <;> rfl

/-- No call brings a node back. -/
theorem Effect.forgets (effect : Effect graph call after) (forest : graph.Forest) :
    Forgets graph after := by
  cases effect with
  | unchanged => exact forgets_of_bare rfl
  | addInitial data => exact ⟨by simp [ReachabilityGraph.addInitial, ReachabilityGraph.append],
      (forgets_append graph data none 0).dead⟩
  | addSuccessor found action data =>
      exact (forgets_append graph data _ _).trans (forgets_modifyNode _ _ _)
  | markInitialized => exact forgets_of_bare rfl
  | setExpanded id => exact forgets_modifyNode graph id _
  | cover _ _ _ coverers => exact forgets_of_bare (graph.bare_withCover _ coverers)
  | note id _ _ noted => exact forgets_of_bare (graph.bare_foldl_modifyNode noted fun _ => rfl)
  | uncover _ => exact forgets_of_bare (graph.bare_dropCover _)
  | clear => exact ⟨by simp [ReachabilityGraph.pruneAll], fun _ _ => graph.node?_pruneAll _⟩
  | prune id found =>
      refine Forgets.trans ⟨?_, fun {id} _ missing => ?_⟩
        (forgets_of_bare (forest.bare_pruneBelow found))
      · exact Nat.le_of_eq (ReachabilityGraph.size_cutBelow ..).symm
      · rw [ReachabilityGraph.node?_cutBelow, missing]
        simp

end GraphCall

namespace ReachabilityGraph

variable {σ α : Type} {allowed : ReachabilityGraph σ α → GraphCall σ α → Prop}
  {before graph after : ReachabilityGraph σ α}

/-- The graphs that calls make of a graph, where each call is allowed in the graph that it is
made on. -/
inductive Becomes (allowed : ReachabilityGraph σ α → GraphCall σ α → Prop)
    (before : ReachabilityGraph σ α) : ReachabilityGraph σ α → Prop where
  | refl : Becomes allowed before before
  | call {graph : ReachabilityGraph σ α} (run : Becomes allowed before graph)
      (call : GraphCall σ α) (isAllowed : allowed graph call) :
      Becomes allowed before (call.perform graph)

theorem Becomes.mono {weaker : ReachabilityGraph σ α → GraphCall σ α → Prop}
    (run : Becomes allowed before graph) (allows : ∀ graph call, allowed graph call →
      weaker graph call) : Becomes weaker before graph := by
  induction run with
  | refl => exact .refl
  | call _ call isAllowed ih => exact ih.call call (allows _ call isAllowed)

/-- The graphs that calls make of the graph without nodes. -/
def Made (graph : ReachabilityGraph σ α) : Prop :=
  Becomes (fun _ _ => True) .empty graph

theorem Becomes.forest (run : Becomes allowed before graph) (forest : before.Forest) :
    graph.Forest := by
  induction run with
  | refl => exact forest
  | call _ call _ ih => exact (call.effect_perform ih).forest ih

theorem Made.forest (made : graph.Made) : graph.Forest :=
  Becomes.forest made forest_empty

theorem Becomes.keeps_intact (run : Becomes GraphCall.Proper before graph) (intact : before.Intact) :
    graph.Intact := by
  induction run with
  | refl => exact intact
  | call _ call proper ih => exact (call.effect_perform ih.toForest).keeps_intact ih proper

theorem Becomes.forgets (run : Becomes allowed before graph) (forest : before.Forest) :
    GraphCall.Forgets before graph := by
  induction run with
  | refl => exact GraphCall.forgets_of_bare rfl
  | call run call _ ih =>
      have forest' := run.forest forest
      exact ih.trans ((call.effect_perform forest').forgets forest')

theorem Becomes.not_contains (run : Becomes allowed before graph) (forest : before.Forest)
    {id : Nat} (wasLive : before.contains id = true) (removed : graph.contains id = false)
    (later : Becomes allowed graph after) : after.contains id = false := by
  obtain ⟨node, found⟩ := Option.isSome_iff_exists.mp wasLive
  have inside := Nat.lt_of_lt_of_le (node?_eq_some_lt found) (run.forgets forest).size_le
  have missing : graph.node? id = none := by simpa [contains] using removed
  rw [contains, (later.forgets (run.forest forest)).dead inside missing, Option.isSome_none]

/-- What the users of a graph rely on: it has no defects, its lists are those of the live nodes,
the descendants of unrelated roots are listed once, and every live node has a path from an
initial node and a counterexample along it. -/
structure Dependable (graph : ReachabilityGraph σ α) : Prop where
  sound : graph.defect? = none
  withKey_eq (key : Nat) : graph.withKey key = graph.live.filter fun node => node.key = key
  initial_eq :
    graph.initial = (graph.live.filter fun node => node.parent = none).map GraphNode.id
  descendants (roots : List Nat) (unrelated : roots.Pairwise fun first second =>
      ¬ graph.Below first second ∧ ¬ graph.Below second first) :
    (graph.descendants roots).Nodup ∧
      ∀ id, id ∈ graph.descendants roots ↔ ∃ root ∈ roots, graph.Below root id
  path {id : Nat} {node : GraphNode σ α} : graph.node? id = some node →
    ∃ path, graph.pathTo id = .ok path ∧ path.length = node.depth + 1 ∧ graph.LeadsTo id path
  counterexample {id : Nat} {node : GraphNode σ α} : graph.node? id = some node →
    ∃ counterexample, Counterexample.ofGraph graph id = .ok counterexample ∧
      graph.pathTo id = .ok counterexample.nodes ∧ counterexample.trace.length = node.depth

theorem Intact.dependable (intact : graph.Intact) : graph.Dependable where
  sound := intact.defect?_eq_none
  withKey_eq key := (intact.keyed key).filterMap_eq
  initial_eq := intact.roots.eq_map_filter fun _ _ => intact.id_eq
  descendants _ unrelated :=
    ⟨intact.nodup_descendants unrelated, fun _ => intact.mem_descendants_iff⟩
  path found := by
    obtain ⟨path, walks, leads⟩ := intact.exists_pathTo found
    exact ⟨path, walks, leads.length_eq intact.toForest found, leads⟩
  counterexample found := by
    obtain ⟨path, walks, leads⟩ := intact.exists_pathTo found
    obtain ⟨trace, made, length⟩ := leads.exists_counterexample walks
    have levels := leads.length_eq intact.toForest found
    exact ⟨⟨path, trace⟩, made, walks, Nat.succ.inj (length.trans levels)⟩

/-- The graphs that proper calls make of the graph without nodes can be relied on, and a node
that is removed from them never comes back. -/
theorem Becomes.stays_dependable (run : Becomes GraphCall.Proper .empty graph) :
    graph.Dependable ∧ ∀ (id : Nat) (middle after : ReachabilityGraph σ α),
      graph.contains id = true → Becomes GraphCall.Proper graph middle →
        middle.contains id = false → Becomes GraphCall.Proper middle after →
          after.contains id = false := by
  have intact := run.keeps_intact intact_empty
  exact ⟨intact.dependable, fun id middle after wasLive removes removed later =>
    removes.not_contains intact.toForest wasLive removed later⟩

def jointCover : ReachabilityGraph Nat Bool :=
  [.addInitial ⟨0, false, 7, 0⟩, .addInitial ⟨1, false, 7, 0⟩,
    .addSuccessor 0 true ⟨2, false, 7, 0⟩, .cover 1 [0, 2]].foldl
      (fun graph (call : GraphCall Nat Bool) => call.perform graph) .empty

theorem becomes_jointCover : Becomes GraphCall.Proper .empty jointCover := by
  have roots : Becomes GraphCall.Proper (.empty : ReachabilityGraph Nat Bool) _ :=
    (Becomes.refl.call (.addInitial ⟨0, false, 7, 0⟩) trivial).call
      (.addInitial ⟨1, false, 7, 0⟩) trivial
  have child := roots.call (.addSuccessor 0 true ⟨2, false, 7, 0⟩) ⟨_, rfl, rfl, rfl⟩
  refine child.call (.cover 1 [0, 2]) ⟨_, rfl, List.forall_mem_cons.mpr ⟨⟨_, rfl, rfl⟩, ?_⟩⟩
  exact List.forall_mem_singleton.mpr ⟨_, rfl, rfl⟩

/-- The joint cover can be relied on, and the successor does not come back after pruning. -/
theorem jointCover_stays_dependable : Becomes GraphCall.Proper .empty jointCover ∧
    jointCover.Dependable ∧ ((GraphCall.addInitial ⟨3, false, 7, 0⟩).perform
      ((GraphCall.prune 2).perform jointCover)).contains 2 = false := by
  obtain ⟨dependable, gone⟩ := Becomes.stays_dependable becomes_jointCover
  exact ⟨becomes_jointCover, dependable, gone 2 _ _ (by decide)
    (.call .refl (.prune 2) trivial) (by decide)
    (.call .refl (.addInitial ⟨3, false, 7, 0⟩) trivial)⟩

end ReachabilityGraph

end AbstractionRefinement
